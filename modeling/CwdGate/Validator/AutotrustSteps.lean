import CwdGate.Validator.Autotrust

namespace CwdGate.Validator
open List

variable {tp : TrustPoint} {keys : List AutrTa} {ta : AutrTa}

@[simp] theorem reassemble_keys (r : TrustPoint × Bool) : (reassemble r).1.keys = r.1.keys := by
  rw [reassemble]
  split <;> rfl

@[simp] theorem reassemble_fresh (r : TrustPoint × Bool) : (reassemble r).1.fresh = r.1.fresh := by
  rw [reassemble]
  split <;> rfl

theorem exists_of_forall₂ {R : AutrTa → AutrTa → Prop} (h : Forall₂ R l l') (hb : b ∈ l') :
    ∃ a ∈ l, R a b := by
  induction h with
  | nil => cases hb
  | cons hab _ ih =>
    rcases mem_cons.1 hb with rfl | hb
    · exact ⟨_, mem_cons_self, hab⟩
    · obtain ⟨a, ha, hR⟩ := ih hb
      exact ⟨a, mem_cons_of_mem _ ha, hR⟩

theorem addrs_of_forall₂ {R : AutrTa → AutrTa → Prop} (h : Forall₂ R l l')
    (hR : ∀ a b, R a b → b.addr = a.addr) : l'.map AutrTa.addr = l.map AutrTa.addr := by
  induction h with
  | nil => rfl
  | cons hab _ ih => rw [map_cons, map_cons, hR _ _ hab, ih]

theorem writeFound_imp {R S : AutrTa → AutrTa → Prop} (h : Forall₂ R l keys)
    (hkeep : ∀ ta x, R ta x → S ta x) (hf : ∀ ta x, R ta x → isKey rdata x = true → S ta (f x)) :
    Forall₂ S l (writeFound rdata f keys) := by
  induction h with
  | nil => exact .nil
  | @cons ta x l keys hx hkeys ih =>
    rw [writeFound]
    split
    case isTrue hkey => exact .cons (hf ta x hx hkey) (hkeys.imp hkeep)
    case isFalse => exact .cons (hkeep ta x hx) ih

theorem writeFound_forall₂ (rdata : List UInt8) (f : AutrTa → AutrTa) (keys : List AutrTa) :
    Forall₂ (fun ta ta' => ta' = ta ∨ (isKey rdata ta = true ∧ ta' = f ta)) keys
      (writeFound rdata f keys) := by
  apply writeFound_imp (R := Eq) (forall₂_refl keys)
  · rintro ta _ rfl
    exact .inl rfl
  · rintro ta _ rfl hkey
    exact .inr ⟨hkey, rfl⟩

theorem containsRevokedLoop_forall₂ {R : AutrTa → AutrTa → Prop}
    (hR : ∀ i rr ta x, rrset.rrs[i]? = some rr → rrIsDnskeySep .dnskey rr.2 = true →
      rrIsDnskeyRevoked .dnskey rr.2 = true → env.selfsignedRevoked rrset i = true →
      isKey rr.2 x = true → R ta x → R ta (seenRevoked env x).1)
    (hrrs : rrset.rrs.drop i = rrs) (h : Forall₂ R l st.1) :
    Forall₂ R l (containsRevokedLoop env rrset i rrs st).1 := by
  induction rrs generalizing i st with
  | nil => exact h
  | cons rr rrs ih =>
    have hdrop : rrset.rrs.drop (i + 1) = rrs := by
      rw [← tail_drop, hrrs, tail_cons]
    apply ih hdrop
    rw [containsRevokedRr]
    split
    case isTrue => exact h
    case isFalse hbits =>
      simp only [Bool.or_eq_true, Bool.not_eq_true', not_or, Bool.not_eq_false] at hbits
      split
      case h_1 => exact h
      case h_2 =>
        split
        case isFalse => exact h
        case isTrue hself =>
          have hrr : rrset.rrs[i]? = some rr := by
            rw [← head?_drop, hrrs, head?_cons]
          apply writeFound_imp h fun _ _ => id
          intro ta x hx hkey
          exact hR i rr ta x hrr hbits.1 hbits.2 hself hkey hx

/-- What the loop of `update_events` does to a key that was in the list. -/
def SeenIn (env : AutrEnv) (rrset : DnskeyRrset) (i : Nat) (rrs : List (Int × List UInt8))
    (ta ta' : AutrTa) : Prop :=
  ∃ f n, ta' = { ta with fetched := f, pendingCount := n } ∧
    (f = true → ta.fetched = true ∨ 0 < sightingsFrom env rrset ta i rrs) ∧
    n ≤ ta.pendingCount + sightingsFrom env rrset ta i rrs

/-- A key that the loop of `update_events` adds to the list. -/
structure AddedIn (env : AutrEnv) (rrset : DnskeyRrset) (i : Nat) (rrs : List (Int × List UInt8))
    (tp : TrustPoint) (ta' : AutrTa) : Prop where
  addr : tp.fresh ≤ ta'.addr
  state : ta'.s = .start ∨ (ta'.s = .valid ∧ ∃ ds j rr, tp.dsRrset = some ds ∧
    rrset.rrs[j]? = some rr ∧ isKey rr.2 ta' = true ∧ env.keyMatchesADs rrset j ds = true)
  new : ∀ ta ∈ tp.keys, ¬ ta.Same ta'
  seen : 0 < sightingsFrom env rrset ta' i rrs
  count : ta'.pendingCount ≤ sightingsFrom env rrset ta' i rrs

theorem SeenIn.refl (ta : AutrTa) : SeenIn env rrset i rrs ta ta :=
  ⟨ta.fetched, ta.pendingCount, rfl, fun h => .inl h, Nat.le_add_right _ _⟩

theorem SeenIn.same (h : SeenIn env rrset i rrs ta ta') : ta.Same ta' := by
  obtain ⟨f, n, rfl, _⟩ := h
  exact ⟨rfl, rfl⟩

theorem SeenIn.skip (h : SeenIn env rrset (i + 1) rrs ta ta') :
    SeenIn env rrset i (rr :: rrs) ta ta' := by
  obtain ⟨f, n, rfl, hf, hn⟩ := h
  have hle : sightingsFrom env rrset ta (i + 1) rrs ≤ sightingsFrom env rrset ta i (rr :: rrs) :=
    Nat.le_add_left _ _
  exact ⟨f, n, rfl, fun h => (hf h).imp_right fun h => by omega, by omega⟩

theorem sightingsFrom_cons_of_key (hu : usableRr env rrset i rr.2 = true)
    (hkey : isKey rr.2 ta = true) :
    sightingsFrom env rrset ta i (rr :: rrs) = 1 + sightingsFrom env rrset ta (i + 1) rrs := by
  rw [sightingsFrom, hu, hkey]
  rfl

theorem seenTrustanchor_count_le (ta : AutrTa) :
    (seenTrustanchor ta).pendingCount ≤ ta.pendingCount + 1 := by
  simp only [seenTrustanchor]
  split <;> omega

theorem SeenIn.found (hu : usableRr env rrset i rr.2 = true) (hkey : isKey rr.2 ta = true)
    (h : SeenIn env rrset (i + 1) rrs (seenTrustanchor ta) ta') :
    SeenIn env rrset i (rr :: rrs) ta ta' := by
  obtain ⟨f, n, rfl, hf, hn⟩ := h
  have hsame : ta.Same (seenTrustanchor ta) := ⟨rfl, rfl⟩
  rw [hsame.sightingsFrom] at hn
  have hcount := seenTrustanchor_count_le ta
  refine ⟨f, n, rfl, fun _ => .inr ?_, ?_⟩
  all_goals
    rw [sightingsFrom_cons_of_key hu hkey]
    omega

theorem firstSeen_fields (env : AutrEnv) (rrset : DnskeyRrset) (i : Nat) (rr : Int × List UInt8)
    (tp : TrustPoint) :
    (firstSeen env rrset i rr tp).addr = tp.fresh ∧ (firstSeen env rrset i rr tp).type = .dnskey ∧
    (firstSeen env rrset i rr tp).rdata = rr.2 ∧ (firstSeen env rrset i rr tp).pendingCount = 0 ∧
    ((firstSeen env rrset i rr tp).s = .start ∨ ((firstSeen env rrset i rr tp).s = .valid ∧
      ∃ ds, tp.dsRrset = some ds ∧ env.keyMatchesADs rrset i ds = true)) := by
  rw [firstSeen.eq_def]
  cases hds : tp.dsRrset with
  | none => exact ⟨rfl, rfl, rfl, rfl, .inl rfl⟩
  | some ds =>
    dsimp only
    split
    case isTrue h => exact ⟨rfl, rfl, rfl, rfl, .inr ⟨rfl, ds, rfl, h⟩⟩
    case isFalse => exact ⟨rfl, rfl, rfl, rfl, .inl rfl⟩

theorem AddedIn.skip (h : AddedIn env rrset (i + 1) rrs tp' ta') (hfresh : tp.fresh ≤ tp'.fresh)
    (hds : tp'.dsRrset = tp.dsRrset) (hsame : ∀ ta ∈ tp.keys, ∃ x ∈ tp'.keys, ta.Same x) :
    AddedIn env rrset i (rr :: rrs) tp ta' := by
  have hnew : ∀ ta ∈ tp.keys, ¬ ta.Same ta' := by
    intro ta hta hta'
    obtain ⟨x, hx, hxsame⟩ := hsame ta hta
    exact h.new x hx (hxsame.symm.trans hta')
  have hle : sightingsFrom env rrset ta' (i + 1) rrs ≤ sightingsFrom env rrset ta' i (rr :: rrs) :=
    Nat.le_add_left _ _
  exact ⟨hfresh.trans h.addr, hds ▸ h.state, hnew, h.seen.trans_le hle, h.count.trans hle⟩

theorem AddedIn.first (hu : usableRr env rrset i rr.2 = true) (hrr : rrset.rrs[i]? = some rr)
    (hnone : findKey tp.keys rr.2 = none)
    (h : SeenIn env rrset (i + 1) rrs (seenTrustanchor (firstSeen env rrset i rr tp)) ta') :
    AddedIn env rrset i (rr :: rrs) tp ta' := by
  obtain ⟨haddr, htype, hrdata, hpend, hstate⟩ := firstSeen_fields env rrset i rr tp
  have hcount := seenTrustanchor_count_le (firstSeen env rrset i rr tp)
  have hsame := h.same
  have hkey : isKey rr.2 ta' = true := by
    rw [hsame.isKey, isKey_iff]
    exact ⟨htype, by rw [← hrdata]; rfl⟩
  have hsight : sightingsFrom env rrset ta' i (rr :: rrs) =
      1 + sightingsFrom env rrset ta' (i + 1) rrs := sightingsFrom_cons_of_key hu hkey
  obtain ⟨f, n, rfl, hf, hn⟩ := h
  rw [← hsame.sightingsFrom] at hn
  constructor
  case addr => exact haddr.ge
  case state =>
    apply hstate.imp_right
    intro ⟨hs, ds, hds, hmatch⟩
    exact ⟨hs, ds, i, rr, hds, hrr, hkey, hmatch⟩
  case new =>
    intro ta hta hta'
    apply find?_eq_none.1 hnone ta hta
    rw [← hta'.isKey]
    exact hkey
  case seen => omega
  case count =>
    dsimp only at hsight ⊢
    omega

theorem updateEventsRr_mem (h : x ∈ (updateEventsRr env rrset i rr st).1.keys) :
    x ∈ st.1.keys ∨
    (usableRr env rrset i rr.2 = true ∧
      ((∃ ta ∈ st.1.keys, isKey rr.2 ta = true ∧ x = seenTrustanchor ta) ∨
        (findKey st.1.keys rr.2 = none ∧ x = seenTrustanchor (firstSeen env rrset i rr st.1)))) := by
  rw [updateEventsRr] at h
  split at h
  · exact .inl h
  case isFalse hu =>
    have hu : usableRr env rrset i rr.2 = true := by simpa using hu
    split at h
    · obtain ⟨ta, hta, rfl | ⟨hkey, rfl⟩⟩ := exists_of_forall₂ (writeFound_forall₂ ..) h
      · exact .inl hta
      · exact .inr ⟨hu, .inl ⟨ta, hta, hkey, rfl⟩⟩
    case h_2 hnone =>
      rcases mem_cons.1 h with rfl | h
      · exact .inr ⟨hu, .inr ⟨hnone, rfl⟩⟩
      · exact .inl h

theorem updateEventsRr_frame :
    (updateEventsRr env rrset i rr st).1.dsRrset = st.1.dsRrset ∧
      st.1.fresh ≤ (updateEventsRr env rrset i rr st).1.fresh := by
  rw [updateEventsRr]
  repeat' split
  all_goals exact ⟨rfl, by first | exact le_rfl | exact Nat.le_succ _⟩

theorem updateEventsRr_same (hta : ta ∈ st.1.keys) :
    ∃ x ∈ (updateEventsRr env rrset i rr st).1.keys, ta.Same x := by
  rw [updateEventsRr]
  split
  · exact ⟨ta, hta, .refl ta⟩
  split
  · obtain ⟨x, hx, rfl | ⟨-, rfl⟩⟩ :=
      exists_of_forall₂ (Forall₂.flip (R := flip _) (writeFound_forall₂ rr.2 seenTrustanchor _)) hta
    · exact ⟨x, hx, .refl x⟩
    · exact ⟨seenTrustanchor ta, hx, rfl, rfl⟩
  · exact ⟨ta, mem_cons_of_mem _ hta, .refl ta⟩

theorem updateEventsLoop_mem (hrrs : rrset.rrs.drop i = rrs)
    (h : ta' ∈ (updateEventsLoop env rrset i rrs st).1.keys) :
    (∃ ta ∈ st.1.keys, SeenIn env rrset i rrs ta ta') ∨ AddedIn env rrset i rrs st.1 ta' := by
  induction rrs generalizing i st with
  | nil => exact .inl ⟨ta', h, .refl ta'⟩
  | cons rr rrs ih =>
    have hrr : rrset.rrs[i]? = some rr := by
      rw [← head?_drop, hrrs, head?_cons]
    have hdrop : rrset.rrs.drop (i + 1) = rrs := by
      rw [← tail_drop, hrrs, tail_cons]
    obtain ⟨hds, hfresh⟩ := updateEventsRr_frame
    rcases ih hdrop h with ⟨x, hx, hseen⟩ | hadded
    case inr => exact .inr (hadded.skip hfresh hds fun ta hta => updateEventsRr_same hta)
    case inl =>
      rcases updateEventsRr_mem hx with hx | ⟨hu, ⟨ta, hta, hkey, rfl⟩ | ⟨hnone, rfl⟩⟩
      · exact .inl ⟨x, hx, hseen.skip⟩
      · exact .inl ⟨ta, hta, hseen.found hu hkey⟩
      · exact .inr (.first hu hrr hnone hseen)

theorem updateEvents_mem (h : ta' ∈ (updateEvents env tp rrset changed).1.keys) :
    (∃ ta ∈ tp.keys, KeyEvent env (some rrset) .events ta ta') ∨
      AddedIn env rrset 0 rrset.rrs tp ta' := by
  rcases updateEventsLoop_mem (drop_zero) h with ⟨x, hx, f, n, rfl, hf, hn⟩ | hadded
  case inr =>
    have hnew : ∀ ta ∈ tp.keys, ¬ ta.Same ta' := fun ta hta =>
      hadded.new { ta with fetched := false } (mem_map_of_mem hta)
    exact .inr ⟨hadded.addr, hadded.state, hnew, hadded.seen, hadded.count⟩
  case inl =>
    obtain ⟨ta, hta, rfl⟩ := mem_map.1 hx
    have hsame : ta.Same { ta with fetched := false } := ⟨rfl, rfl⟩
    rw [hsame.sightingsFrom] at hf hn
    refine .inl ⟨ta, hta, .seen ta f n (fun h => ?_) hn⟩
    exact (hf h).resolve_left (by simp)

/-- The nodes of the key list are distinct allocations. -/
structure TrustPoint.Distinct (tp : TrustPoint) : Prop where
  nodup : (tp.keys.map AutrTa.addr).Nodup
  fresh : ∀ ta ∈ tp.keys, ta.addr < tp.fresh

theorem TrustPoint.Distinct.eq (h : tp.Distinct) (hta : ta ∈ tp.keys) (hta' : ta' ∈ tp.keys)
    (haddr : ta.addr = ta'.addr) : ta = ta' :=
  inj_on_of_nodup_map h.nodup hta hta' haddr

theorem TrustPoint.Distinct.of_sublist {tp tp' : TrustPoint} (h : tp.Distinct)
    (hkeys : (tp'.keys.map AutrTa.addr).Sublist (tp.keys.map AutrTa.addr))
    (hfresh : tp.fresh ≤ tp'.fresh) : tp'.Distinct := by
  constructor
  case nodup => exact h.nodup.sublist hkeys
  case fresh =>
    intro ta hta
    obtain ⟨x, hx, heq⟩ := mem_map.1 (hkeys.subset (mem_map_of_mem hta))
    rw [← heq]
    exact (h.fresh x hx).trans_le hfresh

theorem TrustPoint.Distinct.of_addrs {tp tp' : TrustPoint} (h : tp.Distinct)
    (hkeys : tp'.keys.map AutrTa.addr = tp.keys.map AutrTa.addr) (hfresh : tp'.fresh = tp.fresh) :
    tp'.Distinct := by
  apply h.of_sublist _ hfresh.ge
  rw [hkeys]

theorem TrustPoint.Distinct.reassemble (h : r.1.Distinct) : (reassemble r).1.Distinct :=
  h.of_addrs (by rw [reassemble_keys]) (reassemble_fresh r)

/-- The keys that are left went through an event of the phase, each in its place. -/
structure Events (env : AutrEnv) (data : Option DnskeyRrset) (ph : Phase) (tp tp' : TrustPoint) :
    Prop where
  keys : ∃ l, l.Sublist tp.keys ∧ Forall₂ (KeyEvent env data ph) l tp'.keys
  fresh : tp'.fresh = tp.fresh

theorem Events.mem (h : Events env data ph tp tp') (hta : ta' ∈ tp'.keys) :
    ∃ ta ∈ tp.keys, KeyEvent env data ph ta ta' := by
  obtain ⟨l, hl, hevents⟩ := h.keys
  obtain ⟨ta, hta, hevent⟩ := exists_of_forall₂ hevents hta
  exact ⟨ta, hl.subset hta, hevent⟩

theorem Events.distinct (h : Events env data ph tp tp') (hd : tp.Distinct) : tp'.Distinct := by
  obtain ⟨l, hl, hevents⟩ := h.keys
  apply hd.of_sublist _ h.fresh.ge
  rw [addrs_of_forall₂ hevents fun _ _ hevent => hevent.addr_eq]
  exact hl.map _

theorem Events.keep (hph : ph ≠ .events) (htable : ph ≠ .statetable) (tp : TrustPoint) :
    Events env data ph tp tp :=
  ⟨⟨_, .refl _, forall₂_same.2 fun ta _ => .keep ph ta hph fun h => absurd h htable⟩, rfl⟩

theorem Events.forKeys {select : AutrTa → Bool} {event : AutrTa → AutrTa × Bool}
    (h : ∀ ta, KeyEvent env data ph ta (if select ta then (event ta).1 else ta)) :
    Events env data ph tp (forKeys select event tp changed).1 :=
  ⟨⟨_, .refl _, forall₂_map_right_iff.2 (forall₂_same.2 fun ta _ => h ta)⟩, rfl⟩

section
variable (data : Option DnskeyRrset)

theorem primeHolddown_events : Events env data .holddown tp (primeHolddown env tp).1 := by
  have hevents : Events env data .holddown { tp with lastQueried := env.now }
      (autrHolddownExceed env { tp with lastQueried := env.now } false).1 := by
    apply Events.forKeys
    intro ta
    split
    case isTrue hsel =>
      rw [Bool.and_eq_true] at hsel
      exact doAddtime_event (.inl rfl) hsel.1
    case isFalse => exact .keep _ ta (by decide) (by simp)
  constructor
  · rw [primeHolddown, reassemble_keys]
    exact hevents.keys
  · rw [primeHolddown, reassemble_fresh]
    exact hevents.fresh

theorem primeRevoked_events :
    Events env (some rrset) .revoked (primeHolddown env tp).1 (primeRevoked env tp rrset).1 := by
  constructor
  · rw [primeRevoked, reassemble_keys]
    refine ⟨_, .refl _, containsRevokedLoop_forall₂ ?_ drop_zero ?_⟩
    · intro i rr ta x _ _ _ _ hkey h
      exact h.revoked_trans (seenRevoked_event (type_of_isKey hkey))
    · exact forall₂_same.2 fun ta _ => .keep _ ta (by decide) (by simp)
  · rw [primeRevoked, reassemble_fresh]
    rfl

theorem primeRevoked_fresh : (primeRevoked env tp rrset).1.fresh = tp.fresh :=
  primeRevoked_events.fresh.trans (primeHolddown_events none).fresh

theorem primeEvents_mem (h : ta' ∈ (primeEvents env tp rrset).1.keys) :
    (∃ ta ∈ (primeRevoked env tp rrset).1.keys, KeyEvent env (some rrset) .events ta ta') ∨
      AddedIn env rrset 0 rrset.rrs (primeRevoked env tp rrset).1 ta' := by
  rcases updateEvents_mem h with h | h
  · exact .inl h
  · exact .inr ⟨h.addr, h.state, h.new, h.seen, h.count⟩

theorem stateUpdates_events : Events env data .statetable tp (stateUpdates env tp changed).1 := by
  apply Events.forKeys
  intro ta
  split
  case isTrue hsep => exact anchorStateUpdate_event hsep
  case isFalse hsep => exact .keep _ ta (by decide) fun _ h => absurd h hsep

theorem countValid_keys :
    (countValid env tp changed).1.1 = tp ∨
    ((∀ ta ∈ tp.keys, isValidKsk ta = false) ∧ (∃ ta ∈ tp.keys, isInitZsk ta = true) ∧
      (countValid env tp changed).1 =
        forKeys isPendingKsk (fun ta => setTrustanchorState env ta .valid) tp changed) := by
  rw [countValid]
  split
  case isFalse => exact .inl rfl
  case isTrue hksk =>
    rw [initZskToKsk]
    split
    case isTrue => exact .inl rfl
    case isFalse hzsk =>
      refine .inr ⟨?_, ?_, rfl⟩
      · simpa using hksk
      · simpa using hzsk

theorem countValid_events : Events env data .zskToKsk tp (countValid env tp changed).1.1 := by
  rcases countValid_keys with heq | ⟨_, _, heq⟩
  · rw [heq]
    exact .keep (by decide) (by decide) tp
  · rw [heq]
    apply Events.forKeys
    intro ta
    split
    case isTrue hsel =>
      simp only [isPendingKsk, Bool.and_eq_true, decide_eq_true_eq] at hsel
      exact .trustKsk ta hsel.1 hsel.2
    case isFalse => exact .keep _ ta (by decide) (by simp)

theorem removeLoop_events :
    Events env data .removeMissing tp (removeLoop env valid tp changed).1 := by
  rw [removeLoop]
  split
  · exact .keep (by decide) (by decide) tp
  · exact .forKeys fun ta => removeMissing_event

end

theorem autrCleanupKeys_events (env : AutrEnv) (data : Option DnskeyRrset) :
    Events env data .cleanup tp (autrCleanupKeys tp) :=
  ⟨⟨_, filter_sublist, forall₂_map_right_iff.2 (forall₂_same.2 fun _ _ => clearPending_event)⟩, rfl⟩

/-- The phases of a call, by the functions that do them. -/
inductive PrimeStep (env : AutrEnv) (tp : TrustPoint) :
    Option DnskeyRrset → Phase → TrustPoint → TrustPoint → Prop
  | holddown (data : Option DnskeyRrset) : tp.revoked = false →
      PrimeStep env tp data .holddown tp (primeHolddown env tp).1
  | revoked (rrset : DnskeyRrset) : tp.revoked = false →
      PrimeStep env tp (some rrset) .revoked (primeHolddown env tp).1 (primeRevoked env tp rrset).1
  | events (rrset : DnskeyRrset) : primeVerified env tp (some rrset) = true →
      PrimeStep env tp (some rrset) .events (primeRevoked env tp rrset).1
        (primeEvents env tp rrset).1
  | statetable (rrset : DnskeyRrset) (changed : Bool) : primeVerified env tp (some rrset) = true →
      PrimeStep env tp (some rrset) .statetable (primeEvents env tp rrset).1
        (stateUpdates env (primeEvents env tp rrset).1 changed).1
  | zskToKsk (rrset : DnskeyRrset) (tp' : TrustPoint) (changed : Bool) : primeVerified env tp (some rrset) = true →
      PrimeStep env tp (some rrset) .zskToKsk tp' (countValid env tp' changed).1.1
  | removeMissing (rrset : DnskeyRrset) (valid : Nat) (tp' : TrustPoint) (changed : Bool) :
      PrimeStep env tp (some rrset) .removeMissing tp' (removeLoop env valid tp' changed).1
  | cleanup (rrset : DnskeyRrset) (tp' : TrustPoint) :
      PrimeStep env tp (some rrset) .cleanup tp' (autrCleanupKeys tp')

theorem mem_primeSteps {before after : TrustPoint}
    (h : (ph, before, after) ∈ primeSteps env tp data) : PrimeStep env tp data ph before after := by
  rw [primeSteps] at h
  split at h
  case isTrue => cases h
  case isFalse hrev =>
    have hrev : tp.revoked = false := by simpa using hrev
    rcases mem_cons.1 h with heq | h
    · cases heq
      exact .holddown data hrev
    cases data with
    | none => cases h
    | some rrset =>
      rcases mem_cons.1 h with heq | h
      · cases heq
        exact .revoked rrset hrev
      split at h
      case isTrue => cases h
      case isFalse hver =>
        have hver : primeVerified env tp (some rrset) = true := by
          simpa [primeVerified, hrev] using hver
        simp only [mem_cons, not_mem_nil, or_false] at h
        rcases h with heq | heq | heq | heq | heq
        · cases heq
          exact .events rrset hver
        · cases heq
          exact .statetable rrset _ hver
        · cases heq
          exact .zskToKsk rrset _ _ hver
        · cases heq
          exact .removeMissing rrset _ _ _
        · cases heq
          exact .cleanup rrset _

theorem PrimeStep.events_of_ne {before after : TrustPoint}
    (h : PrimeStep env tp data ph before after) (hph : ph ≠ .events) :
    Events env data ph before after := by
  cases h with
  | holddown => exact primeHolddown_events data
  | revoked => exact primeRevoked_events
  | events => exact absurd rfl hph
  | statetable => exact stateUpdates_events _
  | zskToKsk => exact countValid_events _
  | removeMissing => exact removeLoop_events _
  | cleanup => exact autrCleanupKeys_events _ _

theorem PrimeStep.key {before after : TrustPoint} (h : PrimeStep env tp data ph before after)
    (hta : ta' ∈ after.keys) :
    (∃ ta ∈ before.keys, KeyEvent env data ph ta ta') ∨
    (ph = .events ∧ ∃ rrset, data = some rrset ∧ AddedIn env rrset 0 rrset.rrs before ta') := by
  by_cases hph : ph = .events
  · subst hph
    cases h with
    | events rrset => exact (primeEvents_mem hta).imp_right fun h => ⟨rfl, rrset, rfl, h⟩
  · exact .inl ((h.events_of_ne hph).mem hta)

theorem TrustPoint.Distinct.updateEventsLoop {rrs : List (Int × List UInt8)} (h : st.1.Distinct) :
    (updateEventsLoop env rrset i rrs st).1.Distinct := by
  induction rrs generalizing i st with
  | nil => exact h
  | cons rr rrs ih =>
    apply ih
    rw [updateEventsRr]
    split
    · exact h
    split
    · have hsame := addrs_of_forall₂ (writeFound_forall₂ rr.2 seenTrustanchor st.1.keys)
        (by rintro ta _ (rfl | ⟨-, rfl⟩) <;> rfl)
      exact h.of_addrs hsame rfl
    have haddr := (firstSeen_fields env rrset i rr st.1).1
    constructor
    case nodup =>
      apply nodup_cons.2
      constructor
      · intro hmem
        obtain ⟨ta, hta, heq⟩ := mem_map.1 hmem
        have hlt := h.fresh ta hta
        rw [heq] at hlt
        exact hlt.ne haddr
      · exact h.nodup
    case fresh =>
      exact forall_mem_cons.2 ⟨Nat.lt_succ_of_le haddr.le,
        fun ta hta => Nat.lt_succ_of_lt (h.fresh ta hta)⟩

theorem TrustPoint.Distinct.primeRevoked (h : tp.Distinct) :
    (primeRevoked env tp rrset).1.Distinct :=
  primeRevoked_events.distinct ((primeHolddown_events none).distinct h)

theorem TrustPoint.Distinct.primeEvents (h : tp.Distinct) :
    (primeEvents env tp rrset).1.Distinct := by
  have h₁ : (Validator.primeRevoked env tp rrset).1.Distinct := h.primeRevoked
  have hinit : (initEvents { (Validator.primeRevoked env tp rrset).1 with
      lastSuccess := env.now, queryFailed := 0 }).Distinct := h₁.of_addrs map_map rfl
  have hloop : (Validator.updateEventsLoop env rrset 0 rrset.rrs
      (_, (Validator.primeRevoked env tp rrset).2)).1.Distinct :=
    TrustPoint.Distinct.updateEventsLoop hinit
  exact ⟨hloop.nodup, hloop.fresh⟩

end CwdGate.Validator
