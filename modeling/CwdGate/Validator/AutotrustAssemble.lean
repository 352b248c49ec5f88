import CwdGate.Validator.AutotrustRun

namespace CwdGate.Validator
open List

/-- The rrsets of the trust point are those that `autr_assemble` makes of its key list. -/
def TrustPoint.Assembled (tp : TrustPoint) : Prop :=
  tp.dsRrset = (autrAssemble tp).dsRrset ∧ tp.dnskeyRrset = (autrAssemble tp).dnskeyRrset

instance (tp : TrustPoint) : Decidable tp.Assembled :=
  inferInstanceAs (Decidable (_ ∧ _))

/-- The `changed` flag at the end of a call that used its probe. -/
def primeChanged (env : AutrEnv) (tp : TrustPoint) : Option DnskeyRrset → Bool
  | none => false
  | some rrset => (primeTable env tp rrset).2

section Unchanged
variable {env : AutrEnv} {tp : TrustPoint} {keys : List AutrTa}

/-- The event changed the key and said so, or did nothing. -/
def Flagged (r : AutrTa × Bool) (ta : AutrTa) : Prop := r.2 = true ∨ r = (ta, false)

theorem Flagged.ite [Decidable p] (h : Flagged r ta) (h' : Flagged r' ta) :
    Flagged (if p then r else r') ta := by
  split
  · exact h
  · exact h'

theorem Flagged.keep (ta : AutrTa) : Flagged (ta, false) ta := .inr rfl

theorem setTrustanchorState_flagged : Flagged (setTrustanchorState env ta s) ta := .inl rfl

theorem doNewkey_flagged : Flagged (doNewkey env ta) ta :=
  .ite setTrustanchorState_flagged (.keep ta)

theorem doAddtime_flagged : Flagged (doAddtime env ta) ta :=
  .ite (.inl rfl) (.keep ta)

theorem doRemtime_flagged : Flagged (doRemtime env ta) ta :=
  .ite setTrustanchorState_flagged (.keep ta)

theorem doKeyrem_flagged : Flagged (doKeyrem env ta) ta :=
  .ite (.inl rfl) (.ite setTrustanchorState_flagged (.keep ta))

theorem doKeypres_flagged : Flagged (doKeypres env ta) ta :=
  .ite setTrustanchorState_flagged (.keep ta)

theorem doRevoked_flagged : Flagged (doRevoked env ta) ta :=
  .ite (.inl rfl) (.keep ta)

theorem anchorStateUpdate_flagged : Flagged (anchorStateUpdate env ta) ta := by
  have hreset : Flagged (resetHolddown env ta) ta := .inl rfl
  rw [anchorStateUpdate.eq_def]
  split
  · exact .ite doNewkey_flagged (.keep ta)
  · exact .ite doKeyrem_flagged doAddtime_flagged
  · exact .ite doRevoked_flagged (.ite doKeyrem_flagged (.ite hreset (.keep ta)))
  · exact .ite doRevoked_flagged (.ite doKeypres_flagged (.keep ta))
  · exact .ite hreset doRemtime_flagged
  · exact .keep ta

theorem removeMissing_flagged : Flagged (removeMissing env valid ta) ta := by
  have hremove : Flagged (setTrustanchorState env ta .removed) ta :=
    setTrustanchorState_flagged
  exact .ite (.keep ta) (.ite (.ite hremove (.keep ta))
    (.ite (.keep ta) (.ite (.keep ta) (.ite hremove (.keep ta)))))

theorem seenRevoked_unchanged (h : (seenRevoked env ta).2 = false) :
    (seenRevoked env ta).1 = ta := by
  simp only [seenRevoked, Bool.or_eq_false_iff, Bool.not_eq_false'] at h ⊢
  obtain ⟨hrev, hflag⟩ := h
  have heq : { ta with revoked := true } = ta := by rw [← hrev]
  rw [heq] at hflag ⊢
  have hdo : Flagged (doRevoked env ta) ta := doRevoked_flagged
  rcases hdo with hdo | hdo
  · exact absurd (hdo.symm.trans hflag) (by decide)
  · rw [hdo]

theorem forKeys_unchanged
    (hevent : ∀ ta, Flagged (event ta) ta) (h : (forKeys select event tp changed).2 = false) :
    changed = false ∧ (forKeys select event tp changed).1 = tp := by
  simp only [forKeys, Bool.or_eq_false_iff, any_eq_false, Bool.and_eq_true, not_and,
    Bool.not_eq_true] at h
  obtain ⟨hchanged, hall⟩ := h
  refine ⟨hchanged, ?_⟩
  have hkey : ∀ ta ∈ tp.keys, (if select ta then (event ta).1 else ta) = ta := by
    intro ta hta
    split
    case isFalse => rfl
    case isTrue hsel =>
      rcases hevent ta with hflag | hflag
      · exact absurd (hflag.symm.trans (hall ta hta hsel)) (by decide)
      · rw [hflag]
  have hkeys := (map_congr_left hkey).trans (map_id _)
  rw [forKeys, hkeys]

theorem writeFound_unchanged (hfind : findKey keys rdata = some ta) (hf : f ta = ta) :
    writeFound rdata f keys = keys := by
  induction keys with
  | nil => rfl
  | cons t keys ih =>
    rw [findKey, find?_cons] at hfind
    rw [writeFound]
    cases hkey : isKey rdata t with
    | true =>
      rw [hkey] at hfind
      cases hfind
      rw [if_pos rfl, hf]
    | false =>
      rw [hkey] at hfind
      rw [if_neg (by decide), ih hfind]

theorem containsRevokedRr_unchanged (h : (containsRevokedRr env rrset i rdata st).2 = false) :
    containsRevokedRr env rrset i rdata st = st := by
  rw [containsRevokedRr] at h ⊢
  split at h
  case isTrue hc => rw [if_pos hc]
  case isFalse hc =>
    rw [if_neg hc]
    split at h
    · rfl
    case h_2 ta hfind =>
      split at h
      case isFalse hself => rw [if_neg hself]
      case isTrue hself =>
        rw [Bool.or_eq_false_iff] at h
        rw [if_pos hself, writeFound_unchanged hfind (seenRevoked_unchanged h.2), h.2,
          Bool.or_false]

theorem containsRevokedLoop_unchanged (h : (containsRevokedLoop env rrset i rrs st).2 = false) :
    containsRevokedLoop env rrset i rrs st = st := by
  induction rrs generalizing i st with
  | nil => rfl
  | cons rr rrs ih =>
    have heq := ih h
    rw [containsRevokedLoop] at h ⊢
    rw [heq] at h ⊢
    exact containsRevokedRr_unchanged h

theorem reassemble_of_false (h : (reassemble r).2 = false) :
    r.2 = false ∧ (reassemble r).1 = r.1 := by
  have h' : r.2 = false := h
  refine ⟨h', ?_⟩
  rw [reassemble, h', if_neg (by decide)]

theorem primeHolddown_unchanged (h : (primeHolddown env tp).2 = false) :
    (primeHolddown env tp).1 = { tp with lastQueried := env.now } := by
  obtain ⟨hflag, heq⟩ := reassemble_of_false h
  rw [primeHolddown, heq]
  exact (forKeys_unchanged (fun _ => doAddtime_flagged) hflag).2

theorem primeRevoked_unchanged (h : (primeRevoked env tp rrset).2 = false) :
    (primeRevoked env tp rrset).1 = { tp with lastQueried := env.now } := by
  obtain ⟨hflag, heq⟩ := reassemble_of_false h
  rw [primeRevoked, heq]
  have hloop := containsRevokedLoop_unchanged hflag
  have hfirst : (primeHolddown env tp).2 = false := by
    rw [checkContainsRevoked, hloop] at hflag
    exact hflag
  rw [checkContainsRevoked, hloop, primeHolddown_unchanged hfirst]

end Unchanged

section Views
variable {env : AutrEnv} {tp : TrustPoint} {keys : List AutrTa}

/-- What the assembly can see of a key: all but the marks of `update_events`. -/
def anchorView (ta : AutrTa) : AutrTa := { ta with fetched := false, pendingCount := 0 }

theorem packedRrsetHeap_view : packedRrsetHeap (list.map anchorView) = packedRrsetHeap list := by
  cases list with
  | nil => rfl
  | cons ta list =>
    simp only [map_cons, packedRrsetHeap, heapTtl, foldl_cons, foldl_map, map_map]
    rfl

theorem assembleIterateDnskey_view (h : keys'.map anchorView = keys.map anchorView) :
    packedRrsetHeap (assembleIterateDnskey keys') = packedRrsetHeap (assembleIterateDnskey keys) := by
  have hfilter : ∀ l : List AutrTa,
      (assembleIterateDnskey l).map anchorView = assembleIterateDnskey (l.map anchorView) := by
    intro l
    rw [assembleIterateDnskey, assembleIterateDnskey, filter_map]
    rfl
  rw [← packedRrsetHeap_view, hfilter, h, ← hfilter, packedRrsetHeap_view]

theorem writeFound_view (hf : ∀ ta, anchorView (f ta) = anchorView ta) :
    (writeFound rdata f keys).map anchorView = keys.map anchorView := by
  induction keys with
  | nil => rfl
  | cons t keys ih =>
    rw [writeFound]
    split
    · rw [map_cons, hf, map_cons]
    · rw [map_cons, ih, map_cons]

theorem updateEventsLoop_rrsets (i : Nat) (st : TrustPoint × Bool) :
    (updateEventsLoop env rrset i rrs st).1.dsRrset = st.1.dsRrset ∧
      (updateEventsLoop env rrset i rrs st).1.dnskeyRrset = st.1.dnskeyRrset := by
  induction rrs generalizing i st with
  | nil => exact ⟨rfl, rfl⟩
  | cons rr rrs ih =>
    obtain ⟨hds, hdnskey⟩ := ih (i + 1) (updateEventsRr env rrset i rr st)
    rw [updateEventsLoop, hds, hdnskey, updateEventsRr]
    repeat' split
    all_goals exact ⟨rfl, rfl⟩

theorem updateEventsLoop_view (h : (updateEventsLoop env rrset i rrs st).2 = false) :
    st.2 = false ∧
      (updateEventsLoop env rrset i rrs st).1.keys.map anchorView = st.1.keys.map anchorView := by
  induction rrs generalizing i st with
  | nil => exact ⟨h, rfl⟩
  | cons rr rrs ih =>
    obtain ⟨hflag, hview⟩ := ih h
    rw [updateEventsLoop, hview]
    rw [updateEventsRr] at hflag ⊢
    split at hflag
    case isTrue hu =>
      rw [if_pos hu]
      exact ⟨hflag, rfl⟩
    case isFalse hu =>
      rw [if_neg hu]
      split at hflag
      · have hseen : ∀ ta, anchorView (seenTrustanchor ta) = anchorView ta := fun _ => rfl
        exact ⟨hflag, writeFound_view hseen⟩
      · cases hflag

theorem primeEvents_unchanged (h : (primeEvents env tp rrset).2 = false) :
    (primeEvents env tp rrset).1.keys.map anchorView = tp.keys.map anchorView ∧
    (primeEvents env tp rrset).1.dsRrset = tp.dsRrset ∧
    (primeEvents env tp rrset).1.dnskeyRrset = tp.dnskeyRrset := by
  simp only [primeEvents, updateEvents, setTpTimes, Bool.or_eq_false_iff] at h ⊢
  obtain ⟨hflag, hview⟩ := updateEventsLoop_view h.1
  obtain ⟨hds, hdnskey⟩ := updateEventsLoop_rrsets 0
    (initEvents { (primeRevoked env tp rrset).1 with lastSuccess := env.now, queryFailed := 0 },
      (primeRevoked env tp rrset).2)
  rw [hview, hds, hdnskey]
  simp only [initEvents, primeRevoked_unchanged hflag, map_map, and_true]
  rfl

theorem countValid_unchanged (h : (countValid env tp changed).1.2 = false) :
    changed = false ∧ (countValid env tp changed).1.1 = tp := by
  rw [countValid] at h ⊢
  split at h
  case isFalse hc =>
    rw [if_neg hc]
    exact ⟨h, rfl⟩
  case isTrue hc =>
    rw [if_pos hc]
    rw [initZskToKsk] at h ⊢
    split at h
    case isTrue hz =>
      rw [if_pos hz]
      exact ⟨h, rfl⟩
    case isFalse hz =>
      rw [if_neg hz]
      exact forKeys_unchanged (fun _ => setTrustanchorState_flagged) h

theorem removeLoop_unchanged (h : (removeLoop env valid tp changed).2 = false) :
    changed = false ∧ (removeLoop env valid tp changed).1 = tp := by
  rw [removeLoop] at h ⊢
  split at h
  case isTrue hz =>
    rw [if_pos hz]
    exact ⟨h, rfl⟩
  case isFalse hz =>
    rw [if_neg hz]
    exact forKeys_unchanged (fun _ => removeMissing_flagged) h

theorem doStatetable_unchanged (h : (doStatetable env tp changed).2 = false) :
    changed = false ∧ (doStatetable env tp changed).1 = tp := by
  rw [doStatetable, removeMissingTrustanchors] at h ⊢
  obtain ⟨hcount, hremove⟩ := removeLoop_unchanged h
  obtain ⟨hstate, hvalid⟩ := countValid_unchanged hcount
  rw [hremove, hvalid]
  exact forKeys_unchanged (fun _ => anchorStateUpdate_flagged) hstate

theorem primeTable_unchanged (h : (primeTable env tp rrset).2 = false) :
    (primeTable env tp rrset).1.keys.map anchorView = tp.keys.map anchorView ∧
    (primeTable env tp rrset).1.dsRrset = tp.dsRrset ∧
    (primeTable env tp rrset).1.dnskeyRrset = tp.dnskeyRrset := by
  obtain ⟨hflag, heq⟩ := doStatetable_unchanged h
  rw [primeTable, heq]
  exact primeEvents_unchanged hflag

theorem clearPending_type : (clearPending ta).type = ta.type := by
  rw [clearPending]
  split <;> rfl

theorem clearPending_s : (clearPending ta).s = ta.s := by
  rw [clearPending]
  split <;> rfl

theorem clearPending_view (ta : AutrTa) : anchorView (clearPending ta) = anchorView ta := by
  rw [clearPending]
  split <;> rfl

theorem assembleIterateDs_cleanup : assembleIterateDs (autrCleanupKeys tp).keys = [] := by
  apply filter_eq_nil_iff.2
  intro ta' hta'
  obtain ⟨ta, hta, rfl⟩ := mem_map.1 hta'
  have hstays := (mem_filter.1 hta).2
  simp only [stays, decide_eq_true_eq] at hstays
  rw [clearPending_type, hstays.2.2]
  decide

theorem assembleIterateDnskey_cleanup :
    packedRrsetHeap (assembleIterateDnskey (autrCleanupKeys tp).keys) =
      packedRrsetHeap (assembleIterateDnskey tp.keys) := by
  have hkeys : assembleIterateDnskey (autrCleanupKeys tp).keys =
      (assembleIterateDnskey tp.keys).map clearPending := by
    rw [autrCleanupKeys, assembleIterateDnskey, assembleIterateDnskey, filter_map, filter_filter]
    congr 1
    apply filter_congr
    intro ta _
    rw [Function.comp, clearPending_type, clearPending_s, stays, Bool.eq_iff_iff]
    cases ta.type <;> cases ta.s <;> decide
  have hview : anchorView ∘ clearPending = anchorView := funext clearPending_view
  rw [hkeys, ← packedRrsetHeap_view, map_map, hview, packedRrsetHeap_view]

end Views

section Stale
variable {env : AutrEnv} {tp tp' : TrustPoint} {data : Option DnskeyRrset}

theorem TrustPoint.Assembled.assemble : (autrAssemble tp).Assembled :=
  ⟨rfl, rfl⟩

theorem assembled_reassemble (h : r.2 = true) : (reassemble r).1.Assembled := by
  rw [reassemble, h, if_pos rfl]
  exact .assemble

/-- The call used its probe and changed nothing, and the key list still had a DS. -/
def StaleDs (env : AutrEnv) (tp : TrustPoint) (data : Option DnskeyRrset) : Prop :=
  primeVerified env tp data = true ∧ primeChanged env tp data = false ∧
    ∃ ta ∈ tp.keys, ta.type = .ds

theorem packedRrsetHeap_eq_none : packedRrsetHeap list = none ↔ list = [] := by
  cases list with
  | nil => exact iff_of_true rfl rfl
  | cons ta list => exact iff_of_false (by simp [packedRrsetHeap]) (by simp)

theorem assembled_primeHolddown (h : tp.Assembled) : (primeHolddown env tp).1.Assembled := by
  cases hflag : (primeHolddown env tp).2 with
  | true => exact assembled_reassemble hflag
  | false =>
    rw [primeHolddown_unchanged hflag]
    exact h

theorem assembled_primeRevoked (h : tp.Assembled) : (primeRevoked env tp rrset).1.Assembled := by
  cases hflag : (primeRevoked env tp rrset).2 with
  | true => exact assembled_reassemble hflag
  | false =>
    rw [primeRevoked_unchanged hflag]
    exact h

theorem assembled_cleanup_iff (h : tp.Assembled) (hflag : (primeTable env tp rrset).2 = false) :
    (autrCleanupKeys (primeTable env tp rrset).1).Assembled ↔ ¬ ∃ ta ∈ tp.keys, ta.type = .ds := by
  obtain ⟨hview, hds, hdnskey⟩ := primeTable_unchanged hflag
  have hdnskey' : (autrCleanupKeys (primeTable env tp rrset).1).dnskeyRrset =
      (autrAssemble (autrCleanupKeys (primeTable env tp rrset).1)).dnskeyRrset := by
    calc (primeTable env tp rrset).1.dnskeyRrset
      _ = packedRrsetHeap (assembleIterateDnskey tp.keys) := hdnskey.trans h.2
      _ = packedRrsetHeap (assembleIterateDnskey (primeTable env tp rrset).1.keys) :=
        (assembleIterateDnskey_view hview).symm
      _ = _ := assembleIterateDnskey_cleanup.symm
  have hds' : (autrCleanupKeys (primeTable env tp rrset).1).dsRrset =
      packedRrsetHeap (assembleIterateDs tp.keys) := hds.trans h.1
  have hnone : (autrAssemble (autrCleanupKeys (primeTable env tp rrset).1)).dsRrset = none :=
    packedRrsetHeap_eq_none.2 assembleIterateDs_cleanup
  rw [TrustPoint.Assembled, and_iff_left hdnskey', hds', hnone, packedRrsetHeap_eq_none,
    assembleIterateDs, filter_eq_nil_iff]
  simp only [decide_eq_true_eq, not_exists, not_and]

def dsPoint : TrustPoint :=
  autrAssemble { rollPoint with
    keys := [⟨0, [], .ds, 1, 3600, [0, 30, 8, 2, 7], 0, .valid, 0, false, false⟩] }

def zskRrset : DnskeyRrset := ⟨3600, [(3600, [1, 0, 3, 8, 30])], []⟩

end Stale

variable {env : AutrEnv} {tp : TrustPoint} {rrset : DnskeyRrset} {ta : AutrTa}

/-- The stored timer and counter of a pending key allow it to become VALID. -/
structure AutrTa.AddTimePassed (env : AutrEnv) (ta : AutrTa) : Prop where
  sep : taIsDnskeySep ta = true
  pending : ta.s = .addpend
  holddown : checkHolddown env ta env.addHolddown ≠ 0
  count : minPendingcount ≤ ta.pendingCount

/-- The key is in the rrset with the REVOKE bit, and has signed it. -/
def AutrTa.SelfRevoked (env : AutrEnv) (rrset : DnskeyRrset) (ta : AutrTa) : Prop :=
  ∃ i rr, rrset.rrs[i]? = some rr ∧ isKey rr.2 ta = true ∧ rrIsDnskeySep .dnskey rr.2 = true ∧
    rrIsDnskeyRevoked .dnskey rr.2 = true ∧ env.selfsignedRevoked rrset i = true

structure UnverifiedChange (env : AutrEnv) (rrset : DnskeyRrset) (ta ta' : AutrTa) : Prop where
  addr : ta'.addr = ta.addr
  same : ta.Same ta'
  state : ta'.s = ta.s ∨ (ta'.s = .valid ∧ ta.AddTimePassed env) ∨
    (ta'.s = .revoked ∧ (ta.s = .valid ∨ ta.s = .missing ∨ ta.AddTimePassed env) ∧
      ta.SelfRevoked env rrset)

theorem UnverifiedChange.refl (ta : AutrTa) : UnverifiedChange env rrset ta ta :=
  ⟨rfl, .refl ta, .inl rfl⟩

theorem UnverifiedChange.trusted (h : UnverifiedChange env rrset ta ta')
    (hs : ta'.s = .valid ∨ ta'.s = .missing) :
    ta.s = .valid ∨ ta.s = .missing ∨ ta.AddTimePassed env := by
  rcases h.state with heq | ⟨_, hadd⟩ | ⟨hrev, _⟩
  · rw [heq] at hs
    exact hs.imp_right .inl
  · exact .inr (.inr hadd)
  · rw [hrev] at hs
    rcases hs with hs | hs <;> cases hs

theorem UnverifiedChange.seenRevoked (h : UnverifiedChange env rrset ta ta')
    (hrev : ta.SelfRevoked env rrset) (htype : ta'.type = .dnskey) :
    UnverifiedChange env rrset ta (seenRevoked env ta').1 := by
  have hevent : KeyEvent env none .revoked ta' (Validator.seenRevoked env ta').1 :=
    seenRevoked_event htype
  generalize (Validator.seenRevoked env ta').1 = x at hevent
  cases hevent with
  | keep => exact h
  | seenRevoked => exact ⟨h.addr, h.same, h.state⟩
  | addTime _ _ hph => rcases hph with hph | ⟨hph, _⟩ <;> cases hph
  | revBit _ _ _ _ hs =>
    have hsame : ta'.Same { ta' with
        s := .revoked, lastChange := env.now, revoked := true, rdata := setRevbit ta'.rdata } :=
      ⟨rfl, setRevbit_setRevbit _⟩
    exact ⟨h.addr, h.same.trans hsame, .inr (.inr ⟨rfl, h.trusted hs, hrev⟩)⟩

theorem primeHolddown_forall₂ :
    Forall₂ (UnverifiedChange env rrset) tp.keys (primeHolddown env tp).1.keys := by
  rw [primeHolddown, reassemble_keys]
  apply forall₂_map_right_iff.2
  apply forall₂_same.2
  intro ta _
  split
  case isFalse => exact .refl ta
  case isTrue hsel =>
    rw [doAddtime]
    split
    case isFalse => exact .refl ta
    case isTrue hadd =>
      rw [Bool.and_eq_true] at hsel
      exact ⟨rfl, .refl ta, .inr (.inl ⟨rfl, hsel.1, hadd.2.1, hadd.1, hadd.2.2⟩)⟩

theorem primeRevoked_forall₂ :
    Forall₂ (UnverifiedChange env rrset) tp.keys (primeRevoked env tp rrset).1.keys := by
  rw [primeRevoked, reassemble_keys]
  apply containsRevokedLoop_forall₂ _ drop_zero primeHolddown_forall₂
  intro i rr ta x hrr hsep hbit hself hkey h
  have hta := (h.same.isKey rr.2).symm.trans hkey
  exact h.seenRevoked ⟨i, rr, hrr, hta, hsep, hbit, hself⟩ (type_of_isKey hkey)

theorem reassemble_noAnchors (h : noAnchors (reassemble r) = true) (hta : ta ∈ r.1.keys) :
    ta.type = .dnskey ∧ ta.s ≠ .valid ∧ ta.s ≠ .missing := by
  simp only [noAnchors, Bool.and_eq_true, Option.isNone_iff_eq_none] at h
  obtain ⟨⟨hflag, hds⟩, hdnskey⟩ := h
  have hassembled : (reassemble r).1.Assembled := assembled_reassemble hflag
  rw [hassembled.1] at hds
  rw [hassembled.2] at hdnskey
  have hds := filter_eq_nil_iff.1 (packedRrsetHeap_eq_none.1 hds) ta (by simpa using hta)
  have hdnskey := filter_eq_nil_iff.1 (packedRrsetHeap_eq_none.1 hdnskey) ta (by simpa using hta)
  simp only [decide_eq_true_eq, not_and, not_or] at hds hdnskey
  have htype : ta.type = .dnskey := by
    cases h : ta.type with
    | dnskey => rfl
    | ds => exact absurd h hds
  exact ⟨htype, hdnskey hds⟩

/-- A probe that does not verify takes and adds no key: states change by timers, or by a revocation
that the key signed. -/
theorem autrProcessPrime_unverified (hver : primeVerifies env tp rrset = false) :
    ∃ keys, Forall₂ (UnverifiedChange env rrset) tp.keys keys ∧
      match (autrProcessPrime env tp (some rrset)).tp with
      | some tp' => tp'.keys = keys
      | none => ∀ ta ∈ keys, ta.type = .dnskey ∧ ta.s ≠ .valid ∧ ta.s ≠ .missing := by
  cases hres : (autrProcessPrime env tp (some rrset)).tp with
  | some tp' =>
    cases autrProcessPrime_end hres with
    | ignored => exact ⟨tp.keys, forall₂_same.2 fun ta _ => .refl ta, rfl⟩
    | unverified => exact ⟨_, primeRevoked_forall₂, rfl⟩
    | done _ hver' =>
      rw [primeVerified, hver, Bool.and_false] at hver'
      cases hver'
  | none =>
    use (primeRevoked env tp rrset).1.keys, primeRevoked_forall₂
    have hnone : noAnchors (primeRevoked env tp rrset) = true := by
      rw [primeVerifies, Bool.and_eq_false_iff] at hver
      rcases hver with hver | hver
      · simpa using hver
      · rw [autrProcessPrime] at hres
        by_contra hsome
        split at hres
        · cases hres
        · simp only [if_neg hsome, hver, Bool.not_false, if_true] at hres
          split at hres <;> cases hres
    intro ta hta
    apply reassemble_noAnchors hnone
    rwa [primeRevoked, reassemble_keys] at hta

def selfRevokedRrset : DnskeyRrset := ⟨3600, [(3600, [1, 0x81, 3, 8, 10])], []⟩

theorem autrProcessPrime_unverified_roll :
    ∃ keys, Forall₂
        (UnverifiedChange { rollEnv 2593001 with verifyDnskey := fun _ _ _ => false }
          selfRevokedRrset) rollTimeout.tp.keys keys ∧
      match (autrProcessPrime { rollEnv 2593001 with verifyDnskey := fun _ _ _ => false }
          rollTimeout.tp (some selfRevokedRrset)).tp with
      | some tp' => tp'.keys = keys
      | none => ∀ ta ∈ keys, ta.type = .dnskey ∧ ta.s ≠ .valid ∧ ta.s ≠ .missing :=
  autrProcessPrime_unverified (by decide)

/-- The rrset is signed by the second key of the roll only, and holds a third one. -/
def pendingSigned : AutrEnv :=
  { rollEnv 2593001 with
    verifyDnskey := fun _ anchors _ =>
      anchors.any fun a => a.rrs.any fun rr => rr.2 = [1, 1, 3, 8, 20] }

def thirdKeyRrset : DnskeyRrset :=
  ⟨3600, [(3600, [1, 1, 3, 8, 20]), (3600, [1, 1, 3, 8, 30])], []⟩

theorem pendingSigned_adds_key :
    PrimeRun rollPoint [rollSeen, rollAgain] rollTimeout.tp ∧
    pendingSigned.verifyDnskey rollTimeout.tp.dsRrset rollTimeout.tp.dnskeyRrset thirdKeyRrset =
      false ∧
    (rollTimeout.tp.keys.map fun ta => (ta.rdata, ta.s)) =
      [([1, 1, 3, 8, 20], .addpend), ([1, 1, 3, 8, 10], .valid)] ∧
    ((autrProcessPrime pendingSigned rollTimeout.tp (some thirdKeyRrset)).tp.map fun tp =>
      tp.keys.map fun ta => (ta.rdata, ta.s)) =
      some [([1, 1, 3, 8, 30], .addpend), ([1, 1, 3, 8, 20], .valid),
        ([1, 1, 3, 8, 10], .missing)] := by
  exact ⟨rollTimeout_run, by decide, by decide, by decide⟩

end CwdGate.Validator
