import CwdGate.Validator.AutotrustSteps

namespace CwdGate.Validator
open List

/-- A call of `autr_process_prime`, with the trust point that it starts from. -/
structure Call where
  tp : TrustPoint
  env : AutrEnv
  data : Option DnskeyRrset

def Call.verified (c : Call) : Bool := primeVerified c.env c.tp c.data

def Call.sightings (c : Call) (ta : AutrTa) : Nat := Validator.sightings c.env ta c.data

def Call.contains (c : Call) (ta : AutrTa) : Bool := 0 < c.sightings ta

/-- How far the call can raise the pending count of a key. -/
def Call.counted (c : Call) (ta : AutrTa) : Nat := if c.verified then c.sightings ta else 0

def Call.result (c : Call) : Option TrustPoint := (autrProcessPrime c.env c.tp c.data).tp

def Call.steps (c : Call) : List (Phase × TrustPoint × TrustPoint) := primeSteps c.env c.tp c.data

inductive PrimeRun (tp₀ : TrustPoint) : List Call → TrustPoint → Prop
  | start : PrimeRun tp₀ [] tp₀
  | call {h : List Call} {c : Call} {tp : TrustPoint} :
      PrimeRun tp₀ h c.tp → c.result = some tp → PrimeRun tp₀ (h ++ [c]) tp

section Calls
variable {tp : TrustPoint} {data : Option DnskeyRrset} {ta ta' : AutrTa}

def primeTable (env : AutrEnv) (tp : TrustPoint) (rrset : DnskeyRrset) : TrustPoint × Bool :=
  doStatetable env (primeEvents env tp rrset).1 (primeEvents env tp rrset).2

/-- The ways in which a call ends that leaves the trust point in place. -/
inductive PrimeEnd (env : AutrEnv) (tp : TrustPoint) : Option DnskeyRrset → TrustPoint → Prop
  | ignored (data : Option DnskeyRrset) : tp.revoked = true → PrimeEnd env tp data tp
  | noData : tp.revoked = false → PrimeEnd env tp none (primeHolddown env tp).1
  | unverified (rrset : DnskeyRrset) (n : Nat) : tp.revoked = false →
      primeVerifies env tp rrset = false →
      PrimeEnd env tp (some rrset) { (primeRevoked env tp rrset).1 with queryFailed := n }
  | done (rrset : DnskeyRrset) : primeVerified env tp (some rrset) = true →
      PrimeEnd env tp (some rrset)
        (reassemble (autrCleanupKeys (primeTable env tp rrset).1, (primeTable env tp rrset).2)).1

theorem autrProcessPrime_end (h : (autrProcessPrime env tp data).tp = some tp') :
    PrimeEnd env tp data tp' := by
  rw [autrProcessPrime.eq_def] at h
  split at h
  case isTrue hrev =>
    cases h
    exact .ignored data hrev
  case isFalse hrev =>
    have hrev : tp.revoked = false := by simpa using hrev
    cases data with
    | none =>
      cases h
      exact .noData hrev
    | some rrset =>
      dsimp only at h
      split at h
      case isTrue => cases h
      case isFalse hnone =>
        split at h
        case isTrue hver =>
          have hver : primeVerifies env tp rrset = false := by
            rw [primeVerifies, Bool.and_eq_false_iff]
            exact .inr (by simpa using hver)
          split at h
          · cases h
            exact .unverified rrset _ hrev hver
          · cases h
            exact .unverified rrset (primeRevoked env tp rrset).1.queryFailed hrev hver
        case isFalse hver =>
          have hver : primeVerified env tp (some rrset) = true := by
            simp only [primeVerified, primeVerifies, Bool.and_eq_true]
            exact ⟨by simpa using hrev, by simpa using hnone, by simpa using hver⟩
          split at h
          case isTrue => cases h
          split at h
          case isTrue => cases h
          cases h
          exact .done rrset hver

theorem TrustPoint.Distinct.primeEnd (h : tp.Distinct) (hend : PrimeEnd env tp data tp') :
    tp'.Distinct := by
  cases hend with
  | ignored => exact h
  | noData => exact (primeHolddown_events none).distinct h
  | unverified rrset n =>
    have h' : (Validator.primeRevoked env tp rrset).1.Distinct := h.primeRevoked
    exact ⟨h'.nodup, h'.fresh⟩
  | done rrset =>
    apply TrustPoint.Distinct.reassemble
    apply (autrCleanupKeys_events env none).distinct
    apply (removeLoop_events none).distinct
    apply (countValid_events none).distinct
    apply (stateUpdates_events none).distinct
    exact h.primeEvents

theorem updateEventsLoop_fresh (i : Nat) (st : TrustPoint × Bool) :
    st.1.fresh ≤ (updateEventsLoop env rrset i rrs st).1.fresh := by
  induction rrs generalizing i st with
  | nil => exact le_rfl
  | cons rr rrs ih => exact updateEventsRr_frame.2.trans (ih _ _)

theorem primeEvents_fresh :
    tp.fresh ≤ (primeEvents env tp rrset).1.fresh := by
  have hloop : (initEvents (primeRevoked env tp rrset).1).fresh ≤ (primeEvents env tp rrset).1.fresh :=
    updateEventsLoop_fresh 0
      (initEvents { (primeRevoked env tp rrset).1 with lastSuccess := env.now, queryFailed := 0 },
        (primeRevoked env tp rrset).2)
  exact primeRevoked_fresh.ge.trans hloop

theorem primeTable_fresh : (primeTable env tp rrset).1.fresh = (primeEvents env tp rrset).1.fresh :=
  (removeLoop_events none).fresh.trans (countValid_events none).fresh

theorem PrimeEnd.fresh_le (hend : PrimeEnd env tp data tp') : tp.fresh ≤ tp'.fresh := by
  cases hend with
  | ignored => exact le_rfl
  | noData => exact (primeHolddown_events none).fresh.ge
  | unverified rrset n => exact primeRevoked_fresh.ge
  | done rrset =>
    rw [reassemble_fresh]
    exact primeEvents_fresh.trans primeTable_fresh.ge

theorem primeHolddown_carries (hta : ta' ∈ (primeHolddown env tp).1.keys) (hs : ta'.s = .addpend) :
    ∃ ta ∈ tp.keys, Carries 0 ta ta' := by
  obtain ⟨ta, hta, hevent⟩ := (primeHolddown_events none).mem hta
  exact ⟨ta, hta, hevent.carries hs (by decide) (by decide)⟩

theorem primeRevoked_carries (hta : ta' ∈ (primeRevoked env tp rrset).1.keys)
    (hs : ta'.s = .addpend) : ∃ ta ∈ tp.keys, Carries 0 ta ta' := by
  obtain ⟨x, hx, hevent⟩ := primeRevoked_events.mem hta
  have hcarries := hevent.carries hs (by decide) (by decide)
  obtain ⟨ta, hta, hcarries'⟩ := primeHolddown_carries hx hcarries.state
  exact ⟨ta, hta, hcarries'.trans hcarries⟩

/-- A key that is in START was so in the list, with its pending count. -/
def StartedIn (keys : List AutrTa) (addr n : Nat) : Prop :=
  ∃ ta ∈ keys, ta.addr = addr ∧ ta.s = .start ∧ ta.pendingCount = n

theorem primeHolddown_started (hta : ta' ∈ (primeHolddown env tp).1.keys) (hs : ta'.s = .start) :
    StartedIn tp.keys ta'.addr ta'.pendingCount := by
  obtain ⟨ta, hta, hevent⟩ := (primeHolddown_events none).mem hta
  exact ⟨ta, hta, hevent.addr_eq.symm, hevent.of_start hs (by decide),
    (hevent.count_eq hs (.inl rfl)).symm⟩

theorem primeRevoked_started (hta : ta' ∈ (primeRevoked env tp rrset).1.keys) (hs : ta'.s = .start) :
    StartedIn tp.keys ta'.addr ta'.pendingCount := by
  obtain ⟨ta, hta, hevent⟩ := primeRevoked_events.mem hta
  rw [hevent.addr_eq, hevent.count_eq hs (.inr rfl)]
  exact primeHolddown_started hta (hevent.of_start hs (by decide))

section
variable (hta : ta' ∈ (primeEvents env tp rrset).1.keys)
include hta

theorem primeEvents_fetched (hf : ta'.fetched = true) : 0 < sightings env ta' (some rrset) := by
  rcases primeEvents_mem hta with ⟨x, hx, hevent⟩ | hadded
  case inr => exact hadded.seen
  case inl =>
    have hsame := hevent.same
    rw [hsame.sightings]
    cases hevent with
    | keep _ _ hne => exact absurd rfl hne
    | addTime _ _ hph => simp at hph
    | revBit _ _ hph => simp at hph
    | seen _ f n hseen => exact hseen hf

theorem primeEvents_carries (hs : ta'.s = .addpend) :
    ∃ ta ∈ tp.keys, Carries (sightings env ta' (some rrset)) ta ta' := by
  rcases primeEvents_mem hta with ⟨x, hx, hevent⟩ | hadded
  case inr =>
    rcases hadded.state with hs' | ⟨hs', _⟩
    · exact absurd (hs'.symm.trans hs) (by decide)
    · exact absurd (hs'.symm.trans hs) (by decide)
  case inl =>
    have hcarries := hevent.carries_seen hs
    rw [← hcarries.same.sightings] at hcarries
    obtain ⟨ta, hta, hcarries'⟩ := primeRevoked_carries hx hcarries.state
    have htrans := hcarries'.trans hcarries
    rw [Nat.zero_add] at htrans
    exact ⟨ta, hta, htrans⟩

theorem primeEvents_started (hs : ta'.s = .start) :
    ∃ n, ta'.pendingCount ≤ n + sightings env ta' (some rrset) ∧
      ((n = 0 ∧ tp.fresh ≤ ta'.addr) ∨ StartedIn tp.keys ta'.addr n) := by
  rcases primeEvents_mem hta with ⟨x, hx, hevent⟩ | hadded
  case inr =>
    have haddr := hadded.addr
    rw [primeRevoked_fresh] at haddr
    have hcount : ta'.pendingCount ≤ 0 + sightings env ta' (some rrset) := by
      rw [Nat.zero_add]
      exact hadded.count
    exact ⟨0, hcount, .inl ⟨rfl, haddr⟩⟩
  case inl =>
    have hstart := hevent.of_start hs (by decide)
    have hsame := hevent.same
    cases hevent with
    | keep _ _ hne => exact absurd rfl hne
    | addTime => cases hs
    | revBit => cases hs
    | seen _ f n _ hn =>
      rw [hsame.sightings]
      exact ⟨x.pendingCount, hn, .inr (primeRevoked_started hx hstart)⟩

end

/-- How a KSK came to be pending at the end of a call. -/
inductive Pends (c : Call) (ta' : AutrTa) : Prop
  | carried (ta : AutrTa) : ta ∈ c.tp.keys → Carries (c.counted ta') ta ta' →
      (c.verified = true → c.contains ta' = true) → Pends c ta'
  | entered (n : Nat) : c.verified = true → c.contains ta' = true → ta'.lastChange = c.env.now →
      ta'.pendingCount ≤ n + c.counted ta' →
      ((n = 0 ∧ c.tp.fresh ≤ ta'.addr) ∨ StartedIn c.tp.keys ta'.addr n) → Pends c ta'

theorem Call.contains_congr (hsame : ta.Same ta') (c : Call) : c.contains ta' = c.contains ta := by
  have hsight : c.sightings ta' = c.sightings ta := hsame.sightings c.env c.data
  rw [Call.contains, hsight, Call.contains]

theorem Call.counted_congr (hsame : ta.Same ta') (c : Call) : c.counted ta' = c.counted ta := by
  have hsight : c.sightings ta' = c.sightings ta := hsame.sightings c.env c.data
  rw [Call.counted, hsight, Call.counted]

theorem Pends.carry (h : Pends c ta) (hc : Carries 0 ta ta') : Pends c ta' := by
  cases h with
  | carried x hx hcarries hin =>
    rw [← c.counted_congr hc.same] at hcarries
    rw [← c.contains_congr hc.same] at hin
    exact .carried x hx (hcarries.trans hc) hin
  | entered n hver hin hnow hn hfrom =>
    rw [← c.contains_congr hc.same] at hin
    rw [← c.counted_congr hc.same] at hn
    rw [← hc.addr] at hfrom
    exact .entered n hver hin (hc.lastChange.trans hnow) (hc.count.trans hn) hfrom

theorem stateUpdates_pends (hver : primeVerified env tp (some rrset) = true)
    (hta : ta' ∈ (stateUpdates env (primeEvents env tp rrset).1 changed).1.keys)
    (hsep : taIsDnskeySep ta' = true) (hs : ta'.s = .addpend) :
    Pends ⟨tp, env, some rrset⟩ ta' := by
  obtain ⟨x, hx, hevent⟩ := (stateUpdates_events none).mem hta
  have hsame := hevent.same
  have hsight : Call.sightings ⟨tp, env, some rrset⟩ ta' = sightings env x (some rrset) :=
    hsame.sightings env (some rrset)
  have hcounted : Call.counted ⟨tp, env, some rrset⟩ ta' = sightings env x (some rrset) :=
    (if_pos hver).trans hsight
  have hsepx : taIsDnskeySep x = true := hsame.sep ▸ hsep
  obtain ⟨hf, hor⟩ := hevent.pending_statetable hsepx hs
  have hcontains : Call.contains ⟨tp, env, some rrset⟩ ta' = true := by
    rw [Call.contains, hsight]
    exact decide_eq_true (primeEvents_fetched hx hf)
  rcases hor with hcarries | ⟨hstart, hnow, hcount⟩
  case inl =>
    obtain ⟨ta, hta, hcx⟩ := primeEvents_carries hx hcarries.state
    have htrans := hcx.trans hcarries
    rw [Nat.add_zero, ← hcounted] at htrans
    exact .carried ta hta htrans fun _ => hcontains
  case inr =>
    obtain ⟨n, hn, hfrom⟩ := primeEvents_started hx hstart
    rw [← hcount, ← hcounted] at hn
    exact .entered n hver hcontains hnow hn (hevent.addr_eq ▸ hfrom)

theorem primeTable_pends (hver : primeVerified env tp (some rrset) = true)
    (hta : ta' ∈ (primeTable env tp rrset).1.keys) (hsep : taIsDnskeySep ta' = true)
    (hs : ta'.s = .addpend) : Pends ⟨tp, env, some rrset⟩ ta' := by
  obtain ⟨z, hz, hremove⟩ := (removeLoop_events none).mem hta
  have hcz := hremove.carries hs (by decide) (by decide)
  obtain ⟨y, hy, hzsk⟩ := (countValid_events none).mem hz
  have hcy := (hzsk.carries hcz.state (by decide) (by decide)).trans hcz
  have hpends := stateUpdates_pends hver hy (hcy.same.sep ▸ hsep) hcy.state
  exact hpends.carry hcy

theorem PrimeEnd.pends (hend : PrimeEnd env tp data tp') (hta : ta' ∈ tp'.keys)
    (hsep : taIsDnskeySep ta' = true) (hs : ta'.s = .addpend) : Pends ⟨tp, env, data⟩ ta' := by
  have hunseen : primeVerified env tp data = false →
      (∃ ta ∈ tp.keys, Carries 0 ta ta') → Pends ⟨tp, env, data⟩ ta' := by
    intro hver ⟨ta, hta, hcarries⟩
    have hcounted : Call.counted ⟨tp, env, data⟩ ta' = 0 := if_neg (by simp [Call.verified, hver])
    refine .carried ta hta (hcounted ▸ hcarries) fun hver' => ?_
    exact absurd (hver.symm.trans hver') (by decide)
  cases hend with
  | ignored data hrev =>
    apply hunseen
    · cases data with
      | none => rfl
      | some rrset => rw [primeVerified, hrev, Bool.not_true, Bool.false_and]
    · exact ⟨ta', hta, rfl, .refl ta', hs, rfl, le_rfl⟩
  | noData => exact hunseen rfl (primeHolddown_carries hta hs)
  | unverified rrset n _ hver =>
    apply hunseen
    · rw [primeVerified, hver, Bool.and_false]
    · exact primeRevoked_carries hta hs
  | done rrset hver =>
    rw [reassemble_keys] at hta
    obtain ⟨x, hx, hevent⟩ := (autrCleanupKeys_events env none).mem hta
    have hcarries := hevent.carries hs (by decide) (by decide)
    have hpends := primeTable_pends hver hx (hcarries.same.sep ▸ hsep) hcarries.state
    exact hpends.carry hcarries

/-- A key can only be in START after a call that did not use its probe. -/
theorem PrimeEnd.started (hend : PrimeEnd env tp data tp') (hta : ta' ∈ tp'.keys)
    (hs : ta'.s = .start) : StartedIn tp.keys ta'.addr ta'.pendingCount := by
  cases hend with
  | ignored => exact ⟨ta', hta, rfl, hs, rfl⟩
  | noData => exact primeHolddown_started hta hs
  | unverified => exact primeRevoked_started hta hs
  | done rrset hver =>
    rw [reassemble_keys] at hta
    obtain ⟨x, hx, rfl⟩ := mem_map.1 hta
    have hevent : KeyEvent env none .cleanup x (clearPending x) := clearPending_event
    simp [stays, hevent.of_start hs (by decide)] at hx

end Calls

section Pending
variable {tp₀ tp : TrustPoint} {h : List Call} {ta : AutrTa}

/-- The pending count that a key brings into the sequence of calls. -/
def recorded (tp₀ : TrustPoint) (addr : Nat) : Nat :=
  ((tp₀.keys.find? fun ta => ta.addr = addr).map AutrTa.pendingCount).getD 0

def Call.Pending (c : Call) (addr : Nat) : Prop :=
  ∃ ta ∈ c.tp.keys, ta.addr = addr ∧ ta.s = .addpend

/-- `h₂` are the calls since the key became pending, in the first of them or before all calls. -/
def PendingSpan (tp₀ : TrustPoint) (h₁ h₂ : List Call) (ta : AutrTa) : Prop :=
  (∃ c rest, h₂ = c :: rest ∧ c.verified = true ∧ c.contains ta = true ∧
    ta.lastChange = c.env.now ∧ ¬ c.Pending ta.addr ∧ ∀ d ∈ rest, d.Pending ta.addr) ∨
  (h₁ = [] ∧ (∃ ta₀ ∈ tp₀.keys, ta₀.addr = ta.addr ∧ ta₀.s = .addpend ∧
    ta.lastChange = ta₀.lastChange) ∧ ∀ d ∈ h₂, d.Pending ta.addr)

/-- What the fields of a pending key say about the calls so far. -/
def PendingSince (tp₀ : TrustPoint) (h : List Call) (ta : AutrTa) : Prop :=
  ∃ h₁ h₂, h = h₁ ++ h₂ ∧ PendingSpan tp₀ h₁ h₂ ta ∧
    (∀ c ∈ h₂, c.verified = true → c.contains ta = true) ∧
    ta.pendingCount ≤ recorded tp₀ ta.addr + (h₂.map fun c => c.counted ta).sum

theorem recorded_eq (hd : tp₀.Distinct) (hta : ta ∈ tp₀.keys) :
    recorded tp₀ ta.addr = ta.pendingCount := by
  have hfind : tp₀.keys.find? (fun x => x.addr = ta.addr) = some ta := by
    cases hx : tp₀.keys.find? (fun x => x.addr = ta.addr) with
    | none => simpa using find?_eq_none.1 hx ta hta
    | some x =>
      have haddr : x.addr = ta.addr := by simpa using find?_some hx
      rw [hd.eq (mem_of_find?_eq_some hx) hta haddr]
  rw [recorded, hfind]
  rfl

theorem PendingSpan.extend (hspan : PendingSpan tp₀ h₁ h₂ ta) (hc : Carries n ta ta')
    (hpend : c.Pending ta.addr) : PendingSpan tp₀ h₁ (h₂ ++ [c]) ta' := by
  have hsnoc : ∀ {rest : List Call}, (∀ d ∈ rest, d.Pending ta.addr) →
      ∀ d ∈ rest ++ [c], d.Pending ta'.addr := by
    intro rest hrest
    rw [hc.addr]
    exact forall_mem_append.2 ⟨hrest, forall_mem_singleton.2 hpend⟩
  rcases hspan with ⟨b, rest, rfl, hver, hin, hnow, hnot, hrest⟩ | ⟨h₁nil, ⟨x, hx, haddr, hs, hl⟩, hrest⟩
  case inl =>
    refine .inl ⟨b, rest ++ [c], rfl, hver, ?_, hc.lastChange.trans hnow, ?_, hsnoc hrest⟩
    · rw [b.contains_congr hc.same]
      exact hin
    · rw [hc.addr]
      exact hnot
  case inr =>
    exact .inr ⟨h₁nil, ⟨x, hx, haddr.trans hc.addr.symm, hs, hc.lastChange.trans hl⟩, hsnoc hrest⟩

theorem PendingSince.extend (hp : PendingSince tp₀ h ta) (hc : Carries (c.counted ta') ta ta')
    (hpend : c.Pending ta.addr) (hin : c.verified = true → c.contains ta' = true) :
    PendingSince tp₀ (h ++ [c]) ta' := by
  obtain ⟨h₁, h₂, rfl, hspan, hall, hcount⟩ := hp
  refine ⟨h₁, h₂ ++ [c], append_assoc .., hspan.extend hc hpend, ?_, ?_⟩
  · refine forall_mem_append.2 ⟨fun d hd => ?_, forall_mem_singleton.2 hin⟩
    rw [d.contains_congr hc.same]
    exact hall d hd
  · have hsum : (h₂.map fun d => d.counted ta') = h₂.map fun d => d.counted ta :=
      map_congr_left fun d _ => Call.counted_congr hc.same d
    rw [map_append, sum_append, hsum, hc.addr, map_singleton, sum_singleton]
    have := hc.count
    omega

structure RunInv (tp₀ : TrustPoint) (h : List Call) (tp : TrustPoint) : Prop where
  distinct : tp.Distinct
  fresh : tp₀.fresh ≤ tp.fresh
  started : ∀ ta ∈ tp.keys, ta.s = .start → StartedIn tp₀.keys ta.addr ta.pendingCount
  pending : ∀ ta ∈ tp.keys, taIsDnskeySep ta = true → ta.s = .addpend → PendingSince tp₀ h ta

theorem RunInv.start (hd : tp₀.Distinct) : RunInv tp₀ [] tp₀ where
  distinct := hd
  fresh := le_rfl
  started := fun ta hta hs => ⟨ta, hta, rfl, hs, rfl⟩
  pending := by
    intro ta hta _ hs
    exact ⟨[], [], rfl, .inr ⟨rfl, ⟨ta, hta, rfl, hs, rfl⟩, forall_mem_nil _⟩, forall_mem_nil _,
      (recorded_eq hd hta).ge⟩

theorem RunInv.call {c : Call} (hd : tp₀.Distinct) (hinv : RunInv tp₀ h c.tp)
    (hres : c.result = some tp) : RunInv tp₀ (h ++ [c]) tp := by
  have hend := autrProcessPrime_end hres
  constructor
  case distinct => exact hinv.distinct.primeEnd hend
  case fresh => exact hinv.fresh.trans hend.fresh_le
  case started =>
    intro ta' hta' hs
    obtain ⟨ta, hta, haddr, hstart, hcount⟩ := hend.started hta' hs
    rw [← haddr, ← hcount]
    exact hinv.started ta hta hstart
  case pending =>
    intro ta' hta' hsep hs
    have hpends : Pends c ta' := hend.pends hta' hsep hs
    cases hpends with
    | carried ta hta hcarries hin =>
      have hp := hinv.pending ta hta (hcarries.same.sep ▸ hsep) hcarries.state
      exact hp.extend hcarries ⟨ta, hta, rfl, hcarries.state⟩ hin
    | entered n hver hin hnow hn hfrom =>
      have hnot : ¬ c.Pending ta'.addr := by
        intro ⟨x, hx, haddr, hpend⟩
        rcases hfrom with ⟨_, hfresh⟩ | ⟨y, hy, haddr', hstart, _⟩
        · have := hinv.distinct.fresh x hx
          omega
        · rw [hinv.distinct.eq hx hy (haddr.trans haddr'.symm), hstart] at hpend
          cases hpend
      have hrecorded : n ≤ recorded tp₀ ta'.addr := by
        rcases hfrom with ⟨rfl, _⟩ | ⟨y, hy, haddr, hstart, rfl⟩
        · exact Nat.zero_le _
        · obtain ⟨z, hz, haddr', _, hcount⟩ := hinv.started y hy hstart
          rw [← haddr, ← haddr', recorded_eq hd hz, hcount]
      refine ⟨h, [c], rfl, .inl ⟨c, [], rfl, hver, hin, hnow, hnot, forall_mem_nil _⟩,
        forall_mem_singleton.2 fun _ => hin, ?_⟩
      rw [map_singleton, sum_singleton]
      omega

theorem PrimeRun.inv (hd : tp₀.Distinct) (hrun : PrimeRun tp₀ h tp) : RunInv tp₀ h tp := by
  induction hrun with
  | start => exact .start hd
  | call _ hres ih => exact ih.call hd hres

end Pending

section Doubles
variable {ta : AutrTa}

def DnskeyRrset.NoDoubles (rrset : DnskeyRrset) : Prop := (rrset.rrs.map Prod.snd).Nodup

instance (rrset : DnskeyRrset) : Decidable rrset.NoDoubles :=
  inferInstanceAs (Decidable (List.Nodup _))

def Call.NoDoubles (c : Call) : Prop := ∀ rrset, c.data = some rrset → rrset.NoDoubles

theorem not_revoked_of_usableRr (h : usableRr env rrset i rdata = true) :
    rrIsDnskeyRevoked .dnskey rdata = false := by
  simp only [usableRr, Bool.and_eq_true, Bool.not_eq_true'] at h
  exact h.1.1.2

theorem exists_of_sightingsFrom (h : 0 < sightingsFrom env rrset ta i rrs) :
    ∃ rr ∈ rrs, ∃ j, usableRr env rrset j rr.2 = true ∧ isKey rr.2 ta = true := by
  induction rrs generalizing i with
  | nil => cases h
  | cons rr rrs ih =>
    rw [sightingsFrom] at h
    split at h
    case isTrue hkey =>
      rw [Bool.and_eq_true] at hkey
      exact ⟨rr, mem_cons_self, i, hkey⟩
    case isFalse =>
      rw [Nat.zero_add] at h
      obtain ⟨x, hx, hkey⟩ := ih h
      exact ⟨x, mem_cons_of_mem rr hx, hkey⟩

theorem sightingsFrom_le_one (h : (rrs.map Prod.snd).Nodup) :
    sightingsFrom env rrset ta i rrs ≤ 1 := by
  induction rrs generalizing i with
  | nil => exact Nat.zero_le 1
  | cons rr rrs ih =>
    obtain ⟨hnot, hrest⟩ := nodup_cons.1 h
    rw [sightingsFrom]
    split
    case isFalse =>
      rw [Nat.zero_add]
      exact ih hrest
    case isTrue hkey =>
      rw [Bool.and_eq_true] at hkey
      rcases Nat.eq_zero_or_pos (sightingsFrom env rrset ta (i + 1) rrs) with hzero | hpos
      · rw [hzero]
      · obtain ⟨x, hx, j, hu, hkey'⟩ := exists_of_sightingsFrom hpos
        have heq : x.2 = rr.2 := by
          apply eq_of_setRevbit_eq (not_revoked_of_usableRr hu) (not_revoked_of_usableRr hkey.1)
          rw [← (isKey_iff.1 hkey').2, (isKey_iff.1 hkey.2).2]
        exact absurd (heq ▸ mem_map_of_mem hx) hnot

theorem Call.counted_eq {c : Call} (h : c.NoDoubles) :
    c.counted ta = if c.verified && c.contains ta then 1 else 0 := by
  have hle : c.sightings ta ≤ 1 := by
    rw [Call.sightings]
    cases hdata : c.data with
    | none => exact Nat.zero_le 1
    | some rrset => exact sightingsFrom_le_one (h rrset hdata)
  rw [Call.counted, Call.contains]
  generalize c.sightings ta = n at hle
  cases c.verified with
  | false => rfl
  | true =>
    obtain rfl | rfl : n = 0 ∨ n = 1 := by omega
    · rfl
    · rfl

theorem sum_counted {h : List Call} (hone : ∀ c ∈ h, c.NoDoubles) :
    (h.map fun c => c.counted ta).sum = h.countP fun c => c.verified && c.contains ta := by
  induction h with
  | nil => rfl
  | cons c h ih =>
    rw [map_cons, sum_cons, countP_cons, Call.counted_eq (hone c mem_cons_self),
      ih fun d hd => hone d (mem_cons_of_mem c hd), Nat.add_comm]

end Doubles

section Valid
variable {tp₀ tp before after : TrustPoint} {h : List Call} {c : Call} {ta ta' : AutrTa} {ph : Phase}

/-- Pending for more than the hold-down time, and in every verified probe since, enough of them. -/
def LongPending (tp₀ : TrustPoint) (h : List Call) (env : AutrEnv) (ta : AutrTa) : Prop :=
  ∃ h₁ h₂, h = h₁ ++ h₂ ∧ PendingSpan tp₀ h₁ h₂ ta ∧
    (∀ c ∈ h₂, c.verified = true → c.contains ta = true) ∧
    (env.addHolddown : Int) < env.now - ta.lastChange ∧
    minPendingcount ≤ recorded tp₀ ta.addr + h₂.countP fun c => c.verified && c.contains ta

/-- The ways in which a key becomes VALID in a phase of a call. -/
inductive ValidBy (tp₀ : TrustPoint) (h : List Call) (c : Call) (before : TrustPoint) :
    Phase → AutrTa → Prop
  | holddown (ta ta' : AutrTa) : ta ∈ before.keys → ta'.addr = ta.addr → ta.s = .addpend →
      LongPending tp₀ h c.env ta → ValidBy tp₀ h c before .holddown ta'
  | addTime (ta ta' : AutrTa) : ta ∈ before.keys → ta'.addr = ta.addr → ta.s = .addpend →
      c.verified = true → c.contains ta = true → LongPending tp₀ (h ++ [c]) c.env ta →
      ValidBy tp₀ h c before .statetable ta'
  | keyPres (ta ta' : AutrTa) : ta ∈ before.keys → ta'.addr = ta.addr → ta.s = .missing →
      c.verified = true → c.contains ta = true → ValidBy tp₀ h c before .statetable ta'
  | dsMatch (ta' : AutrTa) (rrset : DnskeyRrset) (ds : AnchorRrset) (i : Nat)
      (rr : Int × List UInt8) : (∀ ta ∈ before.keys, ta.addr ≠ ta'.addr) → c.verified = true →
      c.data = some rrset → before.dsRrset = some ds → rrset.rrs[i]? = some rr →
      isKey rr.2 ta' = true → c.env.keyMatchesADs rrset i ds = true →
      ValidBy tp₀ h c before .events ta'
  | trustKsk (ta ta' : AutrTa) : ta ∈ before.keys → ta'.addr = ta.addr → ta.s = .addpend →
      c.verified = true → (∃ zsk ∈ before.keys, isInitZsk zsk = true) →
      (∀ ksk ∈ before.keys, isValidKsk ksk = false) → ValidBy tp₀ h c before .zskToKsk ta'

theorem PendingSince.long {env : AutrEnv} (hp : PendingSince tp₀ h ta) (hone : ∀ c ∈ h, c.NoDoubles)
    (htime : checkHolddown env ta env.addHolddown ≠ 0) (hcount : minPendingcount ≤ ta.pendingCount) :
    LongPending tp₀ h env ta := by
  obtain ⟨h₁, h₂, rfl, hspan, hall, hle⟩ := hp
  have hone₂ : ∀ c ∈ h₂, c.NoDoubles := fun c hc => hone c (mem_append_right h₁ hc)
  rw [sum_counted hone₂] at hle
  exact ⟨h₁, h₂, rfl, hspan, hall, lt_of_checkHolddown htime, hcount.trans hle⟩

theorem RunInv.pending_events (hinv : RunInv tp₀ h tp)
    (hver : primeVerified env tp (some rrset) = true) (hta : ta ∈ (primeEvents env tp rrset).1.keys)
    (hf : ta.fetched = true) (hsep : taIsDnskeySep ta = true) (hs : ta.s = .addpend) :
    PendingSince tp₀ (h ++ [⟨tp, env, some rrset⟩]) ta := by
  obtain ⟨x, hx, hcarries⟩ := primeEvents_carries hta hs
  have hcounted : Call.counted ⟨tp, env, some rrset⟩ ta = sightings env ta (some rrset) :=
    if_pos hver
  rw [← hcounted] at hcarries
  have hp := hinv.pending x hx (hcarries.same.sep ▸ hsep) hcarries.state
  apply hp.extend hcarries ⟨x, hx, rfl, hcarries.state⟩
  intro _
  exact decide_eq_true (primeEvents_fetched hta hf)

/-- A key becomes VALID after its hold-down time, back from MISSING, by a DS, or as a configured
ZSK. -/
theorem key_becomes_valid_by (hd : tp₀.Distinct) (hrun : PrimeRun tp₀ h c.tp)
    (hone : ∀ d ∈ h ++ [c], d.NoDoubles) (hstep : (ph, before, after) ∈ c.steps)
    (hafter : ta' ∈ after.keys) (hvalid : ta'.s = .valid)
    (hbefore : ∀ ta ∈ before.keys, ta.addr = ta'.addr → ta.s ≠ .valid) :
    ValidBy tp₀ h c before ph ta' := by
  have hinv := hrun.inv hd
  obtain ⟨tp, env, data⟩ := c
  have hstep := mem_primeSteps hstep
  rcases hstep.key hafter with ⟨ta, hta, hevent⟩ | ⟨rfl, rrset, hdata, hadded⟩
  case inr =>
    cases hstep with
    | events r hver =>
      rcases hadded.state with hs | ⟨_, ds, i, rr, hds, hrr, hkey, hmatch⟩
      · rw [hs] at hvalid
        cases hvalid
      · have hdistinct : (primeRevoked env tp r).1.Distinct := hinv.distinct.primeRevoked
        have hnew : ∀ ta ∈ (primeRevoked env tp r).1.keys, ta.addr ≠ ta'.addr := fun ta hta =>
          ((hdistinct.fresh ta hta).trans_le hadded.addr).ne
        exact .dsMatch ta' rrset ds i rr hnew hver hdata hds hrr hkey hmatch
  case inl =>
    have haddr := hevent.addr_eq
    rcases hevent.becomes_valid hvalid (hbefore ta hta haddr.symm) with
      ⟨hpend, hsep, htime, hcount, rfl | ⟨rfl, hf⟩⟩ | ⟨hmissing, rfl, hf⟩ | ⟨hpend, rfl⟩
    · cases hstep with
      | holddown =>
        have hp := hinv.pending ta hta hsep hpend
        have hone' : ∀ d ∈ h, d.NoDoubles := fun d hd => hone d (mem_append_left _ hd)
        exact .holddown ta ta' hta haddr hpend (hp.long hone' htime hcount)
    · cases hstep with
      | statetable rrset _ hver =>
        have hp := hinv.pending_events hver hta hf hsep hpend
        have hin := decide_eq_true (primeEvents_fetched hta hf)
        exact .addTime ta ta' hta haddr hpend hver hin (hp.long hone htime hcount)
    · cases hstep with
      | statetable rrset _ hver =>
        have hin := decide_eq_true (primeEvents_fetched hta hf)
        exact .keyPres ta ta' hta haddr hmissing hver hin
    · cases hstep with
      | zskToKsk rrset tp' changed hver =>
        rcases countValid_keys with heq | ⟨hksk, hzsk, _⟩
        · rw [heq] at hafter
          exact absurd hvalid (hbefore ta' hafter rfl)
        · exact .trustKsk ta ta' hta haddr hpend hver hzsk hksk

def rollPoint : TrustPoint :=
  autrAssemble {
    name := []
    keys := [⟨0, [], .dnskey, 1, 3600, [1, 1, 3, 8, 10], 100, .valid, 0, false, false⟩]
    fresh := 1
    dsRrset := none
    dnskeyRrset := none
    numDS := 0
    numDNSKEY := 0
    lastQueried := 0
    lastSuccess := 0
    queryInterval := 3600
    retryTime := 3600
    queryFailed := 0
    revoked := false }

def rollEnv (now : Int) : AutrEnv where
  now := now
  addHolddown := 30 * 24 * 3600
  delHolddown := 30 * 24 * 3600
  keepMissing := 366 * 24 * 3600
  permitSmallHolddown := false
  verifyDnskey := fun _ _ _ => true
  selfsignedRevoked := fun _ _ => true
  algoIsSupported := fun _ _ => true
  sizeIsSupported := fun _ _ => true
  keyMatchesADs := fun _ _ _ => false
  setNextProbe := true

def rollRrset : DnskeyRrset where
  ttl := 3600
  rrs := [(3600, [1, 1, 3, 8, 10]), (3600, [1, 1, 3, 8, 20])]
  rrsigs := []

def rollSeen : Call := ⟨rollPoint, rollEnv 1000, some rollRrset⟩

def rollAgain : Call := ⟨rollSeen.result.getD rollPoint, rollEnv 5000, some rollRrset⟩

def rollTimeout : Call := ⟨rollAgain.result.getD rollPoint, rollEnv 2593001, none⟩

theorem rollPoint_distinct : rollPoint.Distinct where
  nodup := by decide
  fresh := by decide

theorem rollTimeout_run : PrimeRun rollPoint [rollSeen, rollAgain] rollTimeout.tp := by
  have hseen : rollSeen.result = some (rollSeen.result.getD rollPoint) := by decide
  have hagain : rollAgain.result = some (rollAgain.result.getD rollPoint) := by decide
  exact .call (h := [rollSeen]) (.call (h := []) .start hseen) hagain

theorem roll_noDoubles : ∀ d ∈ [rollSeen, rollAgain] ++ [rollTimeout], d.NoDoubles := by
  have hrr : rollRrset.NoDoubles := by decide
  intro d hd rrset hdata
  simp only [cons_append, nil_append, mem_cons, not_mem_nil, or_false] at hd
  rcases hd with rfl | rfl | rfl
  · cases hdata
    exact hrr
  · cases hdata
    exact hrr
  · cases hdata

def rollKey : AutrTa :=
  ⟨1, [], .dnskey, 1, 3600, [1, 1, 3, 8, 20], 2593001, .valid, 0, true, false⟩

theorem key_becomes_valid_by_timeout :
    ValidBy rollPoint [rollSeen, rollAgain] rollTimeout rollTimeout.tp .holddown rollKey := by
  have hstep : (Phase.holddown, rollTimeout.tp, (primeHolddown rollTimeout.env rollTimeout.tp).1) ∈
      rollTimeout.steps := by decide
  exact key_becomes_valid_by rollPoint_distinct rollTimeout_run roll_noDoubles hstep (by decide) rfl
    (by decide)

theorem addpend_becomes_valid_without_probe :
    PrimeRun rollPoint [rollSeen, rollAgain] rollTimeout.tp ∧ rollTimeout.data = none ∧
    rollTimeout.verified = false ∧
    (∃ ta ∈ rollTimeout.tp.keys, ta.addr = rollKey.addr ∧ ta.s = .addpend) ∧
    ∃ tp, rollTimeout.result = some tp ∧ rollKey ∈ tp.keys ∧ rollKey.s = .valid := by
  refine ⟨rollTimeout_run, rfl, rfl, by decide, rollTimeout.result.getD rollPoint, ?_, ?_, rfl⟩
  · decide
  · decide

end Valid

/-- The trust points that a call passes through, phase by phase. -/
def Call.trail (c : Call) : List TrustPoint :=
  c.tp :: (c.steps.map fun s => s.2.2) ++ c.result.toList

def trail (h : List Call) : List TrustPoint := h.flatMap Call.trail

/-- States that a key does not leave for another use of it. -/
def AutrState.Gone (s : AutrState) : Prop := s = .revoked ∨ s = .removed

/-- What can happen to the keys between two trust points of a trail. -/
structure Moves (x y : TrustPoint) : Prop where
  distinct : x.Distinct
  distinct' : y.Distinct
  fresh : x.fresh ≤ y.fresh
  keys : ∀ ta' ∈ y.keys,
    (∃ ta ∈ x.keys, ta'.addr = ta.addr ∧ ta.Same ta' ∧ (ta.s.Gone → ta'.s.Gone)) ∨
    (x.fresh ≤ ta'.addr ∧ ∀ ta ∈ x.keys, (∃ t ∈ y.keys, t.addr = ta.addr) → ¬ ta.Same ta')

section Moves
variable {x y : TrustPoint} {ta ta' : AutrTa}

theorem Moves.of_keys (hd : x.Distinct) (hkeys : y.keys = x.keys) (hfresh : y.fresh = x.fresh) :
    Moves x y where
  distinct := hd
  distinct' := hd.of_addrs (by rw [hkeys]) hfresh
  fresh := hfresh.ge
  keys := by
    intro ta hta
    rw [hkeys] at hta
    exact .inl ⟨ta, hta, rfl, .refl ta, id⟩

theorem Moves.old (h : Moves x y) (hta : ta ∈ x.keys) (hta' : ta' ∈ y.keys)
    (haddr : ta'.addr = ta.addr) : ta.Same ta' ∧ (ta.s.Gone → ta'.s.Gone) := by
  rcases h.keys ta' hta' with ⟨t, ht, htaddr, hsame, hgone⟩ | ⟨hfresh, _⟩
  · rw [h.distinct.eq hta ht (haddr.symm.trans htaddr)]
    exact ⟨hsame, hgone⟩
  · have := h.distinct.fresh ta hta
    omega

theorem Moves.was_there (h : Moves y z) (hta : ta.addr < y.fresh)
    (hz : ∃ t ∈ z.keys, t.addr = ta.addr) : ∃ t ∈ y.keys, t.addr = ta.addr := by
  obtain ⟨w, hw, haddr⟩ := hz
  rcases h.keys w hw with ⟨t, ht, htaddr, _⟩ | ⟨hfresh, _⟩
  · exact ⟨t, ht, htaddr.symm.trans haddr⟩
  · omega

theorem Moves.trans (h : Moves x y) (h' : Moves y z) : Moves x z := by
  constructor
  case distinct => exact h.distinct
  case distinct' => exact h'.distinct'
  case fresh => exact h.fresh.trans h'.fresh
  case keys =>
    have hold : ∀ ta ∈ x.keys, ta.addr < y.fresh := fun ta hta =>
      (h.distinct.fresh ta hta).trans_le h.fresh
    intro ta' hta'
    rcases h'.keys ta' hta' with ⟨t, ht, haddr, hsame, hgone⟩ | ⟨hfresh, hnew⟩
    case inl =>
      rcases h.keys t ht with ⟨ta, hta, haddr', hsame', hgone'⟩ | ⟨hfresh, hnew⟩
      · exact .inl ⟨ta, hta, haddr.trans haddr', hsame'.trans hsame, hgone ∘ hgone'⟩
      · refine .inr ⟨haddr ▸ hfresh, ?_⟩
        intro ta hta hz hta'same
        exact hnew ta hta (h'.was_there (hold ta hta) hz) (hta'same.trans hsame.symm)
    case inr =>
      refine .inr ⟨h.fresh.trans hfresh, ?_⟩
      intro ta hta hz hsame
      obtain ⟨t, ht, haddr⟩ := h'.was_there (hold ta hta) hz
      apply hnew t ht (haddr ▸ hz)
      exact (h.old hta ht haddr).1.symm.trans hsame

instance : IsTrans TrustPoint Moves := ⟨fun _ _ _ => Moves.trans⟩

end Moves

section Trail
variable {tp after : TrustPoint} {c : Call} {h : List Call} {tp₀ : TrustPoint}

theorem PrimeStep.fresh_le (h : PrimeStep env tp data ph before after) :
    before.fresh ≤ after.fresh := by
  by_cases hph : ph = .events
  · subst hph
    cases h with
    | events rrset =>
      rw [primeRevoked_fresh]
      exact primeEvents_fresh
  · exact (h.events_of_ne hph).fresh.ge

theorem PrimeStep.distinct (h : PrimeStep env tp data ph before after) (htp : tp.Distinct)
    (hd : before.Distinct) : after.Distinct := by
  by_cases hph : ph = .events
  · subst hph
    cases h with
    | events => exact htp.primeEvents
  · exact (h.events_of_ne hph).distinct hd

theorem PrimeStep.moves (h : PrimeStep env tp data ph before after) (htp : tp.Distinct)
    (hd : before.Distinct) : Moves before after := by
  constructor
  case distinct => exact hd
  case distinct' => exact h.distinct htp hd
  case fresh => exact h.fresh_le
  case keys =>
    intro ta' hta'
    rcases h.key hta' with ⟨ta, hta, hevent⟩ | ⟨_, rrset, _, hadded⟩
    · refine .inl ⟨ta, hta, hevent.addr_eq, hevent.same, ?_⟩
      rintro (hs | hs)
      · exact hevent.of_revoked hs
      · exact .inr (hevent.of_removed hs)
    · exact .inr ⟨hadded.addr, fun ta hta _ => hadded.new ta hta⟩

/-- Each step starts where the one before it ended. -/
def Linked : TrustPoint → List (Phase × TrustPoint × TrustPoint) → Prop
  | _, [] => True
  | x, s :: steps => s.2.1 = x ∧ Linked s.2.2 steps

theorem primeSteps_linked (env : AutrEnv) (data : Option DnskeyRrset) :
    Linked tp (primeSteps env tp data) := by
  rw [primeSteps.eq_def]
  split
  · trivial
  refine ⟨rfl, ?_⟩
  cases data with
  | none => trivial
  | some rrset =>
    refine ⟨rfl, ?_⟩
    split
    · trivial
    · exact ⟨rfl, rfl, rfl, rfl, rfl, trivial⟩

theorem Linked.chain (htp : tp.Distinct)
    (hsteps : ∀ s ∈ steps, PrimeStep env tp data s.1 s.2.1 s.2.2) (hlinked : Linked x steps)
    (hd : x.Distinct) : List.IsChain Moves (x :: steps.map fun s => s.2.2) := by
  induction steps generalizing x with
  | nil => exact .singleton x
  | cons s steps ih =>
    obtain ⟨rfl, hrest⟩ := hlinked
    have hmoves := (hsteps s mem_cons_self).moves htp hd
    apply List.IsChain.cons_cons hmoves
    exact ih (fun t ht => hsteps t (mem_cons_of_mem s ht)) hrest hmoves.distinct'

theorem PrimeEnd.last (hend : PrimeEnd env tp data tp') :
    ∃ x, (tp :: (primeSteps env tp data).map fun s => s.2.2).getLast? = some x ∧
      tp'.keys = x.keys ∧ tp'.fresh = x.fresh := by
  cases hend with
  | ignored data hrev =>
    refine ⟨tp, ?_, rfl, rfl⟩
    rw [primeSteps.eq_def, if_pos hrev]
    rfl
  | noData hrev =>
    refine ⟨(primeHolddown env tp).1, ?_, rfl, rfl⟩
    rw [primeSteps.eq_def, if_neg (by simp [hrev])]
    rfl
  | unverified rrset n hrev hver =>
    rw [primeSteps.eq_def, if_neg (by simp [hrev])]
    simp [hver]
  | done rrset hver =>
    simp only [primeVerified, Bool.and_eq_true, Bool.not_eq_true'] at hver
    refine ⟨autrCleanupKeys (primeTable env tp rrset).1, ?_, reassemble_keys _, reassemble_fresh _⟩
    rw [primeSteps.eq_def, if_neg (by simp [hver.1])]
    simp only [hver.2, Bool.not_true, Bool.false_eq_true, if_false]
    rfl

theorem Call.trail_pairwise (hd : c.tp.Distinct) : c.trail.Pairwise Moves := by
  have hsteps := (primeSteps_linked c.env c.data).chain hd (fun s hs => mem_primeSteps hs) hd
  rw [← isChain_iff_pairwise, Call.trail, isChain_append]
  refine ⟨hsteps, ?_, ?_⟩
  · cases c.result with
    | none => exact .nil
    | some tp' => exact .singleton tp'
  intro x hx y hy
  cases hres : c.result with
  | none => simp [hres] at hy
  | some tp' =>
    obtain ⟨z, hlast, hkeys, hfresh⟩ := (autrProcessPrime_end hres).last
    obtain rfl : z = x := Option.some.inj (hlast.symm.trans hx)
    obtain rfl : tp' = y := by simpa [hres] using hy
    apply Moves.of_keys _ hkeys hfresh
    rcases mem_cons.1 (mem_of_getLast? hlast) with rfl | hz
    · exact hd
    · exact (hsteps.rel_cons hz).distinct'

theorem Call.moves_of_mem_trail (hd : c.tp.Distinct) (hx : x ∈ c.trail) : Moves c.tp x := by
  rcases mem_cons.1 hx with rfl | hx
  · exact .of_keys hd rfl rfl
  · exact (pairwise_cons.1 (Call.trail_pairwise hd)).1 x hx

theorem Call.moves_to_result (hd : c.tp.Distinct) (hres : c.result = some tp) (hx : x ∈ c.trail) :
    Moves x tp := by
  have hpair := Call.trail_pairwise hd
  rw [Call.trail, hres] at hpair hx
  have hto := fun x hx => (pairwise_append.1 hpair).2.2 x hx tp mem_cons_self
  rcases mem_append.1 hx with hx | hx
  · exact hto x hx
  · rw [mem_singleton.1 hx]
    exact .of_keys (hto c.tp mem_cons_self).distinct' rfl rfl

theorem PrimeRun.trail_pairwise (hd : tp₀.Distinct) (hrun : PrimeRun tp₀ h tp) :
    (trail h).Pairwise Moves ∧ ∀ x ∈ trail h, Moves x tp := by
  induction hrun with
  | start => exact ⟨.nil, fun x hx => by cases hx⟩
  | @call h c tp hrun hres ih =>
    obtain ⟨hpair, hto⟩ := ih
    have hdc := (hrun.inv hd).distinct
    rw [trail, flatMap_append, flatMap_singleton]
    constructor
    · apply pairwise_append.2
      refine ⟨hpair, Call.trail_pairwise hdc, ?_⟩
      intro x hx y hy
      exact (hto x hx).trans (Call.moves_of_mem_trail hdc hy)
    · have hresult := fun x hx => @Call.moves_to_result tp c x hdc hres hx
      refine forall_mem_append.2 ⟨fun x hx => ?_, hresult⟩
      exact (hto x hx).trans (hresult c.tp mem_cons_self)

theorem PrimeRun.moves (hd : tp₀.Distinct) (hrun : PrimeRun tp₀ h c.tp) {i j : Nat} (hij : i ≤ j)
    {x y : TrustPoint} (hx : (trail (h ++ [c]))[i]? = some x)
    (hy : (trail (h ++ [c]))[j]? = some y) : Moves x y := by
  have hdc := (hrun.inv hd).distinct
  obtain ⟨hpair, hto⟩ := hrun.trail_pairwise hd
  have hsplit : trail (h ++ [c]) = trail h ++ c.trail := by
    rw [trail, flatMap_append, flatMap_singleton, trail]
  rw [hsplit] at hx hy
  have hall : (trail h ++ c.trail).Pairwise Moves := by
    apply pairwise_append.2
    refine ⟨hpair, Call.trail_pairwise hdc, ?_⟩
    intro x hx y hy
    exact (hto x hx).trans (Call.moves_of_mem_trail hdc hy)
  rcases Nat.eq_or_lt_of_le hij with rfl | hlt
  · obtain rfl : x = y := Option.some.inj (hx.symm.trans hy)
    have hxd : x.Distinct := by
      rcases mem_append.1 (mem_of_getElem? hx) with hx | hx
      · exact (hto x hx).distinct
      · exact (Call.moves_of_mem_trail hdc hx).distinct'
    exact .of_keys hxd rfl rfl
  · obtain ⟨hi, rfl⟩ := List.getElem?_eq_some_iff.1 hx
    obtain ⟨hj, rfl⟩ := List.getElem?_eq_some_iff.1 hy
    exact List.pairwise_iff_getElem.1 hall i j hi hj hlt

end Trail

section Revoked
variable {tp₀ x y : TrustPoint} {h : List Call} {c : Call} {ta ta' : AutrTa}

theorem mem_packedRrsetHeap (h : packedRrsetHeap list = some rrset) (hrr : rr ∈ rrset.rrs) :
    ∃ ta ∈ list, rr = ((ta.ttl : Int), ta.rdata) := by
  cases list with
  | nil => cases h
  | cons t list =>
    cases h
    obtain ⟨ta, hta, rfl⟩ := mem_map.1 hrr
    exact ⟨ta, hta, rfl⟩

theorem not_mem_assembleIterateDnskey {keys : List AutrTa} (hs : ta.s.Gone) :
    ta ∉ assembleIterateDnskey keys := by
  intro hta
  have hfilter := (mem_filter.1 hta).2
  rcases hs with hs | hs
  · simp [hs] at hfilter
  · simp [hs] at hfilter

theorem not_mem_assembleIterateDs {keys : List AutrTa} (htype : ta.type = .dnskey) :
    ta ∉ assembleIterateDs keys := by
  intro hta
  have hfilter := (mem_filter.1 hta).2
  simp [htype] at hfilter

theorem Moves.no_new_entry (hm : Moves x y) (hta : ta ∈ x.keys) (hta' : ta' ∈ y.keys)
    (haddr : ta'.addr = ta.addr) (hother : other ∈ y.keys)
    (hsame : ta.Same other) : ∃ o ∈ x.keys, o.addr = other.addr ∧ ta.Same o := by
  rcases hm.keys other hother with ⟨o, ho, hoaddr, hosame, _⟩ | ⟨_, hnew⟩
  · exact ⟨o, ho, hoaddr.symm, hsame.trans hosame.symm⟩
  · exact absurd hsame (hnew ta hta ⟨ta', hta', haddr⟩)

/-- A revoked key stays revoked or removed, is in no assembled rrset, and gets no other entry. -/
theorem revoked_key_stays_out (hd : tp₀.Distinct) (hrun : PrimeRun tp₀ h c.tp) {i j : Nat}
    (hij : i ≤ j) (hx : (trail (h ++ [c]))[i]? = some x) (hy : (trail (h ++ [c]))[j]? = some y)
    (hta : ta ∈ x.keys) (hs : ta.s = .revoked) (hta' : ta' ∈ y.keys) (haddr : ta'.addr = ta.addr) :
    (ta'.s = .revoked ∨ ta'.s = .removed) ∧
    (ta.type = .dnskey →
      ta' ∉ assembleIterateDs y.keys ∧ ta' ∉ assembleIterateDnskey y.keys ∧
      (∀ other ∈ y.keys, ta.Same other → ∃ o ∈ x.keys, o.addr = other.addr ∧ ta.Same o) ∧
      ((∀ o ∈ x.keys, ta.Same o → o = ta) →
        ∀ rrset, (autrAssemble y).dnskeyRrset = some rrset →
          ∀ rr ∈ rrset.rrs, setRevbit rr.2 ≠ setRevbit ta.rdata)) := by
  have hm := hrun.moves hd hij hx hy
  obtain ⟨hsame, hgone⟩ := hm.old hta hta' haddr
  have hgone' := hgone (.inl hs)
  refine ⟨hgone', fun htype => ⟨?_, ?_, ?_, ?_⟩⟩
  · exact not_mem_assembleIterateDs (hsame.1.trans htype)
  · exact not_mem_assembleIterateDnskey hgone'
  · intro other hother hsame'
    exact hm.no_new_entry hta hta' haddr hother hsame'
  intro honly rrset hrrset rr hrr heq
  obtain ⟨other, hother, rfl⟩ := mem_packedRrsetHeap hrrset hrr
  obtain ⟨hmem, hfilter⟩ := mem_filter.1 hother
  have htype' : other.type = .dnskey := by
    cases hot : other.type with
    | dnskey => rfl
    | ds => simp [hot] at hfilter
  have hsame' : ta.Same other := ⟨htype'.trans htype.symm, heq⟩
  obtain ⟨o, ho, hoaddr, hosame⟩ := hm.no_new_entry hta hta' haddr hmem hsame'
  rw [honly o ho hosame] at hoaddr
  have hentry := hm.distinct'.eq hmem hta' (hoaddr.symm.trans haddr.symm)
  rw [hentry] at hother
  exact not_mem_assembleIterateDnskey hgone' hother

def revokePoint : TrustPoint :=
  autrAssemble { rollPoint with
    keys := [⟨0, [], .dnskey, 1, 3600, [1, 1, 3, 8, 10], 100, .valid, 0, false, false⟩,
      ⟨1, [], .dnskey, 1, 3600, [1, 1, 3, 8, 20], 100, .valid, 0, false, false⟩]
    fresh := 2 }

def revokeCall : Call :=
  ⟨revokePoint, rollEnv 1000, some ⟨3600, [(3600, [1, 1, 3, 8, 10]), (3600, [1, 129, 3, 8, 20])], []⟩⟩

def clearedCall : Call := ⟨revokeCall.result.getD revokePoint, rollEnv 5000, some rollRrset⟩

def revokedKey (lastChange : Int) (fetched : Bool) : AutrTa :=
  ⟨1, [], .dnskey, 1, 3600, [1, 129, 3, 8, 20], lastChange, .revoked, 0, fetched, true⟩

theorem revokePoint_distinct : revokePoint.Distinct where
  nodup := by decide
  fresh := by decide

theorem clearedCall_run : PrimeRun revokePoint [revokeCall] clearedCall.tp := by
  have hres : revokeCall.result = some clearedCall.tp := by decide
  exact .call (h := []) .start hres

theorem revoked_key_stays_out_cleared :
    revokedKey 5000 true ∉ assembleIterateDs (clearedCall.result.getD revokePoint).keys ∧
    revokedKey 5000 true ∉ assembleIterateDnskey (clearedCall.result.getD revokePoint).keys := by
  have hx : (trail ([revokeCall] ++ [clearedCall]))[8]? = some clearedCall.tp := by decide
  have hy : (trail ([revokeCall] ++ [clearedCall]))[17]? =
      some (clearedCall.result.getD revokePoint) := by decide
  have hta : revokedKey 1000 false ∈ clearedCall.tp.keys := by decide
  have hta' : revokedKey 5000 true ∈ (clearedCall.result.getD revokePoint).keys := by decide
  have hout := (revoked_key_stays_out revokePoint_distinct clearedCall_run (by decide) hx hy hta rfl
    hta' rfl).2 rfl
  exact ⟨hout.1, hout.2.1⟩

end Revoked

end CwdGate.Validator
