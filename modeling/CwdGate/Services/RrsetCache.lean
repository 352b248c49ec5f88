import CwdGate.Packet.RrType
import CwdGate.Validator.Nsec3

/-! The RRset cache as `rrset_cache_update` sees it: which of two RRsets for a key survives. -/
namespace CwdGate.RrsetCache
open Validator (SecStatus)

/-- `enum rrset_trust`; a later value is more trust. -/
inductive RrsetTrust
  | none | addNoAA | authNoAA | addAA | nonauthAnsAA | ansNoAA | glue | authAA | ansAA
  | secNoglue | primNoglue | validated | ultimate
  deriving DecidableEq, Repr

instance : LT RrsetTrust := ⟨fun a b => a.ctorIdx < b.ctorIdx⟩

instance (a b : RrsetTrust) : Decidable (a < b) := inferInstanceAs (Decidable (_ < _))

/-- One entry of `rr_ttl`, `rr_len` and `rr_data`. -/
structure PackedRr where
  ttl : Int
  data : List UInt8
  deriving DecidableEq, Repr

/-- `packed_rrset_data`: `count` records and `rrsig_count` signatures. -/
structure PackedRrsetData where
  ttl : Int
  rrs : List PackedRr
  rrsigs : List PackedRr
  trust : RrsetTrust
  security : SecStatus
  deriving DecidableEq, Repr

def rrsetdataEqual (d1 d2 : PackedRrsetData) : Bool :=
  d1.rrs.map (·.data) = d2.rrs.map (·.data) ∧ d1.rrsigs.map (·.data) = d2.rrsigs.map (·.data)

def PackedRr.clip (ttl : Int) (rr : PackedRr) : PackedRr :=
  { rr with ttl := if rr.ttl > ttl then ttl else rr.ttl }

/-- The new data of a changed NS RRset, with the old expiry time. -/
def PackedRrsetData.stickTo (newd : PackedRrsetData) (ttl : Int) : PackedRrsetData :=
  { newd with ttl := ttl, rrs := newd.rrs.map (·.clip ttl), rrsigs := newd.rrsigs.map (·.clip ttl) }

/-- `need_to_update_rrset`: the new data as it is to be stored, or `none` to keep what is cached. -/
def needToUpdateRrset (newd cached : PackedRrsetData) (timenow : Int) (equal ns : Bool) :
    Option PackedRrsetData :=
  if newd.ttl < timenow ∧ cached.ttl ≥ timenow then none
  else if newd.security = .secure ∧ cached.security ≠ .secure then some newd
  else if cached.security = .bogus ∧ newd.security ≠ .bogus ∧ ¬ equal then some newd
  else if cached.trust < newd.trust then
    if equal ∧ cached.ttl ≥ timenow ∧ cached.security = .bogus then none else some newd
  else if cached.ttl < timenow then some newd
  else if newd.trust = cached.trust ∧ ¬ equal then
    if ns then some (newd.stickTo cached.ttl) else some newd
  else none

/-- `rrset_cache_update` on what the table has for the key: its return code and what it leaves. -/
def rrsetCacheUpdate (rrsetType : UInt16) (entry : Option PackedRrsetData)
    (newd : PackedRrsetData) (timenow : Int) : Nat × Option PackedRrsetData :=
  match entry with
  | none => (0, some newd)
  | some cached =>
    let equal := rrsetdataEqual newd cached
    match needToUpdateRrset newd cached timenow equal (rrsetType = RrType.ns) with
    | none => (if equal then 2 else 1, some cached)
    | some d => (1, some d)

structure UpdateCall where
  newd : PackedRrsetData
  timenow : Int

def UpdateCall.on (entry : Option PackedRrsetData) (c : UpdateCall) : Option PackedRrsetData :=
  (rrsetCacheUpdate RrType.ns entry c.newd c.timenow).2

def runUpdates (entry : Option PackedRrsetData) (calls : List UpdateCall) :
    Option PackedRrsetData :=
  calls.foldl UpdateCall.on entry

def PackedRrsetData.Plain (d : PackedRrsetData) : Prop :=
  d.security ≠ .secure ∧ d.security ≠ .bogus

/-- Every record expires with the RRset or before it. -/
def PackedRrsetData.TtlsFit (d : PackedRrsetData) : Prop :=
  ∀ rr ∈ d.rrs ++ d.rrsigs, rr.ttl ≤ d.ttl

/-- A call at a time when what is cached has not expired, with plain data on both sides. -/
structure UpdateCall.Live (entry : Option PackedRrsetData) (c : UpdateCall) : Prop where
  new : c.newd.Plain
  cached : ∀ d ∈ entry, d.Plain ∧ c.timenow ≤ d.ttl

def LiveCalls : Option PackedRrsetData → List UpdateCall → Prop
  | _, [] => True
  | entry, c :: calls => c.Live entry ∧ LiveCalls (c.on entry) calls

instance (d : PackedRrsetData) : Decidable d.Plain := inferInstanceAs (Decidable (_ ∧ _))

instance (d : PackedRrsetData) : Decidable d.TtlsFit := inferInstanceAs (Decidable (∀ _ ∈ _, _))

theorem PackedRrsetData.stickTo_ttlsFit (d : PackedRrsetData) (ttl : Int) :
    (d.stickTo ttl).TtlsFit := by
  intro rr hrr
  simp only [stickTo, ← List.map_append, List.mem_map] at hrr
  obtain ⟨old, _, rfl⟩ := hrr
  simp only [PackedRr.clip, stickTo]
  split <;> omega

inductive UpdateCall.Effect (c : UpdateCall) (d : PackedRrsetData) :
    Option PackedRrsetData → Prop
  | kept : c.Effect d (some d)
  | replaced : d.trust < c.newd.trust → c.Effect d (some c.newd)
  | stuck : c.newd.trust = d.trust → rrsetdataEqual c.newd d = false →
      c.Effect d (some (c.newd.stickTo d.ttl))

theorem UpdateCall.Live.effect {c : UpdateCall} {d : PackedRrsetData} (h : c.Live (some d)) :
    c.Effect d (c.on (some d)) := by
  obtain ⟨⟨hsec, _⟩, hcached⟩ := h
  obtain ⟨⟨_, hbogus⟩, htime⟩ := hcached d rfl
  have hexpired : ¬ d.ttl < c.timenow := by omega
  simp only [on, rrsetCacheUpdate, needToUpdateRrset, hsec, hbogus, hexpired, false_and, and_false,
    if_false, decide_true, if_true]
  by_cases hold : c.newd.ttl < c.timenow ∧ d.ttl ≥ c.timenow
  · rw [if_pos hold]
    exact .kept
  rw [if_neg hold]
  by_cases htrust : d.trust < c.newd.trust
  · rw [if_pos htrust]
    exact .replaced htrust
  rw [if_neg htrust]
  by_cases hdiff : c.newd.trust = d.trust ∧ ¬ rrsetdataEqual c.newd d = true
  · rw [if_pos hdiff]
    exact .stuck hdiff.1 (eq_false_of_ne_true hdiff.2)
  · rw [if_neg hdiff]
    exact .kept

theorem UpdateCall.Effect.expiry {c : UpdateCall} {d : PackedRrsetData}
    {entry : Option PackedRrsetData} (h : c.Effect d entry) (hle : ¬ d.trust < c.newd.trust) :
    ∃ d', entry = some d' ∧ d'.ttl = d.ttl ∧ d'.trust = d.trust := by
  cases h with
  | kept => exact ⟨d, rfl, rfl, rfl⟩
  | replaced hlt => exact absurd hlt hle
  | stuck heq _ => exact ⟨_, rfl, rfl, heq⟩

theorem UpdateCall.Live.ttlsFit {c : UpdateCall} {entry : Option PackedRrsetData} (h : c.Live entry)
    (hold : ∀ d ∈ entry, d.TtlsFit) (hnew : c.newd.TtlsFit) : ∀ d ∈ c.on entry, d.TtlsFit := by
  cases entry with
  | none => exact fun d hd => Option.some.inj hd ▸ hnew
  | some cached =>
    generalize he : c.on (some cached) = entry' at *
    cases he ▸ h.effect with
    | kept => exact hold
    | replaced => exact fun d hd => Option.some.inj hd ▸ hnew
    | stuck => exact fun d hd => Option.some.inj hd ▸ PackedRrsetData.stickTo_ttlsFit _ _

theorem LiveCalls.append {entry : Option PackedRrsetData} {calls rest : List UpdateCall}
    (h : LiveCalls entry (calls ++ rest)) :
    LiveCalls entry calls ∧ LiveCalls (runUpdates entry calls) rest := by
  induction calls generalizing entry with
  | nil => exact ⟨trivial, h⟩
  | cons c calls ih => exact ⟨⟨h.1, (ih h.2).1⟩, (ih h.2).2⟩

theorem LiveCalls.ttlsFit {entry : Option PackedRrsetData} {calls : List UpdateCall}
    (h : LiveCalls entry calls) (hold : ∀ d ∈ entry, d.TtlsFit)
    (hnew : ∀ c ∈ calls, c.newd.TtlsFit) : ∀ d ∈ runUpdates entry calls, d.TtlsFit := by
  induction calls generalizing entry with
  | nil => exact hold
  | cons c calls ih =>
    rw [List.forall_mem_cons] at hnew
    exact ih h.2 (h.1.ttlsFit hold hnew.1) hnew.2

theorem LiveCalls.expiry {d : PackedRrsetData} {calls : List UpdateCall}
    (h : LiveCalls (some d) calls) (hle : ∀ c ∈ calls, ¬ d.trust < c.newd.trust) :
    ∃ d', runUpdates (some d) calls = some d' ∧ d'.ttl = d.ttl := by
  induction calls generalizing d with
  | nil => exact ⟨d, rfl, rfl⟩
  | cons c calls ih =>
    rw [List.forall_mem_cons] at hle
    obtain ⟨d', hd', httl, htrust⟩ := h.1.effect.expiry hle.1
    have hrest : LiveCalls (some d') calls := hd' ▸ h.2
    obtain ⟨d'', hrun, httl'⟩ := ih hrest (by rw [htrust]; exact hle.2)
    exact ⟨d'', by rw [← hrun, ← hd']; rfl, httl'.trans httl⟩

/-- For an NS key the expiry moves only with a more trusted RRset; data of no more trust changes
nothing. -/
theorem runUpdates_expiry (entry : Option PackedRrsetData) (calls : List UpdateCall)
    (c : UpdateCall) (h : LiveCalls entry (calls ++ [c])) :
    (∀ d d', runUpdates entry calls = some d → runUpdates entry (calls ++ [c]) = some d' →
      d.ttl < d'.ttl → d.trust < c.newd.trust ∧ d' = c.newd) ∧
    ((∀ d ∈ entry, d.TtlsFit) → (∀ x ∈ calls ++ [c], x.newd.TtlsFit) →
      ∀ d ∈ runUpdates entry (calls ++ [c]), d.TtlsFit) ∧
    (∀ d, runUpdates entry calls = some d →
      c.newd.trust < d.trust ∨ rrsetdataEqual c.newd d ∧ ¬ d.trust < c.newd.trust →
      runUpdates entry (calls ++ [c]) = some d) ∧
    (∀ d, entry = some d → (∀ x ∈ calls ++ [c], ¬ d.trust < x.newd.trust) →
      ∃ d', runUpdates entry (calls ++ [c]) = some d' ∧ d'.ttl = d.ttl) := by
  have hlast := h.append.2.1
  have hrun : runUpdates entry (calls ++ [c]) = c.on (runUpdates entry calls) := by
    simp [runUpdates]
  refine ⟨?_, h.ttlsFit, ?_, ?_⟩
  · intro d d' hd hd' hlt
    rw [hrun, hd] at hd'
    rw [hd] at hlast
    generalize c.on (some d) = e, hlast.effect = heff at hd'
    cases heff with
    | kept => exact absurd (Option.some.inj hd' ▸ hlt) (Int.lt_irrefl _)
    | replaced htrust => exact ⟨htrust, (Option.some.inj hd').symm⟩
    | stuck => exact absurd (Option.some.inj hd' ▸ hlt) (Int.lt_irrefl _)
  · intro d hd hnot
    rw [hrun, hd]
    rw [hd] at hlast
    generalize c.on (some d) = e, hlast.effect = heff
    cases heff with
    | kept => rfl
    | replaced htrust =>
      rcases hnot with hlt | ⟨_, hle⟩
      · exact absurd htrust (Nat.lt_asymm hlt)
      · exact absurd htrust hle
    | stuck htrust hdiff =>
      rcases hnot with hlt | ⟨heq, _⟩
      · exact absurd (htrust ▸ hlt) (Nat.lt_irrefl _)
      · exact absurd (hdiff.symm.trans heq) Bool.false_ne_true
  · rintro d rfl hle
    exact h.expiry hle

private def nsData (ttl : Int) (trust : RrsetTrust) (data : List UInt8) : PackedRrsetData :=
  ⟨ttl, [⟨ttl, data⟩], [], trust, .unchecked⟩

theorem runUpdates_expiry_child_varies :
    ∃ d, runUpdates (some (nsData 300 .authAA [1])) [⟨nsData 900 .authAA [2], 10⟩] = some d ∧
      d.ttl = 300 :=
  have h : LiveCalls (some (nsData 300 .authAA [1])) ([] ++ [⟨nsData 900 .authAA [2], 10⟩]) :=
    ⟨⟨by decide, by decide⟩, trivial⟩
  (runUpdates_expiry _ [] _ h).2.2.2 _ rfl (by decide)

theorem runUpdates_equal_more_trusted :
    LiveCalls (some (nsData 300 .authNoAA [1])) [⟨nsData 900 .authAA [1], 10⟩] ∧
      rrsetdataEqual (nsData 900 .authAA [1]) (nsData 300 .authNoAA [1]) ∧
      runUpdates (some (nsData 300 .authNoAA [1])) [⟨nsData 900 .authAA [1], 10⟩] ≠
        some (nsData 300 .authNoAA [1]) :=
  ⟨⟨⟨by decide, by decide⟩, trivial⟩, by decide, by decide⟩

end CwdGate.RrsetCache
