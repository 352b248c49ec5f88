import CwdGate.Validator.Sigcrypt

namespace CwdGate.ValUtils
open Sigcrypt Validator List

def maxDsMatchFailures : Nat := 4

/-- What the crypto library knows, the key sizes it takes, its check of a DS, and
`dnskey_verify_rrset` with the reason. -/
structure DsEnv where
  dnskeyAlgoIdIsSupported : Nat → Bool
  dsDigestIsSupported : Nat → Bool
  dnskeySizeIsSupported : Nat → Bool
  dsDigestMatchDnskey : Nat → Nat → Bool
  dnskeyVerifyRrset : Nat → SecStatus
  reason : Nat → Option String → Option String

def dsGetKeyAlgo (ds : Rrset) (idx : Nat) : Nat :=
  if (ds.rrData idx).length < 2 + 3 then 0 else octetAt (ds.rrData idx) 4

def dsGetDigestAlgo (ds : Rrset) (idx : Nat) : Nat :=
  if (ds.rrData idx).length < 2 + 4 then 0 else octetAt (ds.rrData idx) 5

def dsGetKeytag (ds : Rrset) (idx : Nat) : Nat :=
  if (ds.rrData idx).length < 2 + 2 then 0
  else octetAt (ds.rrData idx) 2 * 256 + octetAt (ds.rrData idx) 3

/-- `ds_digest_algo_is_supported` and `ds_key_algo_is_supported`. -/
def dsIsSupported (env : DsEnv) (ds : Rrset) (idx : Nat) : Bool :=
  env.dsDigestIsSupported (dsGetDigestAlgo ds idx) &&
    env.dnskeyAlgoIdIsSupported (dsGetKeyAlgo ds idx)

/-- The result of `verify_dnskeys_with_ds_rr`, with `nonechecked` and the reason. -/
structure DsResult where
  sec : SecStatus
  nonechecked : Bool
  reason : Option String

/-- The key has the algorithm and the key tag of the DS. -/
def dsTags (dnskey ds : Rrset) (dsIdx i : Nat) : Bool :=
  dsGetKeyAlgo ds dsIdx = dnskeyGetAlgo dnskey i ∧ dnskeyCalcKeytag dnskey i = dsGetKeytag ds dsIdx

def dsKeys (dnskey ds : Rrset) (dsIdx : Nat) : List Nat :=
  (range dnskey.rrs.length).filter (dsTags dnskey ds dsIdx)

def dsKeysLoop (env : DsEnv) (ds : Rrset) (dsIdx : Nat) :
    List Nat → (numchecked numhashok numsizesupp : Nat) → SecStatus → Option String → DsResult
  | [], numchecked, numhashok, numsizesupp, sec, reason =>
    if numsizesupp ≠ 0 ∨ sec = .indeterminate then ⟨.insecure, false, reason⟩
    else if numchecked = 0 then
      ⟨.bogus, true, some (algoNeedsReason (dsGetKeyAlgo ds dsIdx) "no keys have a DS")⟩
    else if numhashok = 0 then ⟨.bogus, false, some "DS hash mismatches key"⟩
    else ⟨.bogus, false, some (reason.getD "keyset not secured by DNSKEY that matches DS")⟩
  | i :: keys, numchecked, numhashok, numsizesupp, sec, reason =>
    if ¬ env.dsDigestMatchDnskey dsIdx i then
      if numchecked + 1 > numhashok + maxDsMatchFailures then ⟨.bogus, false, reason⟩
      else dsKeysLoop env ds dsIdx keys (numchecked + 1) numhashok numsizesupp sec reason
    else if ¬ env.dnskeySizeIsSupported i then
      dsKeysLoop env ds dsIdx keys (numchecked + 1) (numhashok + 1) (numsizesupp + 1) sec reason
    else if env.dnskeyVerifyRrset i = .secure then ⟨.secure, false, env.reason i reason⟩
    else
      dsKeysLoop env ds dsIdx keys (numchecked + 1) (numhashok + 1) numsizesupp
        (env.dnskeyVerifyRrset i) (env.reason i reason)

def verifyDnskeysWithDsRr (env : DsEnv) (dnskey ds : Rrset) (dsIdx : Nat)
    (reason : Option String) : DsResult :=
  dsKeysLoop env ds dsIdx (dsKeys dnskey ds dsIdx) 0 0 0 .bogus reason

def valFavoriteDsAlgo (env : DsEnv) (ds : Rrset) : Nat :=
  (((range ds.rrs.length).filter (dsIsSupported env ds)).map (dsGetDigestAlgo ds)).max?.getD 0

/-- `algo_needs_init_ds`: every algorithm once. -/
def algoNeedsInitDs (env : DsEnv) (ds : Rrset) (favDsAlgo : Nat) : AlgoNeeds :=
  let sigalg := (((range ds.rrs.length).filter fun i => dsGetDigestAlgo ds i = favDsAlgo ∧
    env.dnskeyAlgoIdIsSupported (dsGetKeyAlgo ds i)).map fun i =>
      (dsGetKeyAlgo ds i).toUInt8).eraseDups
  ⟨fun a => if a ∈ sigalg then .missing else .no, sigalg.length⟩

def dnskeysetSizeIsSupported (env : DsEnv) (dnskey : Rrset) : Bool :=
  (range dnskey.rrs.length).all env.dnskeySizeIsSupported

/-- The flags of `val_verify_DNSKEY_with_DS`, with `needs` if there is a `sigalg`. -/
structure DsFlags where
  needs : Option AlgoNeeds
  hasUsefulDs : Bool
  hasAlgoRefusal : Bool
  hasCheckedDs : Bool

/-- The DSs that are understood, and of the strongest digest if there is a `sigalg`. -/
def dsUsable (env : DsEnv) (ds : Rrset) (sigalg : Bool) : List Nat :=
  (range ds.rrs.length).filter fun i => dsIsSupported env ds i ∧
    (sigalg → dsGetDigestAlgo ds i = valFavoriteDsAlgo env ds)

def dsLoop (env : DsEnv) (dnskey ds : Rrset) :
    List Nat → DsFlags → Option String → SecStatus × Option String
  | [], f, reason =>
    if f.hasAlgoRefusal ∧ ¬ f.hasCheckedDs then (.insecure, reason)
    else if ¬ f.hasUsefulDs then (.insecure, reason)
    else
      match f.needs.map algoNeedsMissing with
      | none | some 0 => (.bogus, reason)
      | some alg =>
        (.bogus, some (algoNeedsReason alg "missing verification of DNSKEY signature"))
  | i :: rest, f, reason =>
    let r := verifyDnskeysWithDsRr env dnskey ds i reason
    if r.sec = .insecure then
      dsLoop env dnskey ds rest { f with hasAlgoRefusal := true } r.reason
    else
      let f := { f with hasUsefulDs := true, hasCheckedDs := f.hasCheckedDs || !r.nonechecked }
      let algo := (dsGetKeyAlgo ds i).toUInt8
      if r.sec = .secure then
        -- done without a list of algorithms, or with its last one
        if (f.needs.map fun n => (algoNeedsSetSecure n algo).1).getD true then
          (if dnskeysetSizeIsSupported env dnskey then .secure else .insecure, r.reason)
        else
          dsLoop env dnskey ds rest
            { f with needs := f.needs.map fun n => (algoNeedsSetSecure n algo).2 } r.reason
      else
        dsLoop env dnskey ds rest
          { f with needs := if r.sec = .bogus then f.needs.map fun n => algoNeedsSetBogus n algo
              else f.needs } r.reason

/-- `val_verify_DNSKEY_with_DS`; `sigalg` is that the pointer is not NULL. -/
def valVerifyDnskeyWithDs (env : DsEnv) (dnskey ds : Rrset) (sigalg : Bool)
    (reason : Option String) : SecStatus × Option String :=
  if wireLen dnskey.dname ≠ wireLen ds.dname ∨ queryDnameCompare dnskey.dname ds.dname ≠ .eq then
    (.bogus, some "DNSKEY RRset did not match DS RRset by name")
  else
    dsLoop env dnskey ds (dsUsable env ds sigalg)
      ⟨if sigalg then some (algoNeedsInitDs env ds (valFavoriteDsAlgo env ds)) else none, false,
        false, false⟩ reason

section spec
variable (env : DsEnv) (dnskey ds : Rrset)

/-- A supported DS, of the highest supported digest type if there is a `sigalg`. -/
def DsCounts (sigalg : Bool) (j : Nat) : Prop :=
  j < ds.rrs.length ∧ dsIsSupported env ds j = true ∧ (sigalg = true →
    ∀ k < ds.rrs.length, dsIsSupported env ds k = true → dsGetDigestAlgo ds k ≤ dsGetDigestAlgo ds j)

def DsKey (j i : Nat) : Prop := i < dnskey.rrs.length ∧ dsTags dnskey ds j i = true

/-- The DS matches a key that signs the DNSKEY RRset. -/
def DsSigned (j : Nat) : Prop :=
  ∃ i, DsKey dnskey ds j i ∧ env.dsDigestMatchDnskey j i = true ∧ env.dnskeyVerifyRrset i = .secure

/-- The DS matches a key that is not supported. -/
def DsRefused (j : Nat) : Prop :=
  ∃ i, DsKey dnskey ds j i ∧ env.dsDigestMatchDnskey j i = true ∧
    (env.dnskeySizeIsSupported i = false ∨ env.dnskeyVerifyRrset i = .indeterminate)

def DsSecures (sigalg : Bool) : Prop :=
  (∃ j, DsCounts env ds sigalg j ∧ DsSigned env dnskey ds j) ∧
  (sigalg = true → ∀ j, DsCounts env ds sigalg j → ∃ k, DsCounts env ds sigalg k ∧
    dsGetKeyAlgo ds k = dsGetKeyAlgo ds j ∧ DsSigned env dnskey ds k)

/-- What the result says when the DSs of `js` are still to come. -/
structure DsSound (sigalg : Bool) (js : List Nat) (checked : Bool) (sec : SecStatus) : Prop where
  secure : sec = .secure → DsSecures env dnskey ds sigalg
  insecure : sec = .insecure →
    DsSecures env dnskey ds sigalg ∧ dnskeysetSizeIsSupported env dnskey = false ∨
    checked = false ∧ ∀ j ∈ js, DsRefused env dnskey ds j ∨ ∀ i, ¬ DsKey dnskey ds j i

end spec

section keys
variable {env : DsEnv} {dnskey ds : Rrset} {j : Nat}

theorem mem_dsKeys : i ∈ dsKeys dnskey ds j ↔ DsKey dnskey ds j i := by
  rw [dsKeys, mem_filter, mem_range, DsKey]

theorem dsKeysLoop_spec {keys : List Nat} (hkeys : ∀ i ∈ keys, DsKey dnskey ds j i) (a b c : Nat)
    (sec : SecStatus) (reason : Option String) : let r := dsKeysLoop env ds j keys a b c sec reason
    (r.sec = .secure → DsSigned env dnskey ds j) ∧
    (r.sec = .insecure → c ≠ 0 ∨ sec = .indeterminate ∨ DsRefused env dnskey ds j) ∧
    (r.nonechecked = true → a = 0 ∧ keys = []) := by
  induction keys generalizing a b c sec reason with
  | nil =>
    rw [dsKeysLoop]
    by_cases hins : c ≠ 0 ∨ sec = .indeterminate
    · rw [if_pos hins]
      exact ⟨nofun, fun _ => hins.imp_right .inl, nofun⟩
    · rw [if_neg hins]
      split
      next h0 => exact ⟨nofun, nofun, fun _ => ⟨h0, rfl⟩⟩
      next => split <;> exact ⟨nofun, nofun, nofun⟩
  | cons i keys ih =>
    have ih := ih (forall_mem_cons.1 hkeys).2
    have hkey := hkeys i mem_cons_self
    rw [dsKeysLoop]
    by_cases hdig : env.dsDigestMatchDnskey j i = true
    · rw [if_neg (not_not_intro hdig)]
      by_cases hsize : env.dnskeySizeIsSupported i = true
      · rw [if_neg (not_not_intro hsize)]
        split
        next hsec => exact ⟨fun _ => ⟨i, hkey, hdig, hsec⟩, nofun, nofun⟩
        next =>
          obtain ⟨hs, hi, hn⟩ := ih (a + 1) (b + 1) c (env.dnskeyVerifyRrset i)
            (env.reason i reason)
          refine ⟨hs, fun h => (hi h).imp_right fun h => .inr ?_, fun h => nomatch (hn h).1⟩
          rcases h with h | h
          · exact ⟨i, hkey, hdig, .inr h⟩
          · exact h
      · rw [if_pos hsize]
        obtain ⟨hs, -, hn⟩ := ih (a + 1) (b + 1) (c + 1) sec reason
        exact ⟨hs, fun _ => .inr (.inr ⟨i, hkey, hdig, .inl (by simpa using hsize)⟩),
          fun h => nomatch (hn h).1⟩
    · rw [if_pos hdig]
      split
      · exact ⟨nofun, nofun, nofun⟩
      · obtain ⟨hs, hi, hn⟩ := ih (a + 1) b c sec reason
        exact ⟨hs, hi, fun h => nomatch (hn h).1⟩

theorem verifyDnskeysWithDsRr_spec (reason : Option String) :
    let r := verifyDnskeysWithDsRr env dnskey ds j reason
    (r.sec = .secure → DsSigned env dnskey ds j) ∧
    (r.sec = .insecure → DsRefused env dnskey ds j) ∧
    (r.nonechecked = true → ∀ i, ¬ DsKey dnskey ds j i) := by
  obtain ⟨hs, hi, hn⟩ := @dsKeysLoop_spec env dnskey ds j _ (fun i => mem_dsKeys.1) 0 0 0 .bogus reason
  refine ⟨hs, fun h => ?_, fun h i hkey => ?_⟩
  · rcases hi h with h | h | h
    · exact absurd rfl h
    · cases h
    · exact h
  · have hmem := mem_dsKeys.2 hkey
    rw [(hn h).2] at hmem
    cases hmem

end keys

theorem mem_dsUsable : j ∈ dsUsable env ds sigalg ↔ DsCounts env ds sigalg j := by
  rw [dsUsable, mem_filter, mem_range, decide_eq_true_eq]
  refine and_congr_right fun hj => and_congr_right fun hs => imp_congr_right fun _ => ?_
  have hmem : ∀ d, d ∈ ((range ds.rrs.length).filter (dsIsSupported env ds)).map
      (dsGetDigestAlgo ds) ↔ ∃ k < ds.rrs.length, dsIsSupported env ds k ∧ dsGetDigestAlgo ds k = d := by
    simp [and_assoc]
  rw [valFavoriteDsAlgo]
  cases hmax : (((range ds.rrs.length).filter (dsIsSupported env ds)).map
      (dsGetDigestAlgo ds)).max? with
  | none =>
    rw [max?_eq_none_iff] at hmax
    have := (hmem _).2 ⟨j, hj, hs, rfl⟩
    rw [hmax] at this
    cases this
  | some d =>
    obtain ⟨hd, hle⟩ := max?_eq_some_iff.1 hmax
    obtain ⟨m, hm, hms, rfl⟩ := (hmem d).1 hd
    constructor
    · intro h k hk hks
      rw [h]
      exact hle _ ((hmem _).2 ⟨k, hk, hks, rfl⟩)
    · exact fun h => Nat.le_antisymm (hle _ ((hmem _).2 ⟨j, hj, hs, rfl⟩)) (h m hm hms)

theorem algoNeedsInitDs_counted : (algoNeedsInitDs env ds fav).Counted :=
  ⟨_, le_rfl, fun _ ha => by_contra fun hno => ha (if_neg hno)⟩

theorem algoNeedsInitDs_needs (h : j ∈ dsUsable env ds true) :
    (algoNeedsInitDs env ds (valFavoriteDsAlgo env ds)).needs (dsGetKeyAlgo ds j).toUInt8 ≠ .no := by
  rw [dsUsable, mem_filter, decide_eq_true_eq] at h
  have hkeep := And.intro (h.2.2 rfl) (Bool.and_eq_true_iff.1 h.2.1).2
  rw [algoNeedsInitDs]
  dsimp only
  rw [if_pos (mem_eraseDups.2 (mem_map.2 ⟨j, mem_filter.2 ⟨h.1, decide_eq_true hkeep⟩, rfl⟩))]
  nofun

theorem dsGetKeyAlgo_lt : dsGetKeyAlgo ds idx < 256 := by
  rw [dsGetKeyAlgo]
  split
  · decide
  · exact UInt8.toNat_lt _

/-- The table belongs to the DSs that count, and to those found signed so far. -/
def DsNeedsOk (env : DsEnv) (dnskey ds : Rrset) (sigalg : Bool) : Option AlgoNeeds → Prop
  | none => sigalg = false
  | some n => sigalg = true ∧ n.Counted ∧ ∀ j, DsCounts env ds true j →
    n.needs (dsGetKeyAlgo ds j).toUInt8 = .no → ∃ k, DsCounts env ds true k ∧
      dsGetKeyAlgo ds k = dsGetKeyAlgo ds j ∧ DsSigned env dnskey ds k

section loop
variable {env : DsEnv} {dnskey ds : Rrset} {sigalg : Bool} {needs : Option AlgoNeeds}

theorem DsNeedsOk.setBogus (h : DsNeedsOk env dnskey ds sigalg needs) (algo : UInt8) :
    DsNeedsOk env dnskey ds sigalg (needs.map fun n => algoNeedsSetBogus n algo) := by
  cases needs with
  | none => exact h
  | some n => exact ⟨h.1, h.2.1.setBogus algo,
      fun j hj hno => h.2.2 j hj (algoNeedsSetBogus_no_iff.1 hno)⟩

theorem DsNeedsOk.setSecure (h : DsNeedsOk env dnskey ds sigalg needs)
    (hi : DsCounts env ds sigalg i) (hsig : DsSigned env dnskey ds i) :
    DsNeedsOk env dnskey ds sigalg
      (needs.map fun n => (algoNeedsSetSecure n (dsGetKeyAlgo ds i).toUInt8).2) := by
  cases needs with
  | none => exact h
  | some n =>
    obtain ⟨rfl, hc, hdone⟩ := h
    refine ⟨rfl, algoNeedsSetSecure_counted hc, fun j hj hno => ?_⟩
    rcases algoNeedsSetSecure_no hno with heq | hno
    · have hnat := congrArg UInt8.toNat heq
      rw [toNat_toUInt8_of_lt dsGetKeyAlgo_lt, toNat_toUInt8_of_lt dsGetKeyAlgo_lt] at hnat
      exact ⟨i, hi, hnat.symm, hsig⟩
    · exact hdone j hj hno

theorem DsNeedsOk.secures (h : DsNeedsOk env dnskey ds sigalg needs) (hi : DsCounts env ds sigalg i)
    (hsig : DsSigned env dnskey ds i) (hdone : (needs.map fun n =>
      (algoNeedsSetSecure n (dsGetKeyAlgo ds i).toUInt8).1).getD true = true) :
    DsSecures env dnskey ds sigalg := by
  refine ⟨⟨i, hi, hsig⟩, fun hs j hj => ?_⟩
  have hnext := h.setSecure hi hsig
  cases needs with
  | none => cases hs.symm.trans h
  | some n =>
    subst hs
    exact hnext.2.2 j hj (algoNeedsSetSecure_done h.2.1 hdone)

theorem dsLoop_sound {js : List Nat} (hjs : ∀ j ∈ js, DsCounts env ds sigalg j) {f : DsFlags}
    (h : DsNeedsOk env dnskey ds sigalg f.needs)
    (hflag : f.hasCheckedDs = true → f.hasUsefulDs = true) (reason : Option String) :
    DsSound env dnskey ds sigalg js f.hasCheckedDs (dsLoop env dnskey ds js f reason).1 := by
  induction js generalizing f reason with
  | nil =>
    rw [dsLoop]
    split
    next hend => exact ⟨nofun, fun _ => .inr ⟨by simpa using hend.2, nofun⟩⟩
    next =>
      split
      next huse => exact ⟨nofun, fun _ => .inr ⟨by simpa using mt hflag huse, nofun⟩⟩
      next => split <;> exact ⟨nofun, nofun⟩
  | cons i js ih =>
    have ih := @ih (forall_mem_cons.1 hjs).2
    have hi := hjs i mem_cons_self
    obtain ⟨hsec, hins, hnone⟩ := @verifyDnskeysWithDsRr_spec env dnskey ds i reason
    rw [dsLoop]
    generalize verifyDnskeysWithDsRr env dnskey ds i reason = r at hsec hins hnone
    dsimp only
    split
    next hr =>
      have hrest := ih (f := { f with hasAlgoRefusal := true }) h hflag r.reason
      exact ⟨hrest.secure, fun hr' => (hrest.insecure hr').imp_right fun ⟨hc, hall⟩ =>
        ⟨hc, forall_mem_cons.2 ⟨.inl (hins hr), hall⟩⟩⟩
    next =>
      have hnext : ∀ needs, DsNeedsOk env dnskey ds sigalg needs →
          DsSound env dnskey ds sigalg (i :: js) f.hasCheckedDs (dsLoop env dnskey ds js
            ⟨needs, true, f.hasAlgoRefusal, f.hasCheckedDs || !r.nonechecked⟩ r.reason).1 := by
        intro needs hneeds
        have hrest := @ih ⟨needs, true, f.hasAlgoRefusal, f.hasCheckedDs || !r.nonechecked⟩
          hneeds (fun _ => rfl) r.reason
        refine ⟨hrest.secure, fun hr => (hrest.insecure hr).imp_right fun ⟨hc, hall⟩ => ?_⟩
        obtain ⟨hc, hn⟩ := Bool.or_eq_false_iff.1 hc
        exact ⟨hc, forall_mem_cons.2 ⟨.inr (hnone (by simpa using hn)), hall⟩⟩
      split
      next hr =>
        split
        next hdone =>
          have hall := h.secures hi (hsec hr) hdone
          exact ⟨fun _ => hall, fun hres => .inl ⟨hall, by
            by_contra hsize
            rw [if_pos (by simpa using hsize)] at hres
            cases hres⟩⟩
        next => exact hnext _ (h.setSecure hi (hsec hr))
      next =>
        apply hnext
        split
        · exact h.setBogus _
        · exact h

end loop

/-- A secure result has a signed DS for every algorithm that counts; an insecure one keys that are
not supported or missing. -/
theorem valVerifyDnskeyWithDs_sound (env : DsEnv) (dnskey ds : Rrset) (sigalg : Bool)
    (reason : Option String) :
    ((valVerifyDnskeyWithDs env dnskey ds sigalg reason).1 = .secure →
      DsSecures env dnskey ds sigalg) ∧
    ((valVerifyDnskeyWithDs env dnskey ds sigalg reason).1 = .insecure →
      DsSecures env dnskey ds sigalg ∧
        (∃ i < dnskey.rrs.length, env.dnskeySizeIsSupported i = false) ∨
      ∀ j, DsCounts env ds sigalg j → ∀ i, DsKey dnskey ds j i →
        env.dsDigestMatchDnskey j i = false ∨ env.dnskeyVerifyRrset i = .bogus →
        DsRefused env dnskey ds j) := by
  rw [valVerifyDnskeyWithDs]
  split
  next => exact ⟨nofun, nofun⟩
  next =>
    have hneeds : DsNeedsOk env dnskey ds sigalg
        (if sigalg then some (algoNeedsInitDs env ds (valFavoriteDsAlgo env ds)) else none) := by
      cases sigalg with
      | false => rfl
      | true => exact ⟨rfl, algoNeedsInitDs_counted, fun j hj hno =>
          absurd hno (algoNeedsInitDs_needs (mem_dsUsable.2 hj))⟩
    have hsound := @dsLoop_sound env dnskey ds sigalg _ (fun j => mem_dsUsable.1)
      ⟨_, false, false, false⟩ hneeds nofun reason
    refine ⟨hsound.secure, fun h => (hsound.insecure h).imp ?_ ?_⟩
    · rintro ⟨hsec, hsize⟩
      obtain ⟨i, hi, hno⟩ := all_eq_false.1 hsize
      exact ⟨hsec, i, mem_range.1 hi, by simpa using hno⟩
    · rintro ⟨-, hall⟩ j hj i hkey -
      exact (hall j (mem_dsUsable.2 hj)).resolve_right fun hno => hno i hkey

theorem valVerifyDnskeyWithDs_insecure_after_mismatch :
    ¬ ∀ (env : DsEnv) (dnskey ds : Rrset) (sigalg : Bool) (reason : Option String),
      (valVerifyDnskeyWithDs env dnskey ds sigalg reason).1 = .insecure →
      ∀ j, DsCounts env ds sigalg j → ∀ i, DsKey dnskey ds j i →
        env.dsDigestMatchDnskey j i = true ∧ env.dnskeyVerifyRrset i ≠ .bogus := by
  intro h
  have hmatch := h
    ⟨fun _ => true, fun _ => true, fun i => i = 0, fun _ i => i = 1, fun _ => .bogus, fun _ r => r⟩
    ⟨[], 48, 1, [⟨0, [0, 4, 1, 0, 3, 8]⟩, ⟨0, [0, 4, 1, 0, 3, 8]⟩]⟩
    ⟨[], 43, 1, [⟨0, [0, 4, 4, 8, 8, 2]⟩]⟩ false none (by decide) 0
    ⟨by decide, rfl, nofun⟩ 0 ⟨by decide, by decide⟩
  exact absurd hmatch.1 (by decide)

end CwdGate.ValUtils
