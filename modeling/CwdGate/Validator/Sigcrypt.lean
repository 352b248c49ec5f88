import CwdGate.Validator.Canonical
import CwdGate.Validator.Nsec3

namespace CwdGate.Sigcrypt
open Validator (SecStatus)

def maxValidateRrsigs : Nat := 8

/-- The extended DNS error codes that go with a failed verification. -/
inductive EdeCode
  | unsupportedDnskeyAlg | dnssecBogus | signatureExpired | signatureNotYetValid | dnskeyMissing
  | rrsigsMissing | noZoneKeyBitSet
  deriving DecidableEq

/-- The date settings, the time, `MIN_TTL`, the algorithms that the crypto library knows, and its
verdict with the reason. -/
structure VerifyEnv where
  dateOverride : Int
  skewMin : Int
  skewMax : Int
  now : UInt32
  minTtl : Int
  dnskeyAlgoIdIsSupported : Nat → Bool
  verifyCanonrrset : List UInt8 → Nat → List UInt8 → List UInt8 → SecStatus × Option String

section
variable (k : Rrset) (idx : Nat)

def octetAt (data : List UInt8) (i : Nat) : Nat := (data.getD i 0).toNat

/-- `rrset_get_sig_keytag`; `sig` is the rdata of the signature with its length in front. -/
def rrsetGetSigKeytag (sig : List UInt8) : Nat :=
  if sig.length < 2 + 18 then 0 else octetAt sig 18 * 256 + octetAt sig 19

def rrsetGetSigAlgo (sig : List UInt8) : Nat := if sig.length < 2 + 3 then 0 else octetAt sig 4

def dnskeyGetFlags : Nat :=
  if (k.rrData idx).length < 2 + 2 then 0
  else octetAt (k.rrData idx) 2 * 256 + octetAt (k.rrData idx) 3

def dnskeyGetProtocol : Nat :=
  if (k.rrData idx).length < 2 + 4 then 0 else octetAt (k.rrData idx) 4

def dnskeyGetAlgo : Nat :=
  if (k.rrData idx).length < 2 + 4 then 0 else octetAt (k.rrData idx) 5

def dnskeyGetPubkey : Option (List UInt8) :=
  if (k.rrData idx).length < 2 + 5 then none else some ((k.rrData idx).drop 6)

/-- The sum of `sldns_calc_keytag_raw`; `odd` is the parity of the octet's index. -/
def keytagSum : Bool → List UInt8 → UInt32
  | _, [] => 0
  | odd, b :: key => (if odd then b.toUInt32 else b.toUInt32 <<< 8) + keytagSum (!odd) key

def sldnsCalcKeytagRaw (key : List UInt8) : Nat :=
  if key.length < 4 then 0
  else if octetAt key 3 = 1 then
    if key.length > 4 then octetAt key (key.length - 3) * 256 + octetAt key (key.length - 2) else 0
  else
    let ac32 := keytagSum false key
    (((ac32 + ((ac32 >>> 16) &&& 0xffff))) &&& 0xffff).toNat

def dnskeyCalcKeytag : Nat := sldnsCalcKeytagRaw ((k.rrData idx).drop 2)

end

def compare1982 (a b : UInt32) : Ordering :=
  if a = b then .eq
  else if (a < b ∧ b - a < 0x80000000) ∨ (a > b ∧ a - b > 0x80000000) then .lt
  else .gt

def subtract1982 (a b : UInt32) : UInt32 :=
  if a = b then 0
  else if a < b ∧ b - a < 0x80000000 then b - a
  else if a > b ∧ a - b > 0x80000000 then 0xffffffff - (a - b - 1)
  else 0

def readDate (sig : List UInt8) (i : Nat) : UInt32 :=
  (((octetAt sig i * 256 + octetAt sig (i + 1)) * 256 + octetAt sig (i + 2)) * 256 +
    octetAt sig (i + 3)).toUInt32

def castU32 (v : Int) : UInt32 := (v % 2 ^ 32).toNat.toUInt32

def VerifyEnv.skew (env : VerifyEnv) (incep expi : UInt32) : UInt32 :=
  let skew := subtract1982 incep expi / 10
  let skew := if skew < castU32 env.skewMin then castU32 env.skewMin else skew
  if skew > castU32 env.skewMax then castU32 env.skewMax else skew

/-- `check_dates`: why the dates are wrong, if they are. -/
def checkDates (env : VerifyEnv) (sig : List UInt8) : Option (String × EdeCode) :=
  let expi := readDate sig 10
  let incep := readDate sig 14
  if env.dateOverride = -1 then none
  else
    let now := if env.dateOverride ≠ 0 then castU32 env.dateOverride else env.now
    if compare1982 incep expi = .gt then
      some ("signature inception after expiration", .signatureNotYetValid)
    else if compare1982 incep now = .gt ∧ subtract1982 now incep > env.skew incep expi then
      some ("signature before inception date", .signatureNotYetValid)
    else if compare1982 now expi = .gt ∧ subtract1982 expi now > env.skew incep expi then
      some ("signature expired", .signatureExpired)
    else none

def castI32 (v : UInt32) : Int := if v.toNat < 2 ^ 31 then v.toNat else (v.toNat : Int) - 2 ^ 32

def adjustTtl (env : VerifyEnv) (sig : List UInt8) (ttl : Int) : Int :=
  let origttl := castI32 (readDate sig 6)
  let now := if env.dateOverride ≠ 0 then castU32 env.dateOverride else env.now
  let expittl := castI32 (readDate sig 10 - now)
  let ttl :=
    if env.minTtl > origttl ∧ ttl > env.minTtl then env.minTtl
    else if env.minTtl ≤ origttl ∧ ttl > origttl then origttl
    else ttl
  if expittl > 0 ∧ ttl > expittl then expittl else ttl

/-- What a trial may change: the owner name and TTL of the RRset, the sorted tree, the buffer,
`buf_canon`, and the reason with its code. -/
structure VerifyState where
  dname : Name
  ttl : Int
  sortree : Option (List Nat)
  buf : Sbuffer
  bufCanon : Bool
  reason : Option String
  reasonBogus : Option EdeCode

def VerifyState.fail (s : VerifyState) (why : String × EdeCode) : VerifyState :=
  { s with reason := some why.1, reasonBogus := some why.2 }

/-- The field checks of `dnskey_verify_rrset_sig`: the length of the signer name, or what is
wrong. -/
def sigFields (dname : Name) (type : UInt16) (dnskey : Rrset) (idx : Nat) (sig : List UInt8) :
    Except (String × EdeCode) Nat :=
  if sig.length < 2 + 20 then .error ("signature too short", .dnssecBogus)
  else if dnskeyGetFlags dnskey idx &&& 0x0100 = 0 then
    .error ("dnskey without ZSK flag", .noZoneKeyBitSet)
  else if dnskeyGetProtocol dnskey idx ≠ 3 then
    .error ("dnskey has wrong protocolnumber", .dnssecBogus)
  else
    let signer := nameAt (sig.drop 20)
    let signerLen := dnameValid (sig.drop 20) (sig.length - 2 - 18)
    if signerLen = 0 then .error ("signer name malformed", .dnssecBogus)
    else if ¬ dnameSubdomainC dname signer then .error ("signer name off-tree", .dnssecBogus)
    else if sig.length < 2 + 18 + signerLen + 1 then
      .error ("signature too short, no signature data", .dnssecBogus)
    else if queryDnameCompare signer dnskey.dname ≠ .eq then
      .error ("signer name mismatches key name", .dnssecBogus)
    else if (sig.drop 2).take 2 ≠ u16Bytes type.toNat then
      .error ("signature covers wrong type", .dnssecBogus)
    else if octetAt sig 4 ≠ dnskeyGetAlgo dnskey idx then
      .error ("signature has wrong algorithm", .dnssecBogus)
    else if (sig.drop 18).take 2 ≠ u16Bytes (dnskeyCalcKeytag dnskey idx) then
      .error ("signature has wrong keytag", .dnssecBogus)
    else if octetAt sig 5 > dnameSignameLabelCount dname then
      .error ("signature labelcount out of range", .dnssecBogus)
    else .ok signerLen

/-- The settings, the RRset, the key set, the section, and whether a `qstate` is given. -/
structure Setting where
  env : VerifyEnv
  rrset : Rrset
  dnskey : Rrset
  sect : PktSection
  hasQstate : Bool

/-- The canonical form is made unless it is in the buffer already. -/
def VerifyState.canonicalize (s : VerifyState) (c : Setting) (sig : List UInt8)
    (signerLen : Nat) : Bool × VerifyState :=
  if s.bufCanon then (true, s)
  else
    let r := rrsetCanonical s.buf { c.rrset with dname := s.dname } (sig.drop 2) (18 + signerLen)
      s.sortree c.sect c.hasQstate
    (r.ok, { s with buf := r.buf, sortree := r.sortree, dname := r.dname, bufCanon := r.ok })

/-- The part of `dnskey_verify_rrset_sig` behind canonicalization. -/
def VerifyState.verify (s : VerifyState) (c : Setting) (idx : Nat) (sig : List UInt8)
    (signerLen : Nat) : SecStatus × VerifyState :=
  match dnskeyGetPubkey c.dnskey idx with
  | none => (.unchecked, s)
  | some key =>
    let v := c.env.verifyCanonrrset (bytesAt s.buf.data 0 s.buf.limit) (octetAt sig 4)
      (sig.drop (20 + signerLen)) key
    let s := { s with reason := v.2.or s.reason }
    if v.1 = .secure then
      let s := { s with ttl := adjustTtl c.env sig s.ttl }
      match checkDates c.env sig with
      | some why => (.bogus, s.fail why)
      | none => (.secure, s)
    else (v.1, s)

def dnskeyVerifyRrsetSig (c : Setting) (idx : Nat) (sig : List UInt8) (s : VerifyState) :
    SecStatus × VerifyState :=
  match sigFields s.dname c.rrset.type c.dnskey idx sig with
  | .error why => (.bogus, s.fail why)
  | .ok signerLen =>
    let r := s.canonicalize c sig signerLen
    if r.1 then r.2.verify c idx sig signerLen else (.unchecked, r.2)

/-- One call of `dnskey_verify_rrset_sig` and its outcome. -/
structure Trial where
  sig : List UInt8
  key : Nat
  sec : SecStatus

/-- The state of a verification: `verified` counts the trials, which are recorded. -/
structure Progress where
  state : VerifyState
  verified : Nat
  trials : List Trial

def Progress.fail (p : Progress) (why : String × EdeCode) : Progress :=
  { p with state := p.state.fail why }

def Progress.trial (p : Progress) (c : Setting) (sig : List UInt8) (i : Nat) :
    SecStatus × Progress :=
  let r := dnskeyVerifyRrsetSig c i sig p.state
  (r.1, ⟨r.2, p.verified + 1, p.trials ++ [⟨sig, i, r.1⟩]⟩)

def keyMatches (dnskey : Rrset) (sig : List UInt8) (i : Nat) : Bool :=
  rrsetGetSigAlgo sig = dnskeyGetAlgo dnskey i ∧ rrsetGetSigKeytag sig = dnskeyCalcKeytag dnskey i

def keysLoop (c : Setting) (sig : List UInt8) :
    List Nat → Nat → Nat → Progress → SecStatus × Progress
  | [], numchecked, numindeterminate, p =>
    if numchecked = 0 then (.bogus, p.fail ("signatures from unknown keys", .dnskeyMissing))
    else if numindeterminate = numchecked then
      (.indeterminate, p.fail ("unsupported algorithm by crypto library", .unsupportedDnskeyAlg))
    else (.bogus, p)
  | i :: keys, numchecked, numindeterminate, p =>
    if ¬ keyMatches c.dnskey sig i then keysLoop c sig keys numchecked numindeterminate p
    else
      let r := p.trial c sig i
      if r.1 = .secure then r
      else if r.2.verified > maxValidateRrsigs then
        (.bogus, r.2.fail ("too many RRSIG validations", .dnssecBogus))
      else keysLoop c sig keys (numchecked + 1)
        (if r.1 = .indeterminate then numindeterminate + 1 else numindeterminate) r.2

def dnskeysetVerifyRrsetSig (c : Setting) (sig : List UInt8) (p : Progress) :
    SecStatus × Progress :=
  if ¬ c.env.dnskeyAlgoIdIsSupported (rrsetGetSigAlgo sig) then
    (.insecure, { p with state := { p.state with reasonBogus := some .unsupportedDnskeyAlg } })
  else keysLoop c sig (List.range c.dnskey.rrs.length) 0 0
    { p with state := { p.state with bufCanon := false } }

/-- For an algorithm in `algo_needs`: not needed, needed, or needed with a bogus signature seen. -/
inductive Need
  | no | missing | bogus
  deriving DecidableEq

structure AlgoNeeds where
  needs : UInt8 → Need
  num : Nat

def AlgoNeeds.set (n : AlgoNeeds) (algo : UInt8) (need : Need) : AlgoNeeds :=
  { n with needs := fun a => if a = algo then need else n.needs a }

/-- The loop of `algo_needs_init_list`, up to the zero that ends the list. -/
def initListLoop : List UInt8 → AlgoNeeds → AlgoNeeds
  | [], n => n
  | algo :: sigalg, n =>
    if algo = 0 then n
    else initListLoop sigalg { n.set algo .missing with num := n.num + 1 }

def algoNeedsInitList (sigalg : List UInt8) : AlgoNeeds := initListLoop sigalg ⟨fun _ => .no, 0⟩

/-- `algo_needs_set_secure`: true when no algorithm is left. -/
def algoNeedsSetSecure (n : AlgoNeeds) (algo : UInt8) : Bool × AlgoNeeds :=
  if n.needs algo ≠ .no then (n.num - 1 = 0, { n.set algo .no with num := n.num - 1 })
  else (false, n)

def algoNeedsSetBogus (n : AlgoNeeds) (algo : UInt8) : AlgoNeeds :=
  if n.needs algo ≠ .no then n.set algo .bogus else n

def algoNeedsMissing (n : AlgoNeeds) : Nat :=
  let all := (List.range 256).map Nat.toUInt8
  if all.any fun a => n.needs a = .bogus then 0
  else ((all.find? fun a => n.needs a = .missing).map UInt8.toNat).getD 0

def sldnsAlgorithms : List (Nat × String) :=
  [(1, "RSAMD5"), (2, "DH"), (3, "DSA"), (4, "ECC"), (5, "RSASHA1"), (6, "DSA-NSEC3-SHA1"),
    (7, "RSASHA1-NSEC3-SHA1"), (8, "RSASHA256"), (10, "RSASHA512"), (12, "ECC-GOST"),
    (13, "ECDSAP256SHA256"), (14, "ECDSAP384SHA384"), (15, "ED25519"), (16, "ED448"),
    (252, "INDIRECT"), (253, "PRIVATEDNS"), (254, "PRIVATEOID")]

def algoNeedsReason (alg : Nat) (s : String) : String :=
  match sldnsAlgorithms.lookup alg with
  | some name => s ++ " with algorithm " ++ name
  | none => s ++ " with algorithm ALG" ++ toString alg

/-- The loop of `dnskeyset_verify_rrset` over the signatures; `needs` if there is a list. -/
def sigsLoop (c : Setting) : List (List UInt8) → Option AlgoNeeds → Progress → SecStatus × Progress
  | [], none, p => (.bogus, p)
  | [], some n, p =>
    if algoNeedsMissing n ≠ 0 then
      (.bogus, { p with state :=
        { p.state with reason := some (algoNeedsReason (algoNeedsMissing n) "no signatures") } })
    else (.bogus, p)
  | sig :: sigs, needs, p =>
    let r := dnskeysetVerifyRrsetSig c sig p
    let algo := (rrsetGetSigAlgo sig).toUInt8
    let needs' :=
      if r.1 = .secure then needs.map fun n => (algoNeedsSetSecure n algo).2
      else if r.1 = .bogus then needs.map fun n => algoNeedsSetBogus n algo
      else needs
    -- done when no list is given, or this was the last algorithm of the list
    if r.1 = .secure ∧ (needs.map fun n => (algoNeedsSetSecure n algo).1).getD true then r
    else if r.2.verified > maxValidateRrsigs then
      (.bogus, r.2.fail ("too many RRSIG validations", .dnssecBogus))
    else sigsLoop c sigs needs' r.2

/-- `dnskeyset_verify_rrset`; `sigs` are the signatures that the RRset has. -/
def dnskeysetVerifyRrset (c : Setting) (sigs : List (List UInt8)) (sigalg : Option (List UInt8))
    (s : VerifyState) : SecStatus × Progress :=
  let p : Progress := ⟨{ s with dname := c.rrset.dname, sortree := none }, 0, []⟩
  if sigs = [] then (.bogus, p.fail ("no signatures", .rrsigsMissing))
  else
    match sigalg with
    | none => sigsLoop c sigs none p
    | some list =>
      let needs := algoNeedsInitList list
      if needs.num = 0 then
        (.insecure, p.fail ("zone has no known algorithms", .unsupportedDnskeyAlg))
      else sigsLoop c sigs (some needs) p

open List

/-- A key of the set that has the algorithm and the key tag of one of the signatures. -/
structure Matching (c : Setting) (sigs : List (List UInt8)) (t : Trial) : Prop where
  sig_mem : t.sig ∈ sigs
  key_lt : t.key < c.dnskey.rrs.length
  algo : rrsetGetSigAlgo t.sig = dnskeyGetAlgo c.dnskey t.key
  keytag : rrsetGetSigKeytag t.sig = dnskeyCalcKeytag c.dnskey t.key

/-- The crypto library accepts the signature with the key, for some canonical octets. -/
structure Verified (c : Setting) (sigs : List (List UInt8)) (t : Trial) : Prop
    extends Matching c sigs t where
  sec : t.sec = .secure
  crypto : ∃ canon sigblock key, dnskeyGetPubkey c.dnskey t.key = some key ∧
    (c.env.verifyCanonrrset canon (octetAt t.sig 4) sigblock key).1 = .secure

variable {c : Setting} {all : List (List UInt8)}

theorem verify_secure {s : VerifyState} (h : (s.verify c idx sig signerLen).1 = .secure) :
    ∃ canon sigblock key, dnskeyGetPubkey c.dnskey idx = some key ∧
      (c.env.verifyCanonrrset canon (octetAt sig 4) sigblock key).1 = .secure := by
  rw [VerifyState.verify] at h
  cases hkey : dnskeyGetPubkey c.dnskey idx with
  | none =>
    rw [hkey] at h
    cases h
  | some key =>
    rw [hkey] at h
    dsimp only at h
    split at h
    case isTrue hsec => exact ⟨_, _, key, rfl, hsec⟩
    case isFalse hsec => exact absurd h hsec

theorem dnskeyVerifyRrsetSig_secure {idx : Nat} {sig : List UInt8} {s : VerifyState}
    (h : (dnskeyVerifyRrsetSig c idx sig s).1 = .secure) :
    ∃ canon sigblock key, dnskeyGetPubkey c.dnskey idx = some key ∧
      (c.env.verifyCanonrrset canon (octetAt sig 4) sigblock key).1 = .secure := by
  rw [dnskeyVerifyRrsetSig] at h
  cases hf : sigFields s.dname c.rrset.type c.dnskey idx sig with
  | error why =>
    rw [hf] at h
    cases h
  | ok signerLen =>
    rw [hf] at h
    dsimp only at h
    split at h
    · exact verify_secure h
    · cases h

/-- The record of the trials is right, and the counter is its length. -/
structure Progress.Ok (c : Setting) (all : List (List UInt8)) (p : Progress) : Prop where
  verified_eq : p.verified = p.trials.length
  matching : ∀ t ∈ p.trials, Matching c all t
  secure : ∀ t ∈ p.trials, t.sec = .secure → Verified c all t

theorem Progress.Ok.fail {p : Progress} (h : p.Ok c all) (why : String × EdeCode) :
    (p.fail why).Ok c all := ⟨h.verified_eq, h.matching, h.secure⟩

theorem Progress.Ok.state {p : Progress} (h : p.Ok c all) (s : VerifyState) :
    Progress.Ok c all { p with state := s } := ⟨h.verified_eq, h.matching, h.secure⟩

theorem Progress.Ok.trial {p : Progress} (h : p.Ok c all)
    (hsig : sig ∈ all) (hi : i < c.dnskey.rrs.length)
    (hm : keyMatches c.dnskey sig i = true) : (p.trial c sig i).2.Ok c all := by
  have hm := of_decide_eq_true hm
  have hmatch : ∀ sec, Matching c all ⟨sig, i, sec⟩ := fun sec => ⟨hsig, hi, hm.1, hm.2⟩
  refine ⟨?_, ?_, ?_⟩
  · change p.verified + 1 = (p.trials ++ [_]).length
    rw [h.verified_eq, length_append]
    rfl
  · exact forall_mem_append.2 ⟨h.matching, forall_mem_singleton.2 (hmatch _)⟩
  · refine forall_mem_append.2 ⟨h.secure, forall_mem_singleton.2 fun hsec => ?_⟩
    exact ⟨hmatch _, hsec, dnskeyVerifyRrsetSig_secure hsec⟩

/-- At most one trial past the bound, and a secure outcome is that of a trial. -/
structure SigDone (c : Setting) (all : List (List UInt8)) (sig : List UInt8) (p : Progress)
    (r : SecStatus × Progress) : Prop where
  ok : r.2.Ok c all
  le : r.2.verified ≤ maxValidateRrsigs + 1
  before : p.trials <+: r.2.trials
  secure : r.1 = .secure → ∃ t ∈ r.2.trials, t.sig = sig ∧ t.sec = .secure

theorem SigDone.after
    (h : SigDone c all sig q r) (hpq : p.trials <+: q.trials) : SigDone c all sig p r :=
  ⟨h.ok, h.le, hpq.trans h.before, h.secure⟩

theorem keysLoop_done {sig : List UInt8} (hsig : sig ∈ all) {keys : List Nat}
    (hkeys : ∀ i ∈ keys, i < c.dnskey.rrs.length) {numchecked numindeterminate : Nat}
    {p : Progress} (hp : p.Ok c all) (hle : p.verified ≤ maxValidateRrsigs) :
    SigDone c all sig p (keysLoop c sig keys numchecked numindeterminate p) := by
  induction keys generalizing numchecked numindeterminate p with
  | nil =>
    have hle' := Nat.le_succ_of_le hle
    rw [keysLoop]
    split
    · exact ⟨hp.fail _, hle', prefix_refl _, fun h => nomatch h⟩
    · split
      · exact ⟨hp.fail _, hle', prefix_refl _, fun h => nomatch h⟩
      · exact ⟨hp, hle', prefix_refl _, fun h => nomatch h⟩
  | cons i keys ih =>
    have hrest := (forall_mem_cons.1 hkeys).2
    rw [keysLoop]
    by_cases hm : keyMatches c.dnskey sig i = true
    · have hok := hp.trial hsig (hkeys i mem_cons_self) hm
      have hle' := Nat.succ_le_succ hle
      have hbefore : p.trials <+: (p.trial c sig i).2.trials := prefix_append _ _
      rw [if_neg (not_not_intro hm)]
      dsimp only
      split
      next hsec =>
        exact ⟨hok, hle', hbefore,
          fun _ => ⟨_, mem_append_right _ (mem_singleton_self _), rfl, hsec⟩⟩
      next hsec =>
        split
        next => exact ⟨hok.fail _, hle', hbefore, fun h => nomatch h⟩
        next hmax =>
          exact (ih hrest hok (le_of_not_gt hmax)).after hbefore
    · rw [if_pos hm]
      exact ih hrest hp hle

theorem dnskeysetVerifyRrsetSig_done (hsig : sig ∈ all)
    {p : Progress} (hp : p.Ok c all) (hle : p.verified ≤ maxValidateRrsigs) :
    SigDone c all sig p (dnskeysetVerifyRrsetSig c sig p) := by
  rw [dnskeysetVerifyRrsetSig]
  split
  · exact ⟨hp.state _, Nat.le_succ_of_le hle, prefix_refl _, fun h => nomatch h⟩
  · have hdone := @keysLoop_done c all sig hsig (range c.dnskey.rrs.length)
      (fun i hi => mem_range.1 hi) 0 0 _ (hp.state { p.state with bufCanon := false }) hle
    exact hdone.after (prefix_refl _)

/-- The algorithms still needed are among as many as `num`. -/
def AlgoNeeds.Counted (n : AlgoNeeds) : Prop :=
  ∃ left : List UInt8, left.length ≤ n.num ∧ ∀ a, n.needs a ≠ .no → a ∈ left

/-- Every algorithm of the list that is not needed any more has a signature that verified. -/
def AlgoNeeds.Covered (n : AlgoNeeds) (list : List UInt8) (trials : List Trial) : Prop :=
  ∀ a ∈ list, n.needs a = .no → ∃ t ∈ trials, (rrsetGetSigAlgo t.sig).toUInt8 = a ∧ t.sec = .secure

theorem AlgoNeeds.Counted.missing (h : AlgoNeeds.Counted n) (algo : UInt8) :
    AlgoNeeds.Counted { n.set algo .missing with num := n.num + 1 } := by
  obtain ⟨left, hlen, hmem⟩ := h
  refine ⟨algo :: left, Nat.succ_le_succ hlen, fun a ha => ?_⟩
  by_cases he : a = algo
  · exact he ▸ mem_cons_self
  · have hset : (n.set algo .missing).needs a = n.needs a := if_neg he
    exact mem_cons_of_mem _ (hmem a fun h0 => ha (hset.trans h0))

theorem AlgoNeeds.missing_needs (h : a = algo ∨ n.needs a ≠ .no) :
    (AlgoNeeds.set n algo .missing).needs a ≠ .no := by
  by_cases he : a = algo
  · have hset : (n.set algo .missing).needs a = .missing := if_pos he
    exact fun hno => nomatch hset.symm.trans hno
  · have hset : (n.set algo .missing).needs a = n.needs a := if_neg he
    exact fun hno => h.resolve_left he (hset.symm.trans hno)

theorem initListLoop_counted (h : n.Counted) : (initListLoop list n).Counted := by
  induction list generalizing n with
  | nil => exact h
  | cons algo list ih =>
    rw [initListLoop]
    split
    · exact h
    · exact ih (h.missing algo)

theorem initListLoop_needs (h : n.needs a ≠ .no ∨ a ∈ list.takeWhile (· ≠ 0)) :
    (initListLoop list n).needs a ≠ .no := by
  induction list generalizing n with
  | nil => exact h.resolve_right not_mem_nil
  | cons algo list ih =>
    rw [initListLoop]
    by_cases h0 : algo = 0
    · rw [if_pos h0]
      rw [takeWhile_cons_of_neg (by simpa using h0)] at h
      exact h.resolve_right not_mem_nil
    · rw [if_neg h0]
      rw [takeWhile_cons_of_pos (by simpa using h0), mem_cons] at h
      apply ih
      rcases h with h | h | h
      · exact .inl (AlgoNeeds.missing_needs (.inr h))
      · exact .inl (AlgoNeeds.missing_needs (.inl h))
      · exact .inr h

theorem algoNeedsSetSecure_counted (h : n.Counted) :
    (algoNeedsSetSecure n algo).2.Counted := by
  rw [algoNeedsSetSecure]
  split
  case isTrue hneed =>
    obtain ⟨left, hlen, hmem⟩ := h
    refine ⟨left.erase algo, ?_, fun a ha => ?_⟩
    · have := length_erase_of_mem (hmem algo hneed)
      change (left.erase algo).length ≤ n.num - 1
      omega
    · have hne : a ≠ algo := fun he => ha (if_pos he)
      have hset : (n.set algo .no).needs a = n.needs a := if_neg hne
      exact (mem_erase_of_ne hne).2 (hmem a fun h0 => ha (hset.trans h0))
  case isFalse => exact h

theorem algoNeedsSetSecure_done (h : n.Counted) (hdone : (algoNeedsSetSecure n algo).1 = true) :
    (algoNeedsSetSecure n algo).2.needs a = .no := by
  obtain ⟨left, hlen, hmem⟩ := algoNeedsSetSecure_counted h
  have hnum : (algoNeedsSetSecure n algo).2.num = 0 := by
    rw [algoNeedsSetSecure] at hdone ⊢
    split at hdone
    case isTrue hneed =>
      rw [if_pos hneed]
      exact of_decide_eq_true hdone
    case isFalse => cases hdone
  by_contra hne
  have := length_pos_of_mem (hmem a hne)
  omega

theorem algoNeedsSetSecure_no (h : (algoNeedsSetSecure n algo).2.needs a = .no) :
    a = algo ∨ n.needs a = .no := by
  by_cases he : a = algo
  · exact .inl he
  · rw [algoNeedsSetSecure] at h
    split at h
    case isTrue =>
      have hset : (n.set algo .no).needs a = n.needs a := if_neg he
      exact .inr (hset.symm.trans h)
    case isFalse => exact .inr h

theorem algoNeedsSetSecure_covered (h : n.Covered list trials) (ht : t ∈ trials)
    (hsec : t.sec = .secure) :
    (algoNeedsSetSecure n (rrsetGetSigAlgo t.sig).toUInt8).2.Covered list trials := by
  intro a ha hno
  rcases algoNeedsSetSecure_no hno with he | hno
  · exact ⟨t, ht, he.symm, hsec⟩
  · exact h a ha hno

theorem algoNeedsSetBogus_no_iff : (algoNeedsSetBogus n algo).needs a = .no ↔ n.needs a = .no := by
  rw [algoNeedsSetBogus]
  split
  case isTrue hneed =>
    by_cases he : a = algo
    · have hset : (n.set algo .bogus).needs a = .bogus := if_pos he
      rw [hset, he]
      exact ⟨(nomatch ·), (absurd · hneed)⟩
    · have hset : (n.set algo .bogus).needs a = n.needs a := if_neg he
      rw [hset]
  case isFalse => rfl

theorem algoNeedsSetBogus_num : (algoNeedsSetBogus n algo).num = n.num := by
  rw [algoNeedsSetBogus]
  split <;> rfl

theorem AlgoNeeds.Counted.setBogus (h : AlgoNeeds.Counted n) (algo : UInt8) :
    (algoNeedsSetBogus n algo).Counted := by
  obtain ⟨left, hlen, hmem⟩ := h
  exact ⟨left, hlen.trans_eq algoNeedsSetBogus_num.symm, fun a ha =>
    hmem a fun hno => ha (algoNeedsSetBogus_no_iff.2 hno)⟩

/-- The table belongs to the list of algorithms and to the trials so far. -/
def NeedsOk : Option (List UInt8) → Option AlgoNeeds → List Trial → Prop
  | none, none, _ => True
  | some list, some n, trials => n.Counted ∧ n.Covered list trials
  | _, _, _ => False

/-- A signature that verified, for every algorithm of the list if there is one. -/
def Served : Option (List UInt8) → List Trial → Prop
  | none, trials => ∃ t ∈ trials, t.sec = .secure
  | some list, trials =>
    ∀ a ∈ list, ∃ t ∈ trials, (rrsetGetSigAlgo t.sig).toUInt8 = a ∧ t.sec = .secure

theorem AlgoNeeds.Covered.mono {n : AlgoNeeds}
    (h : n.Covered list trials) (hpre : trials <+: trials') : n.Covered list trials' := by
  intro a ha hno
  obtain ⟨t, ht, hrest⟩ := h a ha hno
  exact ⟨t, hpre.subset ht, hrest⟩

theorem NeedsOk.mono {list : Option (List UInt8)} {needs : Option AlgoNeeds}
    {trials trials' : List Trial} (h : NeedsOk list needs trials) (hpre : trials <+: trials') :
    NeedsOk list needs trials' := by
  match list, needs, h with
  | none, none, _ => trivial
  | some _, some _, h => exact ⟨h.1, h.2.mono hpre⟩

theorem NeedsOk.setBogus (h : NeedsOk list needs trials) (algo : UInt8) :
    NeedsOk list (needs.map fun n => algoNeedsSetBogus n algo) trials := by
  match list, needs, h with
  | none, none, _ => trivial
  | some list, some n, ⟨hcount, hcov⟩ =>
    exact ⟨hcount.setBogus algo, fun a ha hno => hcov a ha (algoNeedsSetBogus_no_iff.1 hno)⟩

theorem NeedsOk.setSecure (h : NeedsOk list needs trials) (ht : t ∈ trials)
    (hsec : t.sec = .secure) :
    NeedsOk list
      (needs.map fun n => (algoNeedsSetSecure n (rrsetGetSigAlgo t.sig).toUInt8).2) trials := by
  match list, needs, h with
  | none, none, _ => trivial
  | some list, some n, ⟨hcount, hcov⟩ =>
    exact ⟨algoNeedsSetSecure_counted hcount, algoNeedsSetSecure_covered hcov ht hsec⟩

theorem NeedsOk.served (h : NeedsOk list needs trials) (ht : t ∈ trials) (hsec : t.sec = .secure)
    (hdone : (needs.map fun n =>
      (algoNeedsSetSecure n (rrsetGetSigAlgo t.sig).toUInt8).1).getD true = true) :
    Served list trials := by
  match list, needs, h with
  | none, none, _ => exact ⟨t, ht, hsec⟩
  | some list, some n, ⟨hcount, hcov⟩ =>
    intro a ha
    exact algoNeedsSetSecure_covered hcov ht hsec a ha (algoNeedsSetSecure_done hcount hdone)

theorem sigsLoop_done {list : Option (List UInt8)} {sigs : List (List UInt8)}
    (hsigs : ∀ sig ∈ sigs, sig ∈ all) {needs : Option AlgoNeeds} {p : Progress}
    (hp : p.Ok c all) (hle : p.verified ≤ maxValidateRrsigs) (hneeds : NeedsOk list needs p.trials) :
    (sigsLoop c sigs needs p).2.Ok c all ∧
    (sigsLoop c sigs needs p).2.verified ≤ maxValidateRrsigs + 1 ∧
    ((sigsLoop c sigs needs p).1 = .secure → Served list (sigsLoop c sigs needs p).2.trials) := by
  induction sigs generalizing needs p with
  | nil =>
    have hle' := Nat.le_succ_of_le hle
    cases needs with
    | none => exact ⟨hp, hle', fun h => nomatch h⟩
    | some n =>
      rw [sigsLoop]
      split
      · exact ⟨hp.state _, hle', fun h => nomatch h⟩
      · exact ⟨hp, hle', fun h => nomatch h⟩
  | cons sig sigs ih =>
    have hdone := dnskeysetVerifyRrsetSig_done (hsigs sig mem_cons_self) hp hle
    have hmono := hneeds.mono hdone.before
    rw [sigsLoop]
    split
    next hret =>
      obtain ⟨t, ht, rfl, hsec⟩ := hdone.secure hret.1
      exact ⟨hdone.ok, hdone.le, fun _ => hmono.served ht hsec hret.2⟩
    next =>
      split
      next => exact ⟨hdone.ok.fail _, hdone.le, fun h => nomatch h⟩
      next hmax =>
        apply ih (forall_mem_cons.1 hsigs).2 hdone.ok (le_of_not_gt hmax)
        split
        next hsecure =>
          obtain ⟨t, ht, rfl, hsec⟩ := hdone.secure hsecure
          exact hmono.setSecure ht hsec
        next =>
          split
          · exact hmono.setBogus _
          · exact hmono

theorem octetAt_lt : octetAt data i < 256 := UInt8.toNat_lt _

theorem rrsetGetSigAlgo_lt : rrsetGetSigAlgo sig < 256 := by
  rw [rrsetGetSigAlgo]
  split
  · exact Nat.succ_pos 255
  · exact octetAt_lt

/-- At most one trial past the bound, and a secure verdict rests on signatures that verified. -/
theorem dnskeysetVerifyRrset_sound (c : Setting) (sigs : List (List UInt8))
    (sigalg : Option (List UInt8)) (s : VerifyState) :
    (dnskeysetVerifyRrset c sigs sigalg s).2.trials.length ≤ maxValidateRrsigs + 1 ∧
    ((dnskeysetVerifyRrset c sigs sigalg s).1 = .secure → match sigalg with
      | none => ∃ t ∈ (dnskeysetVerifyRrset c sigs sigalg s).2.trials, Verified c sigs t
      | some list => ∀ algo ∈ list.takeWhile (· ≠ 0),
        ∃ t ∈ (dnskeysetVerifyRrset c sigs sigalg s).2.trials,
          Verified c sigs t ∧ rrsetGetSigAlgo t.sig = algo.toNat) := by
  have hp : ∀ st, Progress.Ok c sigs ⟨st, 0, []⟩ :=
    fun _ => ⟨rfl, fun _ h => absurd h not_mem_nil, fun _ h => absurd h not_mem_nil⟩
  have hbound : ∀ p : Progress, p.Ok c sigs → p.verified ≤ maxValidateRrsigs + 1 →
      p.trials.length ≤ maxValidateRrsigs + 1 := fun p hok hle => hok.verified_eq ▸ hle
  cases sigalg with
  | none =>
    rw [dnskeysetVerifyRrset]
    split
    next => exact ⟨Nat.zero_le _, fun h => nomatch h⟩
    next =>
      obtain ⟨hok, hle, hserved⟩ := @sigsLoop_done c sigs none sigs (fun _ h => h) none _
        (hp { s with dname := c.rrset.dname, sortree := none }) (Nat.zero_le _) trivial
      refine ⟨hbound _ hok hle, fun h => ?_⟩
      obtain ⟨t, ht, hsec⟩ := hserved h
      exact ⟨t, ht, hok.secure t ht hsec⟩
  | some list =>
    rw [dnskeysetVerifyRrset]
    split
    next => exact ⟨Nat.zero_le _, fun h => nomatch h⟩
    next =>
      dsimp only
      split
      next => exact ⟨Nat.zero_le _, fun h => nomatch h⟩
      next =>
        have hneeds : NeedsOk (some (list.takeWhile (· ≠ 0))) (some (algoNeedsInitList list)) [] :=
          ⟨initListLoop_counted ⟨[], le_rfl, fun a ha => absurd rfl ha⟩,
            fun a ha hno => absurd hno (initListLoop_needs (.inr ha))⟩
        obtain ⟨hok, hle, hserved⟩ := @sigsLoop_done c sigs _ sigs (fun _ h => h) _ _
          (hp { s with dname := c.rrset.dname, sortree := none }) (Nat.zero_le _) hneeds
        refine ⟨hbound _ hok hle, fun h algo halgo => ?_⟩
        obtain ⟨t, ht, rfl, hsec⟩ := hserved h algo halgo
        exact ⟨t, ht, hok.secure t ht hsec, (toNat_toUInt8_of_lt rrsetGetSigAlgo_lt).symm⟩

end CwdGate.Sigcrypt
