import CwdGate.Validator.Base32
import CwdGate.Validator.Nsec

namespace CwdGate.Validator
open Std Lib

def typeNSEC3 : UInt16 := 50

inductive SecStatus
  | unchecked | bogus | indeterminate | insecure | secureSentinelFail | secure
  deriving DecidableEq, Repr

/-- An rrset that a proof is given; `secure` is what `list_is_secure` finds. -/
structure RrsetKey where
  dname : Name
  type : UInt16
  rrsetClass : UInt16
  rrData : List (List UInt8)
  secure : Bool

/-- One record of an NSEC3 rrset: its owner name and its rdata behind a 16-bit length. -/
structure Nsec3Rr where
  dname : Name
  data : List UInt8
  deriving DecidableEq

def RrsetKey.rrs (s : RrsetKey) : List Nsec3Rr := s.rrData.map (⟨s.dname, ·⟩)

section record
variable (rr : Nsec3Rr)

def nsec3UnknownFlags : Bool :=
  if rr.data.length < 2 + 2 then false else (rr.data.getD (2 + 1) 0 &&& 0xFE) != 0

def nsec3HasOptout : Bool :=
  if rr.data.length < 2 + 2 then false else (rr.data.getD (2 + 1) 0 &&& 0x01) != 0

def nsec3GetAlgo : UInt8 := if rr.data.length < 2 + 1 then 0 else rr.data.getD 2 0

/-- `nsec3_known_algo`: SHA1 only. -/
def nsec3KnownAlgo : Bool := if rr.data.length < 2 + 1 then false else rr.data.getD 2 0 = 1

def nsec3GetIter : Nat :=
  if rr.data.length < 2 + 4 then 0
  else (rr.data.getD (2 + 2) 0).toNat * 256 + (rr.data.getD (2 + 3) 0).toNat

def nsec3GetSalt : Option (List UInt8) :=
  if rr.data.length < 2 + 5 then none
  else
    let saltlen := (rr.data.getD (2 + 4) 0).toNat
    if rr.data.length < 2 + 5 + saltlen then none
    else some ((rr.data.drop (2 + 5)).take saltlen)

def nsec3GetNextowner : Option (List UInt8) :=
  if rr.data.length < 2 + 5 then none
  else
    let saltlen := (rr.data.getD (2 + 4) 0).toNat
    if rr.data.length < 2 + 5 + saltlen + 1 then none
    else
      let nextlen := (rr.data.getD (2 + 5 + saltlen) 0).toNat
      if rr.data.length < 2 + 5 + saltlen + 1 + nextlen then none
      else some ((rr.data.drop (2 + 5 + saltlen + 1)).take nextlen)

def nsec3HasType (type : UInt16) : Bool :=
  if rr.data.length < 2 + 4 + 1 then false
  else
    let skiplen := 2 + 4 + (1 + (rr.data.getD (2 + 4) 0).toNat)
    if rr.data.length < skiplen + 1 then false
    else
      let skiplen' := skiplen + (1 + (rr.data.getD skiplen 0).toNat)
      if rr.data.length < skiplen' then false
      else nsecbitmapHasTypeRdata (rr.data.drop skiplen') type

def nsec3Known : Bool := !nsec3UnknownFlags rr && nsec3KnownAlgo rr

end record

structure QueryInfo where
  qname : Name
  qtype : UInt16
  qclass : UInt16

structure Nsec3Filter where
  zone : Name
  list : List RrsetKey
  fclass : UInt16

def nsec3RrsetHasKnown (s : RrsetKey) : Bool := s.rrs.any nsec3Known

/-- One step of `filter_init`: the zone of an rrset replaces one that lies above it. -/
def filterInitStep (qinfo : QueryInfo) (zone : Option Name) (s : RrsetKey) : Option Name :=
  if s.type ≠ typeNSEC3 ∨ s.rrsetClass ≠ qinfo.qclass then zone
  else if ¬ nsec3RrsetHasKnown s then zone
  else
    let nm := dnameRemoveLabel s.dname
    if dnameSubdomainC qinfo.qname nm ∧ zone.all (dnameSubdomainC nm) then
      if qinfo.qtype = typeDS ∧ queryDnameCompare qinfo.qname nm = .eq ∧ qinfo.qname ≠ [] then
        zone
      else some nm
    else zone

/-- `filter_init`; `none` when no zone is found. -/
def filterInit (list : List RrsetKey) (qinfo : QueryInfo) : Option Nsec3Filter :=
  (list.foldl (filterInitStep qinfo) none).map (⟨·, list, qinfo.qclass⟩)

/-- The records that `filter_first` and `filter_next` visit, in their order. -/
def filterRrs (flt : Nsec3Filter) : List Nsec3Rr :=
  flt.list.flatMap fun s =>
    if s.type ≠ typeNSEC3 ∨ s.rrsetClass ≠ flt.fclass then []
    else if queryDnameCompare (dnameRemoveLabel s.dname) flt.zone ≠ .eq then []
    else s.rrs.filter nsec3Known

/-- `get_max_iter`, over the configured pairs of key size and iteration limit. -/
def getMaxIter (bits : Nat) : List (Nat × Nat) → Nat
  | [] => 0
  | [(_, maxiter)] => maxiter
  | (keysize, maxiter) :: more => if bits ≤ keysize then maxiter else getMaxIter bits more

/-- A key entry: whether it is good, and its `key_entry_keysize`. -/
structure KeyEntry where
  isgood : Bool
  keysize : Nat

def nsec3IterationCountHigh (ve : List (Nat × Nat)) (flt : Nsec3Filter) (kkey : KeyEntry) : Bool :=
  (filterRrs flt).any fun rr => getMaxIter kkey.keysize ve < nsec3GetIter rr

/-- An entry of the hash cache: the name, the record that gives the parameters, and the hash. -/
structure Nsec3CachedHash where
  nsec3 : Nsec3Rr
  dname : Name
  hash : List UInt8
  b32 : List UInt8

/-- The comparison of salts in `nsec3_hash_cmp`; a malformed salt is a null pointer of length 0. -/
def saltCmp (s1 s2 : Option (List UInt8)) : Ordering :=
  if (s1.getD []).length = 0 ∧ (s2.getD []).length = 0 then .eq
  else
    match s1, s2 with
    | none, _ => .lt
    | some _, none => .gt
    | some s1, some s2 =>
      if s1.length ≠ s2.length then if s1.length < s2.length then .lt else .gt
      else s1.compareLex compare s2

def nsec3HashCmp (dname1 : Name) (nsec31 : Nsec3Rr) (dname2 : Name) (nsec32 : Nsec3Rr) : Ordering :=
  if queryDnameCompare dname1 dname2 ≠ .eq then queryDnameCompare dname1 dname2
  else if nsec3GetAlgo nsec31 ≠ nsec3GetAlgo nsec32 then
    if nsec3GetAlgo nsec31 < nsec3GetAlgo nsec32 then .lt else .gt
  else if nsec3GetIter nsec31 ≠ nsec3GetIter nsec32 then
    if nsec3GetIter nsec31 < nsec3GetIter nsec32 then .lt else .gt
  else saltCmp (nsec3GetSalt nsec31) (nsec3GetSalt nsec32)

/-- What the proofs use from outside: the digest, and which region allocations succeed. -/
structure Nsec3Env where
  sha1 : List UInt8 → Vector UInt8 20
  mem : Nat → Bool

/-- The hash cache, the allocations so far and the count of calculations. -/
structure Nsec3State where
  ct : List Nsec3CachedHash
  allocs : Nat
  calculations : Int

/-- The hash of a name: a digest of the name and the salt, and `iter` further rounds. -/
def nsec3Hash (env : Nsec3Env) (iter : Nat) (salt : List UInt8) (dname : Name) : List UInt8 :=
  Nat.repeat (fun hash => (env.sha1 (hash ++ salt)).toList) iter
    (env.sha1 (wire (lowerName dname) ++ salt)).toList

inductive HashReturn
  | malloc
  | malformed
  | computed (c : Nsec3CachedHash)
  | cached (c : Nsec3CachedHash)

/-- The part of `nsec3_hash_name` after the lookup, with `nsec3_calc_hash` and
`nsec3_calc_b32`. -/
def nsec3CalcName (env : Nsec3Env) (nsec3 : Nsec3Rr) (dname : Name) (s : Nsec3State) :
    HashReturn × Nsec3State :=
  let s1 := { s with allocs := s.allocs + 1 }
  if ¬ env.mem s.allocs then (.malloc, s1)
  else
    match nsec3GetSalt nsec3 with
    | none => (.malformed, s1)
    | some salt =>
      if nsec3GetAlgo nsec3 ≠ 1 then (.malformed, s1)
      else
        let s2 := { s with allocs := s.allocs + 2 }
        if ¬ env.mem (s.allocs + 1) then (.malloc, s2)
        else
          let hash := nsec3Hash env (nsec3GetIter nsec3) salt dname
          let b32 := b32NtopExtendedHex hash
          if b32.length < 1 then (.malloc, s2)
          else
            let s3 := { s with allocs := s.allocs + 3 }
            if ¬ env.mem (s.allocs + 2) then (.malloc, s3)
            else
              let c := ⟨nsec3, dname, hash, b32⟩
              (.computed c, { s3 with ct := c :: s.ct })

/-- `nsec3_hash_name`; the cache tree is kept as the list of its entries. -/
def nsec3HashName (env : Nsec3Env) (nsec3 : Nsec3Rr) (dname : Name) (s : Nsec3State) :
    HashReturn × Nsec3State :=
  match s.ct.find? fun c => nsec3HashCmp dname nsec3 c.dname c.nsec3 = .eq with
  | some c => (.cached c, s)
  | none => nsec3CalcName env nsec3 dname s

def labelCompareLower (lab1 lab2 : List UInt8) : Ordering :=
  (lowerLabel lab1).compareLex compare (lowerLabel lab2)

def nsec3HashMatchesOwner (zone : Name) (hash : Nsec3CachedHash) (s : Nsec3Rr) : Bool :=
  match s.dname with
  | [] => false
  | lab :: nm =>
    hash.b32.length ≠ 0 ∧ lab.length = hash.b32.length ∧ labelCompareLower lab hash.b32 = .eq ∧
      queryDnameCompare nm zone = .eq

def nsec3Covers (zone : Name) (hash : Nsec3CachedHash) (rrset : Nsec3Rr) : Bool :=
  match nsec3GetNextowner rrset, rrset.dname with
  | none, _ => false
  | some _, [] => false
  | some next, lab :: nm =>
    if next.length ≠ hash.hash.length ∨ hash.hash.length = 0 ∨ hash.b32.length = 0 ∨
        lab.length ≠ hash.b32.length ∨ queryDnameCompare nm zone ≠ .eq then false
    else if labelCompareLower lab hash.b32 = .lt ∧ hash.hash.compareLex compare next = .lt then
      true
    else
      match b32PtonExtendedHex (wire rrset.dname).tail hash.b32.length with
      | none => false
      | some owner =>
        if owner.length < 1 then false
        else if owner.length ≠ hash.hash.length ∨ owner.length ≠ next.length then false
        else
          (next.compareLex compare owner).isLE ∧
            (hash.hash.compareLex compare owner = .gt ∨ hash.hash.compareLex compare next = .lt)

def maxNsec3Calculations : Int := 8
def maxNsec3Errors : Int := -1

/-- The loop that `find_matching_nsec3` and `find_covering_nsec3` share. -/
def findNsec3Loop (env : Nsec3Env) (test : Nsec3CachedHash → Nsec3Rr → Bool) (nm : Name) :
    List Nsec3Rr → Int → Nsec3State → Option Nsec3Rr × Nsec3State
  | [], _, s => (none, s)
  | rr :: rrs, calcErrors, s =>
    if maxNsec3Calculations ≤ s.calculations then
      (none, if calcErrors = s.calculations then { s with calculations := maxNsec3Errors } else s)
    else
      match nsec3HashName env rr nm s with
      | (.malloc, s') => (none, s')
      | (.malformed, s') =>
        findNsec3Loop env test nm rrs (calcErrors + 1) { s' with calculations := s'.calculations + 1 }
      | (.computed c, s') =>
        if test c rr then (some rr, { s' with calculations := s'.calculations + 1 })
        else findNsec3Loop env test nm rrs calcErrors { s' with calculations := s'.calculations + 1 }
      | (.cached c, s') =>
        if test c rr then (some rr, s') else findNsec3Loop env test nm rrs calcErrors s'

def findMatchingNsec3 (env : Nsec3Env) (flt : Nsec3Filter) (nm : Name) (s : Nsec3State) :
    Option Nsec3Rr × Nsec3State :=
  findNsec3Loop env (nsec3HashMatchesOwner flt.zone) nm (filterRrs flt) 0 s

def findCoveringNsec3 (env : Nsec3Env) (flt : Nsec3Filter) (nm : Name) (s : Nsec3State) :
    Option Nsec3Rr × Nsec3State :=
  findNsec3Loop env (nsec3Covers flt.zone) nm (filterRrs flt) 0 s

/-- The loop of `nsec3_find_closest_encloser`; the outer `none`: more than `fuel` rounds. -/
def nsec3FindClosestEncloser (env : Nsec3Env) (flt : Nsec3Filter) :
    Nat → Name → Nsec3State → Option (Option (Name × Nsec3Rr) × Nsec3State)
  | 0, _, _ => none
  | fuel + 1, nm, s =>
    if dnameSubdomainC nm flt.zone then
      if maxNsec3Calculations ≤ s.calculations ∨ s.calculations = maxNsec3Errors then some (none, s)
      else
        match findMatchingNsec3 env flt nm s with
        | (some rr, s') => some (some (nm, rr), s')
        | (none, s') => nsec3FindClosestEncloser env flt fuel (dnameRemoveLabel nm) s'
    else some (none, s)

def nextCloser (qname ce : Name) : Name :=
  dnameRemoveLabels qname (dnameCountLabels qname - dnameCountLabels ce - 1)

structure CeResponse where
  ce : Name
  ceRr : Nsec3Rr
  ncRr : Option Nsec3Rr

section
variable (env : Nsec3Env) (fuel : Nat) (ve : List (Nat × Nat)) (flt : Nsec3Filter)
  (list : List RrsetKey) (qinfo : QueryInfo) (kkey : Option KeyEntry) (s : Nsec3State)

/-- What a failed search comes to: bogus if all calculations were errors, else unchecked if the
budget is spent. -/
def searchFailed (sec : SecStatus) : SecStatus :=
  if s.calculations = maxNsec3Errors then .bogus
  else if maxNsec3Calculations ≤ s.calculations then .unchecked
  else sec

def nsec3ProveClosestEncloser (proveDoesNotExist : Bool) (s : Nsec3State) :
    Option (SecStatus × Option CeResponse × Nsec3State) :=
  match nsec3FindClosestEncloser env flt fuel qinfo.qname s with
  | none => none
  | some (none, s) => some (searchFailed s .bogus, none, s)
  | some (some (ce, ceRr), s) =>
    if queryDnameCompare ce qinfo.qname = .eq then
      if proveDoesNotExist then some (.bogus, some ⟨ce, ceRr, none⟩, s)
      else some (.secure, some ⟨ce, ceRr, none⟩, s)
    else if nsec3HasType ceRr typeNS ∧ ¬ nsec3HasType ceRr typeSOA then
      if ¬ nsec3HasType ceRr typeDS then some (.insecure, some ⟨ce, ceRr, none⟩, s)
      else some (.bogus, some ⟨ce, ceRr, none⟩, s)
    else if nsec3HasType ceRr typeDNAME then some (.bogus, some ⟨ce, ceRr, none⟩, s)
    else
      match findCoveringNsec3 env flt (nextCloser qinfo.qname ce) s with
      | (none, s) => some (searchFailed s .bogus, some ⟨ce, ceRr, none⟩, s)
      | (some ncRr, s) => some (.secure, some ⟨ce, ceRr, some ncRr⟩, s)

/-- `nsec3_ce_wildcard`: no name when it is too long or cannot be allocated. -/
def nsec3CeWildcard (ce : Name) (s : Nsec3State) : Option Name × Nsec3State :=
  if wireLen ce > 255 - 2 then (none, s)
  else if env.mem s.allocs then (some (wildLabel :: ce), { s with allocs := s.allocs + 1 })
  else (none, { s with allocs := s.allocs + 1 })

def nsec3DoProveNameerror : Option (SecStatus × Nsec3State) :=
  match nsec3ProveClosestEncloser env fuel flt qinfo true s with
  | none => none
  | some (.secure, some ce, s) =>
    match nsec3CeWildcard env ce.ce s with
    | (none, s) => some (.bogus, s)
    | (some wc, s) =>
      match findCoveringNsec3 env flt wc s with
      | (none, s) => some (searchFailed s .bogus, s)
      | (some _, s) =>
        if ce.ncRr.any nsec3HasOptout then some (.insecure, s) else some (.secure, s)
  | some (sec, _, s) => some (sec, s)

/-- The tests that `nsec3_do_prove_nodata` makes on the record of the query name. -/
def nodataMatching (rr : Nsec3Rr) : SecStatus :=
  if nsec3HasType rr qinfo.qtype then .bogus
  else if nsec3HasType rr typeCNAME then .bogus
  else if qinfo.qtype = typeDS ∧ wireLen qinfo.qname ≠ 1 ∧ nsec3HasType rr typeSOA ∧
      qinfo.qname ≠ [] then .bogus
  else if qinfo.qtype ≠ typeDS ∧ nsec3HasType rr typeNS ∧ ¬ nsec3HasType rr typeSOA then
    if ¬ nsec3HasType rr typeDS then .insecure else .bogus
  else .secure

/-- The tests that `nsec3_do_prove_nodata` makes on the record of the wildcard. -/
def nodataWildcard (ncRr : Option Nsec3Rr) (rr : Nsec3Rr) : SecStatus :=
  if nsec3HasType rr qinfo.qtype then .bogus
  else if nsec3HasType rr typeCNAME then .bogus
  else if qinfo.qtype = typeDS ∧ wireLen qinfo.qname ≠ 1 ∧ nsec3HasType rr typeSOA then .bogus
  else if qinfo.qtype ≠ typeDS ∧ nsec3HasType rr typeNS ∧ ¬ nsec3HasType rr typeSOA then .bogus
  else if ncRr.any nsec3HasOptout then .insecure
  else .secure

/-- The last case of `nsec3_do_prove_nodata`, without a wildcard record. -/
def nodataOptout : Option Nsec3Rr → SecStatus
  | none => .bogus
  | some ncRr => if ¬ nsec3HasOptout ncRr then .bogus else .insecure

/-- The part of `nsec3_do_prove_nodata` after the closest encloser is known. -/
def nodataClosestEncloser (ce : CeResponse) (s : Nsec3State) : SecStatus × Nsec3State :=
  match nsec3CeWildcard env ce.ce s with
  | (none, s) => (searchFailed s (nodataOptout ce.ncRr), s)
  | (some wc, s) =>
    match findMatchingNsec3 env flt wc s with
    | (some rr, s) => (nodataWildcard qinfo ce.ncRr rr, s)
    | (none, s) => (searchFailed s (nodataOptout ce.ncRr), s)

def nsec3DoProveNodata : Option (SecStatus × Nsec3State) :=
  match findMatchingNsec3 env flt qinfo.qname s with
  | (some rr, s) => some (nodataMatching qinfo rr, s)
  | (none, s) =>
    if s.calculations = maxNsec3Errors then some (.bogus, s)
    else if maxNsec3Calculations ≤ s.calculations then some (.unchecked, s)
    else
      match nsec3ProveClosestEncloser env fuel flt qinfo true s with
      | none => none
      | some (sec, ce, s) =>
        if sec = .bogus then some (.bogus, s)
        else if sec = .insecure ∧ qinfo.qtype ≠ typeDS then some (.insecure, s)
        else if sec = .unchecked then some (.unchecked, s)
        else
          match ce with
          | none => some (.bogus, s)
          | some ce => some (nodataClosestEncloser env flt qinfo ce s)

/-- The checks that the proofs start with: a good key, a zone, and no high iteration count. -/
def proveStart : Except SecStatus Nsec3Filter :=
  match kkey with
  | none => .error .bogus
  | some kkey =>
    if list = [] ∨ ¬ kkey.isgood then .error .bogus
    else
      match filterInit list qinfo with
      | none => .error .bogus
      | some flt => if nsec3IterationCountHigh ve flt kkey then .error .insecure else .ok flt

def nsec3ProveNameerror : Option (SecStatus × Nsec3State) :=
  match proveStart ve list qinfo kkey with
  | .error sec => some (sec, s)
  | .ok flt => nsec3DoProveNameerror env fuel flt qinfo s

def nsec3ProveNodata : Option (SecStatus × Nsec3State) :=
  match proveStart ve list qinfo kkey with
  | .error sec => some (sec, s)
  | .ok flt => nsec3DoProveNodata env fuel flt qinfo s

def nsec3ProveWildcard (wc : Name) (s : Nsec3State) : SecStatus × Nsec3State :=
  match proveStart ve list qinfo kkey with
  | .error sec => (sec, s)
  | .ok flt =>
    match findCoveringNsec3 env flt (nextCloser qinfo.qname wc) s with
    | (none, s) => (searchFailed s .bogus, s)
    | (some ncRr, s) => if nsec3HasOptout ncRr then (.insecure, s) else (.secure, s)

def listIsSecure : Bool :=
  list.all fun s => s.type ≠ typeNSEC3 || s.secure

/-- The tests of `nsec3_prove_nods` on the record of the query name. -/
def nodsMatching (rr : Nsec3Rr) : SecStatus × Option String :=
  if nsec3HasType rr typeSOA ∧ wireLen qinfo.qname ≠ 1 then
    (.bogus, some "NSEC3 from child zone")
  else if nsec3HasType rr typeDS then (.bogus, some "NSEC3 has DS in bitmap")
  else if ¬ nsec3HasType rr typeNS then (.indeterminate, none)
  else (.secure, none)

/-- The tests of `nsec3_prove_nods` on the record that covers the next closer name. -/
def nodsOptout : Option Nsec3Rr → SecStatus × Option String
  | none => (.bogus, some "no NSEC3 next closer")
  | some ncRr =>
    if ¬ nsec3HasOptout ncRr then
      (.bogus, some "covering NSEC3 was not opt-out in an opt-out DS NOERROR/NODATA case")
    else (.insecure, none)

/-- The search of `nsec3_prove_nods`, with its own count of calculations. -/
def nsec3DoProveNods : Option ((SecStatus × Option String) × Nsec3State) :=
  match findMatchingNsec3 env flt qinfo.qname s with
  | (some rr, s) => some (nodsMatching qinfo rr, s)
  | (none, s) =>
    if s.calculations = maxNsec3Errors then some ((.bogus, none), s)
    else if maxNsec3Calculations ≤ s.calculations then some ((.unchecked, none), s)
    else
      match nsec3ProveClosestEncloser env fuel flt qinfo true s with
      | none => none
      | some (sec, ce, s) =>
        if sec = .unchecked then some ((.unchecked, none), s)
        else if sec ≠ .secure then some ((.bogus, some "no NSEC3 closest encloser"), s)
        else some (nodsOptout (ce.bind CeResponse.ncRr), s)

/-- `nsec3_prove_nods`, with the reason that it sets. -/
def nsec3ProveNods : Option ((SecStatus × Option String) × Nsec3State) :=
  match kkey with
  | none => some ((.bogus, some "no valid NSEC3s"), s)
  | some kkey =>
    if list = [] ∨ ¬ kkey.isgood then some ((.bogus, some "no valid NSEC3s"), s)
    else if ¬ listIsSecure list then some ((.bogus, some "not all NSEC3 records secure"), s)
    else
      match filterInit list qinfo with
      | none => some ((.bogus, some "no NSEC3 records"), s)
      | some flt =>
        if nsec3IterationCountHigh ve flt kkey then some ((.insecure, none), s)
        else
          (nsec3DoProveNods env fuel flt qinfo { s with calculations := 0 }).map fun r =>
            (r.1, { r.2 with calculations := s.calculations })

/-- What `nsec3_prove_nxornodata` returns after both proofs. -/
def nxornodataStatus (secnx sec : SecStatus) : SecStatus × Bool :=
  if sec = .secure then (sec, true)
  else if sec = .insecure then (sec, true)
  else if secnx = .insecure then (.insecure, false)
  else (sec, false)

/-- `nsec3_prove_nxornodata`, with the value of `nodata`. -/
def nsec3ProveNxornodata : Option ((SecStatus × Bool) × Nsec3State) :=
  match proveStart ve list qinfo kkey with
  | .error sec => some ((sec, false), s)
  | .ok flt =>
    match nsec3DoProveNameerror env fuel flt qinfo s with
    | none => none
    | some (secnx, s) =>
      if secnx = .secure then some ((.secure, false), s)
      else if secnx = .unchecked then some ((.unchecked, false), s)
      else
        match nsec3DoProveNodata env fuel flt qinfo s with
        | none => none
        | some (sec, s) => some (nxornodataStatus secnx sec, s)

end

inductive Nsec3Proof
  | nameerror
  | nodata
  | wildcard (wc : Name)
  | nods
  | nxornodata

/-- The status and the state after a proof; `none` when `fuel` rounds do not end its search. -/
def runNsec3Proof (env : Nsec3Env) (fuel : Nat) (ve : List (Nat × Nat)) (list : List RrsetKey)
    (qinfo : QueryInfo) (kkey : Option KeyEntry) (s : Nsec3State) :
    Nsec3Proof → Option (SecStatus × Nsec3State)
  | .nameerror => nsec3ProveNameerror env fuel ve list qinfo kkey s
  | .nodata => nsec3ProveNodata env fuel ve list qinfo kkey s
  | .wildcard wc => some (nsec3ProveWildcard env ve list qinfo kkey wc s)
  | .nods => (nsec3ProveNods env fuel ve list qinfo kkey s).map fun r => (r.1.1, r.2)
  | .nxornodata => (nsec3ProveNxornodata env fuel ve list qinfo kkey s).map fun r => (r.1.1, r.2)

open List

/-- What the hash cache distinguishes: the name without letter case, and the parameters. -/
abbrev HashKey := Name × UInt8 × Nat × List UInt8

def hashKey (dname : Name) (rr : Nsec3Rr) : HashKey :=
  (lowerName dname, nsec3GetAlgo rr, nsec3GetIter rr, (nsec3GetSalt rr).getD [])

def Nsec3CachedHash.key (c : Nsec3CachedHash) : HashKey := hashKey c.dname c.nsec3

theorem saltCmp_eq_iff : saltCmp s1 s2 = .eq ↔ s1.getD [] = s2.getD [] := by
  unfold saltCmp
  by_cases h : (s1.getD []).length = 0 ∧ (s2.getD []).length = 0
  · rw [if_pos h]
    simp only [true_iff]
    rw [length_eq_zero_iff.1 h.1, length_eq_zero_iff.1 h.2]
  rw [if_neg h]
  cases s1 with
  | none =>
    simp only [Option.getD_none, length_nil, true_and] at h
    simp only [reduceCtorEq, Option.getD_none, false_iff]
    exact fun hc => h (by rw [← hc]; rfl)
  | some a =>
    cases s2 with
    | none =>
      simp only [Option.getD_none, length_nil, and_true] at h
      simp only [reduceCtorEq, Option.getD_none, false_iff]
      exact fun hc => h (by rw [hc]; rfl)
    | some b =>
      simp only [Option.getD_some]
      by_cases hl : a.length = b.length
      · rw [if_neg (not_not.2 hl)]
        exact ⟨LawfulEqCmp.eq_of_compare, fun h => h ▸ ReflCmp.compare_self⟩
      · rw [if_pos hl]
        constructor
        · intro hc
          split at hc <;> cases hc
        · intro hc
          exact absurd (congrArg length hc) hl

theorem nsec3HashCmp_eq_iff : nsec3HashCmp d1 r1 d2 r2 = .eq ↔ hashKey d1 r1 = hashKey d2 r2 := by
  unfold nsec3HashCmp hashKey
  by_cases hd : queryDnameCompare d1 d2 = .eq
  · rw [if_neg (not_not.2 hd), (queryDnameCompare_eq_iff _ _).1 hd]
    by_cases ha : nsec3GetAlgo r1 = nsec3GetAlgo r2
    · rw [if_neg (not_not.2 ha), ha]
      by_cases hi : nsec3GetIter r1 = nsec3GetIter r2
      · rw [if_neg (not_not.2 hi), hi, saltCmp_eq_iff]
        simp
      · rw [if_pos hi]
        simp only [Prod.mk.injEq, hi, false_and, and_false, iff_false]
        split <;> simp
    · rw [if_pos ha]
      simp only [Prod.mk.injEq, ha, false_and, and_false, iff_false]
      split <;> simp
  · rw [if_pos hd]
    simp only [hd, Prod.mk.injEq, false_iff]
    exact fun hc => hd ((queryDnameCompare_eq_iff _ _).2 hc.1)

theorem length_nsec3Hash (iter : Nat) :
    (nsec3Hash env iter salt dname).length = 20 := by
  cases iter with
  | zero => exact Vector.length_toList
  | succ iter => exact Vector.length_toList

theorem nsec3Hash_congr (iter : Nat) (h : lowerName m = lowerName n) :
    nsec3Hash env iter salt m = nsec3Hash env iter salt n := by
  unfold nsec3Hash
  rw [h]

theorem length_b32NtopExtendedHex (src : List UInt8) (h : src.length % 5 = 0) :
    (b32NtopExtendedHex src).length = src.length / 5 * 8 := by
  fun_induction b32NtopExtendedHex src with
  | case1 s0 s1 s2 s3 s4 src ih =>
    simp only [length_cons] at h
    simp only [cons_append, nil_append, length_cons, ih (by omega)]
    omega
  | case2 => simp at h
  | case3 => simp at h
  | case4 => simp at h
  | case5 => simp at h
  | case6 => rfl

def Uncached (ct : List Nsec3CachedHash) (k : HashKey) : Prop := ∀ c ∈ ct, c.key ≠ k

def newHash (env : Nsec3Env) (rr : Nsec3Rr) (nm : Name) (salt : List UInt8) : Nsec3CachedHash :=
  ⟨rr, nm, nsec3Hash env (nsec3GetIter rr) salt nm,
    b32NtopExtendedHex (nsec3Hash env (nsec3GetIter rr) salt nm)⟩

/-- Everything that `nsec3_hash_name` can do. -/
inductive HashNameSpec (env : Nsec3Env) (rr : Nsec3Rr) (nm : Name) (s : Nsec3State) :
    HashReturn × Nsec3State → Prop
  | cached (c : Nsec3CachedHash) (mem : c ∈ s.ct) (key : c.key = hashKey nm rr) :
    HashNameSpec env rr nm s (.cached c, s)
  | malloc (n m : Nat) (fail : env.mem m = false) :
    HashNameSpec env rr nm s (.malloc, { s with allocs := n })
  | malformed (fresh : Uncached s.ct (hashKey nm rr))
    (bad : nsec3GetSalt rr = none ∨ nsec3GetAlgo rr ≠ 1) :
    HashNameSpec env rr nm s (.malformed, { s with allocs := s.allocs + 1 })
  | computed (salt : List UInt8) (hsalt : nsec3GetSalt rr = some salt)
    (halgo : nsec3GetAlgo rr = 1) (fresh : Uncached s.ct (hashKey nm rr)) :
    HashNameSpec env rr nm s (.computed (newHash env rr nm salt),
      { s with ct := newHash env rr nm salt :: s.ct, allocs := s.allocs + 3 })

theorem nsec3CalcName_spec (fresh : Uncached s.ct (hashKey nm rr)) :
    HashNameSpec env rr nm s (nsec3CalcName env rr nm s) := by
  unfold nsec3CalcName
  by_cases h0 : env.mem s.allocs = true
  · simp only [h0, not_true_eq_false, if_false]
    cases hsalt : nsec3GetSalt rr with
    | none => exact .malformed fresh (.inl hsalt)
    | some salt =>
      by_cases halgo : nsec3GetAlgo rr = 1
      · have hlen := length_b32NtopExtendedHex (nsec3Hash env (nsec3GetIter rr) salt nm)
          (by rw [length_nsec3Hash])
        rw [length_nsec3Hash] at hlen
        simp only [halgo, ne_eq, not_true_eq_false, if_false, hlen]
        by_cases h1 : env.mem (s.allocs + 1) = true
        · by_cases h2 : env.mem (s.allocs + 2) = true
          · simp only [h1, h2, not_true_eq_false, if_false]
            exact .computed salt hsalt halgo fresh
          · simp only [h1, h2]
            exact .malloc _ _ (Bool.eq_false_iff.2 h2)
        · simp only [h1]
          exact .malloc _ _ (Bool.eq_false_iff.2 h1)
      · simp only [ne_eq, halgo, not_false_eq_true, if_true]
        exact .malformed fresh (.inr halgo)
  · simp only [h0]
    exact .malloc _ _ (Bool.eq_false_iff.2 h0)

theorem nsec3HashName_spec (env : Nsec3Env) (rr : Nsec3Rr) (nm : Name) (s : Nsec3State) :
    HashNameSpec env rr nm s (nsec3HashName env rr nm s) := by
  unfold nsec3HashName
  cases h : s.ct.find? fun c => decide (nsec3HashCmp nm rr c.dname c.nsec3 = .eq) with
  | some c =>
    have heq := find?_some h
    rw [decide_eq_true_eq, nsec3HashCmp_eq_iff] at heq
    exact .cached c (mem_of_find?_eq_some h) heq.symm
  | none =>
    apply nsec3CalcName_spec
    intro c hc heq
    have hne := find?_eq_none.1 h c hc
    rw [decide_eq_true_eq, nsec3HashCmp_eq_iff] at hne
    exact hne heq.symm

theorem algo_of_known (h : nsec3Known rr = true) : nsec3GetAlgo rr = 1 := by
  have hk := (Bool.and_eq_true_iff.1 h).2
  unfold nsec3KnownAlgo at hk
  unfold nsec3GetAlgo
  split at hk
  next => cases hk
  next hl =>
    rw [if_neg hl]
    simpa using hk

theorem mem_filterRrs (h : rr ∈ filterRrs flt) :
    nsec3Known rr = true ∧ queryDnameCompare (dnameRemoveLabel rr.dname) flt.zone = .eq ∧
      ∃ s ∈ flt.list, rr ∈ s.rrs := by
  obtain ⟨s, hs, hrr⟩ := mem_flatMap.1 h
  split at hrr
  next => cases hrr
  next =>
    split at hrr
    next => cases hrr
    next hz =>
      obtain ⟨hm, hk⟩ := mem_filter.1 hrr
      obtain ⟨d, -, rfl⟩ := mem_map.1 hm
      exact ⟨hk, not_not.1 hz, s, hs, hm⟩

/-- A property of the cache that every new entry keeps. -/
def CacheInvariant (env : Nsec3Env) (P : List Nsec3CachedHash → Prop) : Prop :=
  ∀ ct rr nm salt, P ct → nsec3GetSalt rr = some salt → P (newHash env rr nm salt :: ct)

end CwdGate.Validator
