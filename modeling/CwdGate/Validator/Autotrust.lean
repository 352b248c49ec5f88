import CwdGate.Dname.Name

namespace CwdGate.Validator

inductive AutrState where
  | start
  | addpend
  | valid
  | missing
  | revoked
  | removed
  deriving DecidableEq, Repr

/-- The types that the key list of a trust point can hold. -/
inductive AnchorType where
  | dnskey
  | ds
  deriving DecidableEq, Repr

def AnchorType.toUInt16 : AnchorType → UInt16
  | .dnskey => 48
  | .ds => 43

def minPendingcount : Nat := 2

/-- `autr_ta`, with the fields of the record in `rr`. `addr` is the address of the node. -/
structure AutrTa where
  addr : Nat
  dname : Name
  type : AnchorType
  rrClass : UInt16
  ttl : Nat
  rdata : List UInt8
  lastChange : Int
  s : AutrState
  pendingCount : Nat
  fetched : Bool
  revoked : Bool
  deriving DecidableEq, Repr

/-- The packed rrsets that `autr_assemble` makes. -/
structure AnchorRrset where
  dname : Name
  type : AnchorType
  rrClass : UInt16
  ttl : Int
  rrs : List (Int × List UInt8)
  deriving DecidableEq, Repr

/-- The DNSKEY rrset of a probe: its records with their TTL, and its signatures. -/
structure DnskeyRrset where
  ttl : Int
  rrs : List (Int × List UInt8)
  rrsigs : List (List UInt8)
  deriving DecidableEq, Repr

/-- A trust point with its autotrust data. `fresh` is the next address that the allocator gives. -/
structure TrustPoint where
  name : Name
  keys : List AutrTa
  fresh : Nat
  dsRrset : Option AnchorRrset
  dnskeyRrset : Option AnchorRrset
  numDS : Nat
  numDNSKEY : Nat
  lastQueried : Int
  lastSuccess : Int
  queryInterval : Int
  retryTime : Int
  queryFailed : Nat
  revoked : Bool
  deriving DecidableEq, Repr

/-- The time, the configuration, the cryptographic checks, and whether `set_next_probe` finds the
point. -/
structure AutrEnv where
  now : Int
  addHolddown : Nat
  delHolddown : Nat
  keepMissing : Nat
  permitSmallHolddown : Bool
  verifyDnskey : Option AnchorRrset → Option AnchorRrset → DnskeyRrset → Bool
  selfsignedRevoked : DnskeyRrset → Nat → Bool
  algoIsSupported : DnskeyRrset → Nat → Bool
  sizeIsSupported : DnskeyRrset → Nat → Bool
  keyMatchesADs : DnskeyRrset → Nat → AnchorRrset → Bool
  setNextProbe : Bool

section
variable (env : AutrEnv) (ta : AutrTa) (tp : TrustPoint) (anchor : AutrTa) (rrset : DnskeyRrset)
  (changed : Bool)

def dnskeyBitSep : UInt16 := 0x0001

def keyRevokeKey : UInt16 := 0x0080

def dnskeyFlags (t : AnchorType) : List UInt8 → UInt16
  | hi :: lo :: _ => if t = .dnskey then hi.toUInt16 <<< 8 ||| lo.toUInt16 else 0
  | _ => 0

def rrIsDnskeySep (t : AnchorType) (rdata : List UInt8) : Bool :=
  dnskeyFlags t rdata &&& dnskeyBitSep != 0

def rrIsDnskeyRevoked (t : AnchorType) (rdata : List UInt8) : Bool :=
  dnskeyFlags t rdata &&& keyRevokeKey != 0

def taIsDnskeySep : Bool :=
  rrIsDnskeySep ta.type ta.rdata

def assembleIterateDs (keys : List AutrTa) : List AutrTa :=
  keys.filter fun ta => ta.type = .ds

def assembleIterateDnskey (keys : List AutrTa) : List AutrTa :=
  keys.filter fun ta => ta.type ≠ .ds ∧ (ta.s = .valid ∨ ta.s = .missing)

/-- The TTL starts as the TTL of the last record, and is lowered by the others. -/
def heapTtl (list : List AutrTa) : Int :=
  list.foldl (fun ttl ta => if (ta.ttl : Int) < ttl then ta.ttl else ttl)
    (list.foldl (fun _ ta => (ta.ttl : Int)) 0)

/-- `ub_packed_rrset_heap_key` and `packed_rrset_heap_data` over the elements of an iterator. -/
def packedRrsetHeap : List AutrTa → Option AnchorRrset
  | [] => none
  | ta :: list => some {
      dname := ta.dname
      type := ta.type
      rrClass := ta.rrClass
      ttl := heapTtl (ta :: list)
      rrs := (ta :: list).map fun t => ((t.ttl : Int), t.rdata) }

def autrAssemble : TrustPoint :=
  { tp with
    dsRrset := packedRrsetHeap (assembleIterateDs tp.keys)
    dnskeyRrset := packedRrsetHeap (assembleIterateDnskey tp.keys)
    numDS := (assembleIterateDs tp.keys).length
    numDNSKEY := (assembleIterateDnskey tp.keys).length }

def toInt32 (x : Int) : Int := x.bmod (2 ^ 32)

def rrsigGetExpiry (d : List UInt8) : Int :=
  match d.drop 8 with
  | a :: b :: c :: e :: _ =>
    toInt32 (((a.toNat * 256 + b.toNat) * 256 + c.toNat) * 256 + e.toNat : Nat)
  | _ => 0

def minExpiry (dd : DnskeyRrset) : Int :=
  dd.rrsigs.foldl
    (fun r d =>
      let t := toInt32 (rrsigGetExpiry d - toInt32 env.now)
      if t > 0 then if t < r then t else r else r)
    (15 * 24 * 3600)

def setRevbit : List UInt8 → List UInt8
  | hi :: lo :: rest => hi :: (lo ||| 0x80) :: rest
  | rdata => rdata

def revokeDnskey : AutrTa :=
  if ta.type = .dnskey then { ta with rdata := setRevbit ta.rdata } else ta

def skipRevbitLoop : Nat → List UInt8 → List UInt8 → Int
  | i, x :: a, y :: b =>
    let rdf1 := if i = 1 then x ||| 0x80 else x
    let rdf2 := if i = 1 then y ||| 0x80 else y
    if rdf1 < rdf2 then -1
    else if rdf2 < rdf1 then 1
    else skipRevbitLoop (i + 1) a b
  | _, _, _ => 0

def dnskeyCompareSkipRevbit (a b : List UInt8) : Int :=
  if a.length ≠ b.length then -1 else skipRevbitLoop 0 a b

/-- `ta_compare` with rdata of a DNSKEY. -/
def taCompare (a : AutrTa) (b : List UInt8) : Int :=
  if a.type ≠ .dnskey then (a.type.toUInt16.toNat : Int) - (AnchorType.dnskey.toUInt16.toNat : Int)
  else dnskeyCompareSkipRevbit a.rdata b

def isKey (rdata : List UInt8) (ta : AutrTa) : Bool :=
  taCompare ta rdata == 0

def findKey (keys : List AutrTa) (rdata : List UInt8) : Option AutrTa :=
  keys.find? (isKey rdata)

/-- A write through the pointer that `find_key` returned. -/
def writeFound (rdata : List UInt8) (f : AutrTa → AutrTa) : List AutrTa → List AutrTa
  | [] => []
  | ta :: keys => if isKey rdata ta then f ta :: keys else ta :: writeFound rdata f keys

/-- `add_key` before the element is linked in: `autr_ta_create` zeroes the rest. -/
def newKey (ttl : Int) (rdata : List UInt8) : AutrTa where
  addr := tp.fresh
  dname := tp.name
  type := .dnskey
  rrClass := 1
  ttl := (ttl % 2 ^ 32).toNat
  rdata := rdata
  lastChange := 0
  s := .start
  pendingCount := 0
  fetched := false
  revoked := false

/-- The interval that `set_tp_times` takes from the TTL and the expiry. -/
def tpInterval (permitSmall : Bool) (days div rrsigExp origttl : Int) : Int :=
  let x := days * 24 * 3600
  let x := if origttl.tdiv div < x then origttl.tdiv div else x
  let x := if rrsigExp.tdiv div < x then rrsigExp.tdiv div else x
  if permitSmall then x else if x < 3600 then 3600 else x

def setTpTimes (rrsigExp origttl : Int) (tp : TrustPoint) (changed : Bool) : TrustPoint × Bool :=
  let qi := tpInterval env.permitSmallHolddown 15 2 rrsigExp origttl
  let rt := tpInterval env.permitSmallHolddown 1 10 rrsigExp origttl
  ({ tp with queryInterval := qi, retryTime := rt },
    changed || (tp.queryInterval != qi || tp.retryTime != rt))

def checkHolddown (holddown : Nat) : Int :=
  if env.now < ta.lastChange then 0
  else if env.now - ta.lastChange > holddown then env.now - ta.lastChange - holddown
  else 0

/-- The event functions return the key, and whether they set `changed`. -/
def resetHolddown : AutrTa × Bool :=
  ({ ta with lastChange := env.now }, true)

def setTrustanchorState (s : AutrState) : AutrTa × Bool :=
  resetHolddown env { ta with s := s }

def doNewkey : AutrTa × Bool :=
  if anchor.s = .start then setTrustanchorState env anchor .addpend else (anchor, false)

def doAddtime : AutrTa × Bool :=
  if checkHolddown env anchor env.addHolddown ≠ 0 ∧ anchor.s = .addpend ∧
      minPendingcount ≤ anchor.pendingCount then
    let r := setTrustanchorState env anchor .valid
    ({ r.1 with pendingCount := 0 }, r.2)
  else (anchor, false)

def doRemtime : AutrTa × Bool :=
  if checkHolddown env anchor env.delHolddown ≠ 0 ∧ anchor.s = .revoked then
    setTrustanchorState env anchor .removed
  else (anchor, false)

def doKeyrem : AutrTa × Bool :=
  if anchor.s = .addpend then
    let r := setTrustanchorState env anchor .start
    ({ r.1 with pendingCount := 0 }, r.2)
  else if anchor.s = .valid then setTrustanchorState env anchor .missing
  else (anchor, false)

def doKeypres : AutrTa × Bool :=
  if anchor.s = .missing then setTrustanchorState env anchor .valid else (anchor, false)

def doRevoked : AutrTa × Bool :=
  if anchor.s = .valid ∨ anchor.s = .missing then
    let r := setTrustanchorState env anchor .revoked
    (revokeDnskey r.1, r.2)
  else (anchor, false)

def anchorStateUpdate : AutrTa × Bool :=
  match anchor.s with
  | .start => if anchor.fetched then doNewkey env anchor else (anchor, false)
  | .addpend => if !anchor.fetched then doKeyrem env anchor else doAddtime env anchor
  | .valid =>
    if anchor.revoked then doRevoked env anchor
    else if !anchor.fetched then doKeyrem env anchor
    else if anchor.lastChange = 0 then resetHolddown env anchor
    else (anchor, false)
  | .missing =>
    if anchor.revoked then doRevoked env anchor
    else if anchor.fetched then doKeypres env anchor
    else (anchor, false)
  | .revoked => if anchor.fetched then resetHolddown env anchor else doRemtime env anchor
  | .removed => (anchor, false)

/-- A loop over the key list that calls an event function on the keys it selects. -/
def forKeys (select : AutrTa → Bool) (event : AutrTa → AutrTa × Bool) (tp : TrustPoint)
    (changed : Bool) : TrustPoint × Bool :=
  ({ tp with keys := tp.keys.map fun ta => if select ta then (event ta).1 else ta },
    changed || tp.keys.any fun ta => select ta && (event ta).2)

def autrHolddownExceed : TrustPoint × Bool :=
  forKeys (fun ta => taIsDnskeySep ta && ta.s = .addpend) (doAddtime env) tp changed

/-- What `check_contains_revoked` does to the key of a self-signed revoked record. -/
def seenRevoked : AutrTa × Bool :=
  let r := doRevoked env { ta with revoked := true }
  (r.1, !ta.revoked || r.2)

/-- One round of the loop of `check_contains_revoked`, for the record at index `i`. -/
def containsRevokedRr (i : Nat) (rdata : List UInt8) (st : List AutrTa × Bool) :
    List AutrTa × Bool :=
  if !rrIsDnskeySep .dnskey rdata || !rrIsDnskeyRevoked .dnskey rdata then st
  else
    match findKey st.1 rdata with
    | none => st
    | some ta =>
      if env.selfsignedRevoked rrset i then
        (writeFound rdata (fun ta => (seenRevoked env ta).1) st.1, st.2 || (seenRevoked env ta).2)
      else st

def containsRevokedLoop (env : AutrEnv) (rrset : DnskeyRrset) :
    Nat → List (Int × List UInt8) → List AutrTa × Bool → List AutrTa × Bool
  | _, [], st => st
  | i, rr :: rrs, st =>
    containsRevokedLoop env rrset (i + 1) rrs (containsRevokedRr env rrset i rr.2 st)

def checkContainsRevoked : TrustPoint × Bool :=
  let r := containsRevokedLoop env rrset 0 rrset.rrs (tp.keys, changed)
  ({ tp with keys := r.1 }, r.2)

def seenTrustanchor : AutrTa :=
  { ta with
    fetched := true
    pendingCount := if ta.pendingCount < 250 then ta.pendingCount + 1 else ta.pendingCount }

def initEvents : TrustPoint :=
  { tp with keys := tp.keys.map fun ta => { ta with fetched := false } }

/-- The records that the loop of `update_events` does not skip. -/
def usableRr (i : Nat) (rdata : List UInt8) : Bool :=
  rrIsDnskeySep .dnskey rdata && !rrIsDnskeyRevoked .dnskey rdata &&
    env.algoIsSupported rrset i && env.sizeIsSupported rrset i

/-- A key seen for the first time: VALID if one of the DSes matches. -/
def firstSeen (i : Nat) (rr : Int × List UInt8) (tp : TrustPoint) : AutrTa :=
  let ta := newKey tp rr.1 rr.2
  match tp.dsRrset with
  | some ds => if env.keyMatchesADs rrset i ds then { ta with s := .valid } else ta
  | none => ta

def updateEventsRr (i : Nat) (rr : Int × List UInt8) (st : TrustPoint × Bool) : TrustPoint × Bool :=
  if !usableRr env rrset i rr.2 then st
  else
    match findKey st.1.keys rr.2 with
    | some _ => ({ st.1 with keys := writeFound rr.2 seenTrustanchor st.1.keys }, st.2)
    | none =>
      ({ st.1 with
          keys := seenTrustanchor (firstSeen env rrset i rr st.1) :: st.1.keys
          fresh := st.1.fresh + 1 }, true)

def updateEventsLoop (env : AutrEnv) (rrset : DnskeyRrset) :
    Nat → List (Int × List UInt8) → TrustPoint × Bool → TrustPoint × Bool
  | _, [], st => st
  | i, rr :: rrs, st =>
    updateEventsLoop env rrset (i + 1) rrs (updateEventsRr env rrset i rr st)

def updateEvents : TrustPoint × Bool :=
  let r := updateEventsLoop env rrset 0 rrset.rrs (initEvents tp, changed)
  setTpTimes env (minExpiry env rrset) rrset.ttl r.1 r.2

def stateUpdates : TrustPoint × Bool :=
  forKeys taIsDnskeySep (anchorStateUpdate env) tp changed

def isInitZsk : Bool :=
  ta.type = .dnskey ∧ ta.lastChange = 0 ∧ !taIsDnskeySep ta ∧ ta.s = .valid

def isPendingKsk : Bool :=
  taIsDnskeySep ta && ta.s = .addpend

def isValidKsk : Bool :=
  taIsDnskeySep ta && ta.s = .valid

def initZskToKsk : (TrustPoint × Bool) × Nat :=
  if tp.keys.countP isInitZsk = 0 then ((tp, changed), 0)
  else
    (forKeys isPendingKsk (fun ta => setTrustanchorState env ta .valid) tp changed,
      tp.keys.countP isPendingKsk)

/-- The first part of `remove_missing_trustanchors`: the valid KSKs, made so if there were none. -/
def countValid : (TrustPoint × Bool) × Nat :=
  if tp.keys.countP isValidKsk = 0 then initZskToKsk env tp changed
  else ((tp, changed), tp.keys.countP isValidKsk)

def removeMissing (valid : Nat) (anchor : AutrTa) : AutrTa × Bool :=
  if anchor.s = .start then (anchor, false)
  else if !taIsDnskeySep anchor then
    if valid > 0 then setTrustanchorState env anchor .removed else (anchor, false)
  else if anchor.s ≠ .missing then (anchor, false)
  else if env.keepMissing = 0 then (anchor, false)
  else if checkHolddown env anchor env.keepMissing ≠ 0 ∧ valid > 0 then
    setTrustanchorState env anchor .removed
  else (anchor, false)

def removeLoop (valid : Nat) (tp : TrustPoint) (changed : Bool) : TrustPoint × Bool :=
  if valid = 0 then (tp, changed)
  else forKeys (fun _ => true) (removeMissing env valid) tp changed

def removeMissingTrustanchors : TrustPoint × Bool :=
  let r := countValid env tp changed
  removeLoop env r.2 r.1.1 r.1.2

def doStatetable : TrustPoint × Bool :=
  let r := stateUpdates env tp changed
  removeMissingTrustanchors env r.1 r.2

def stays : Bool :=
  ta.s ≠ .start ∧ ta.s ≠ .removed ∧ ta.type = .dnskey

def clearPending : AutrTa :=
  if ta.s ≠ .addpend then { ta with pendingCount := 0 } else ta

def autrCleanupKeys : TrustPoint :=
  { tp with keys := (tp.keys.filter stays).map clearPending }

/-- `if(changed) autr_assemble(tp)`. -/
def reassemble (r : TrustPoint × Bool) : TrustPoint × Bool :=
  (if r.2 then autrAssemble r.1 else r.1, r.2)

/-- The start of `autr_process_prime`, up to the check for data. -/
def primeHolddown : TrustPoint × Bool :=
  reassemble (autrHolddownExceed env { tp with lastQueried := env.now } false)

/-- The part of `autr_process_prime` that takes out revoked keys. -/
def primeRevoked : TrustPoint × Bool :=
  let r := primeHolddown env tp
  reassemble (checkContainsRevoked env r.1 rrset r.2)

def noAnchors (r : TrustPoint × Bool) : Bool :=
  r.2 && r.1.dsRrset.isNone && r.1.dnskeyRrset.isNone

/-- The probe verifies with the anchors that are left, so that its keys are used. -/
def primeVerifies : Bool :=
  let r := primeRevoked env tp rrset
  !noAnchors r && env.verifyDnskey r.1.dsRrset r.1.dnskeyRrset rrset

def primeEvents : TrustPoint × Bool :=
  let r := primeRevoked env tp rrset
  updateEvents env { r.1 with lastSuccess := env.now, queryFailed := 0 } rrset r.2

end

/-- The trust point after the call, `none` once it has been removed, and the return value. -/
structure PrimeResult where
  tp : Option TrustPoint
  ret : Bool
  deriving DecidableEq

def autrProcessPrime (env : AutrEnv) (tp : TrustPoint) (dnskeyRrset : Option DnskeyRrset) :
    PrimeResult :=
  if tp.revoked then ⟨some tp, false⟩
  else
    match dnskeyRrset with
    | none => ⟨some (primeHolddown env tp).1, true⟩
    | some rrset =>
      let r := primeRevoked env tp rrset
      if noAnchors r then ⟨none, false⟩
      else if !env.verifyDnskey r.1.dsRrset r.1.dnskeyRrset rrset then
        if r.1.lastSuccess ≠ 0 then
          ⟨some { r.1 with queryFailed := (r.1.queryFailed + 1) % 256 }, true⟩
        else ⟨some r.1, true⟩
      else
        let e := primeEvents env tp rrset
        let t := doStatetable env e.1 e.2
        let c := autrCleanupKeys t.1
        if !env.setNextProbe then ⟨none, false⟩
        else
          let a := reassemble (c, t.2)
          if noAnchors a then ⟨none, false⟩ else ⟨some a.1, true⟩

/-- The parts of `autr_process_prime` that change keys. -/
inductive Phase where
  | holddown
  | revoked
  | events
  | statetable
  | zskToKsk
  | removeMissing
  | cleanup
  deriving DecidableEq, Repr

/-- The phases that a call goes through, each with the trust point before and after it. -/
def primeSteps (env : AutrEnv) (tp : TrustPoint) (dnskeyRrset : Option DnskeyRrset) :
    List (Phase × TrustPoint × TrustPoint) :=
  if tp.revoked then []
  else
    let t₁ := (primeHolddown env tp).1
    (.holddown, tp, t₁) ::
    match dnskeyRrset with
    | none => []
    | some rrset =>
      let t₂ := (primeRevoked env tp rrset).1
      (.revoked, t₁, t₂) ::
      if !primeVerifies env tp rrset then []
      else
        let e := primeEvents env tp rrset
        let u := stateUpdates env e.1 e.2
        let z := countValid env u.1 u.2
        let m := removeLoop env z.2 z.1.1 z.1.2
        [(.events, t₂, e.1), (.statetable, e.1, u.1), (.zskToKsk, u.1, z.1.1),
          (.removeMissing, z.1.1, m.1), (.cleanup, m.1, autrCleanupKeys m.1)]

def primeVerified (env : AutrEnv) (tp : TrustPoint) : Option DnskeyRrset → Bool
  | none => false
  | some rrset => !tp.revoked && primeVerifies env tp rrset

/-- How often the loop of `update_events` finds a key in the records from index `i` on. -/
def sightingsFrom (env : AutrEnv) (rrset : DnskeyRrset) (ta : AutrTa) :
    Nat → List (Int × List UInt8) → Nat
  | _, [] => 0
  | i, rr :: rrs =>
    (if usableRr env rrset i rr.2 && isKey rr.2 ta then 1 else 0) +
      sightingsFrom env rrset ta (i + 1) rrs

def sightings (env : AutrEnv) (ta : AutrTa) : Option DnskeyRrset → Nat
  | none => 0
  | some rrset => sightingsFrom env rrset ta 0 rrset.rrs

/-- What one phase can do to one key of the list. -/
inductive KeyEvent (env : AutrEnv) (rrset : Option DnskeyRrset) : Phase → AutrTa → AutrTa → Prop
  | keep (ph ta) : ph ≠ .events →
      (ph = .statetable → taIsDnskeySep ta = true → ta.s = .addpend → ta.fetched = true) →
      KeyEvent env rrset ph ta ta
  | addTime (ph ta) : ph = .holddown ∨ (ph = .statetable ∧ ta.fetched = true) →
      taIsDnskeySep ta = true → ta.s = .addpend → checkHolddown env ta env.addHolddown ≠ 0 →
      minPendingcount ≤ ta.pendingCount →
      KeyEvent env rrset ph ta { ta with s := .valid, lastChange := env.now, pendingCount := 0 }
  | seenRevoked (ta) : KeyEvent env rrset .revoked ta { ta with revoked := true }
  | revBit (ph ta) : ph = .revoked ∨ (ph = .statetable ∧ ta.revoked = true) → ta.type = .dnskey →
      ta.s = .valid ∨ ta.s = .missing →
      KeyEvent env rrset ph ta
        { ta with s := .revoked, lastChange := env.now, revoked := true, rdata := setRevbit ta.rdata }
  | seen (ta f n) : (f = true → 0 < sightings env ta rrset) →
      n ≤ ta.pendingCount + sightings env ta rrset →
      KeyEvent env rrset .events ta { ta with fetched := f, pendingCount := n }
  | newKey (ta) : taIsDnskeySep ta = true → ta.s = .start → ta.fetched = true →
      KeyEvent env rrset .statetable ta { ta with s := .addpend, lastChange := env.now }
  | keyRem (ta) : taIsDnskeySep ta = true → ta.s = .addpend → ta.fetched = false →
      KeyEvent env rrset .statetable ta
        { ta with s := .start, lastChange := env.now, pendingCount := 0 }
  | keyMissing (ta) : taIsDnskeySep ta = true → ta.s = .valid → ta.fetched = false →
      KeyEvent env rrset .statetable ta { ta with s := .missing, lastChange := env.now }
  | keyPres (ta) : taIsDnskeySep ta = true → ta.s = .missing → ta.fetched = true →
      KeyEvent env rrset .statetable ta { ta with s := .valid, lastChange := env.now }
  | resetTime (ta) : ta.s = .valid ∨ ta.s = .revoked →
      KeyEvent env rrset .statetable ta { ta with lastChange := env.now }
  | remTime (ta) : ta.s = .revoked →
      KeyEvent env rrset .statetable ta { ta with s := .removed, lastChange := env.now }
  | trustKsk (ta) : taIsDnskeySep ta = true → ta.s = .addpend →
      KeyEvent env rrset .zskToKsk ta { ta with s := .valid, lastChange := env.now }
  | remove (ta) :
      KeyEvent env rrset .removeMissing ta { ta with s := .removed, lastChange := env.now }
  | clearPending (ta) : ta.s ≠ .addpend →
      KeyEvent env rrset .cleanup ta { ta with pendingCount := 0 }

/-- The key that a record is for, whether it is revoked or not. -/
def AutrTa.Same (ta ta' : AutrTa) : Prop :=
  ta'.type = ta.type ∧ setRevbit ta'.rdata = setRevbit ta.rdata

theorem orRevbit_idem (b : UInt8) : b ||| 0x80 ||| 0x80 = b ||| 0x80 := by
  rw [UInt8.or_assoc]
  rfl

@[simp] theorem setRevbit_setRevbit (rdata : List UInt8) :
    setRevbit (setRevbit rdata) = setRevbit rdata := by
  match rdata with
  | [] => rfl
  | [_] => rfl
  | hi :: lo :: rest => simp [setRevbit, orRevbit_idem]

@[simp] theorem length_setRevbit : (setRevbit rdata).length = rdata.length := by
  match rdata with
  | [] => rfl
  | [_] => rfl
  | hi :: lo :: rest => rfl

theorem or_and_of_disjoint {a b c : UInt16} (h : b &&& c = 0) : (a ||| b) &&& c = a &&& c := by
  have h' : b.toBitVec &&& c.toBitVec = 0#16 := congrArg UInt16.toBitVec h
  apply UInt16.eq_of_toBitVec_eq
  rw [UInt16.toBitVec_and, UInt16.toBitVec_and, UInt16.toBitVec_or]
  ext i hi
  have hbit : (b.toBitVec &&& c.toBitVec)[i] = (0#16)[i] := by rw [h']
  grind

theorem rrIsDnskeySep_setRevbit (t : AnchorType) :
    rrIsDnskeySep t (setRevbit rdata) = rrIsDnskeySep t rdata := by
  match rdata with
  | [] => rfl
  | [_] => rfl
  | hi :: lo :: rest =>
    cases t with
    | ds => rfl
    | dnskey =>
      have hflags : dnskeyFlags .dnskey (setRevbit (hi :: lo :: rest)) =
          dnskeyFlags .dnskey (hi :: lo :: rest) ||| UInt8.toUInt16 0x80 := by
        rw [setRevbit, dnskeyFlags, dnskeyFlags, if_pos rfl, if_pos rfl, UInt8.toUInt16_or,
          UInt16.or_assoc]
      rw [rrIsDnskeySep, rrIsDnskeySep, hflags, or_and_of_disjoint (by decide)]

theorem lo_of_not_revoked (h : rrIsDnskeyRevoked .dnskey (hi :: lo :: rest) = false) :
    (lo ||| 0x80) &&& 0x7f = lo := by
  have hhi :=
    forall_octet (P := fun hi => hi.toUInt16 <<< 8 &&& keyRevokeKey = 0) (by decide +kernel) hi
  have hlo : lo.toUInt16 &&& keyRevokeKey = 0 := by
    rw [rrIsDnskeyRevoked, dnskeyFlags, if_pos rfl, UInt16.or_comm, or_and_of_disjoint hhi] at h
    simpa using h
  revert hlo
  exact forall_octet (P := fun lo => lo.toUInt16 &&& keyRevokeKey = 0 → (lo ||| 0x80) &&& 0x7f = lo)
    (by decide +kernel) lo

theorem eq_of_setRevbit_eq (ha : rrIsDnskeyRevoked .dnskey a = false)
    (hb : rrIsDnskeyRevoked .dnskey b = false) (h : setRevbit a = setRevbit b) : a = b := by
  have hlen : a.length = b.length := by rw [← length_setRevbit, h, length_setRevbit]
  match a, b, hlen with
  | [], [], _ => rfl
  | [_], [_], _ => exact h
  | hi :: lo :: a, hi' :: lo' :: b, _ =>
    simp only [setRevbit, List.cons.injEq] at h
    obtain ⟨rfl, hlo, rfl⟩ := h
    rw [← lo_of_not_revoked ha, hlo, lo_of_not_revoked hb]

theorem octetOrder_eq_zero {u v : UInt8} {z : Int} :
    (if u < v then -1 else if v < u then 1 else z) = 0 ↔ u = v ∧ z = 0 := by
  by_cases hlt : u < v
  case pos =>
    rw [if_pos hlt]
    exact iff_of_false (by decide) fun h => UInt8.lt_irrefl v (h.1 ▸ hlt)
  rw [if_neg hlt]
  by_cases hgt : v < u
  case pos =>
    rw [if_pos hgt]
    exact iff_of_false (by decide) fun h => UInt8.lt_irrefl v (h.1 ▸ hgt)
  have heq : u = v := UInt8.le_antisymm (UInt8.not_lt.1 hgt) (UInt8.not_lt.1 hlt)
  simp [heq]

theorem skipRevbitLoop_eq_zero {i : Nat} (hi : 2 ≤ i) : ∀ {a b : List UInt8},
    a.length = b.length → (skipRevbitLoop i a b = 0 ↔ a = b) := by
  intro a
  induction a generalizing i with
  | nil =>
    intro b hlen
    cases b with
    | nil => simp [skipRevbitLoop]
    | cons y b => simp at hlen
  | cons x a ih =>
    intro b hlen
    cases b with
    | nil => simp at hlen
    | cons y b =>
      have hne : i ≠ 1 := by omega
      rw [skipRevbitLoop, octetOrder_eq_zero, ih (by omega) (Nat.succ.inj hlen), List.cons.injEq,
        if_neg hne, if_neg hne]

theorem dnskeyCompareSkipRevbit_eq_zero {a b : List UInt8} :
    dnskeyCompareSkipRevbit a b = 0 ↔ setRevbit a = setRevbit b := by
  rw [dnskeyCompareSkipRevbit]
  by_cases hlen : a.length = b.length
  case neg =>
    rw [if_pos hlen]
    apply iff_of_false (by decide)
    intro h
    apply hlen
    rw [← length_setRevbit, h, length_setRevbit]
  rw [if_neg (not_not.2 hlen)]
  match a, b, hlen with
  | [], [], _ => simp [skipRevbitLoop, setRevbit]
  | [x], [y], _ => simp [skipRevbitLoop, setRevbit, octetOrder_eq_zero]
  | x :: x' :: a, y :: y' :: b, hlen =>
    have hrest : skipRevbitLoop 2 a b = 0 ↔ a = b :=
      skipRevbitLoop_eq_zero (by omega) (by simpa using hlen)
    simp [skipRevbitLoop, setRevbit, octetOrder_eq_zero, hrest]

theorem isKey_iff :
    isKey rdata ta = true ↔ ta.type = .dnskey ∧ setRevbit ta.rdata = setRevbit rdata := by
  rw [isKey, taCompare]
  cases htype : ta.type with
  | ds => simp [AnchorType.toUInt16]
  | dnskey => simp [dnskeyCompareSkipRevbit_eq_zero]

theorem AutrTa.Same.isKey (h : ta.Same ta') (rdata : List UInt8) :
    Validator.isKey rdata ta' = Validator.isKey rdata ta := by
  rw [Bool.eq_iff_iff, isKey_iff, isKey_iff, h.1, h.2]

theorem AutrTa.Same.refl (ta : AutrTa) : ta.Same ta :=
  ⟨rfl, rfl⟩

theorem AutrTa.Same.trans {a b : AutrTa} (h : a.Same b) (h' : b.Same c) : a.Same c :=
  ⟨h'.1.trans h.1, h'.2.trans h.2⟩

theorem AutrTa.Same.symm {a b : AutrTa} (h : a.Same b) : b.Same a :=
  ⟨h.1.symm, h.2.symm⟩

theorem AutrTa.Same.sightingsFrom (h : ta.Same ta') (env : AutrEnv) (rrset : DnskeyRrset) (i : Nat)
    (rrs : List (Int × List UInt8)) :
    Validator.sightingsFrom env rrset ta' i rrs = Validator.sightingsFrom env rrset ta i rrs := by
  induction rrs generalizing i with
  | nil => rfl
  | cons rr rrs ih =>
    rw [Validator.sightingsFrom, Validator.sightingsFrom, h.isKey, ih]

theorem AutrTa.Same.sightings (h : ta.Same ta') (env : AutrEnv) (rrset : Option DnskeyRrset) :
    Validator.sightings env ta' rrset = Validator.sightings env ta rrset := by
  cases rrset with
  | none => rfl
  | some rrset => exact h.sightingsFrom env rrset 0 rrset.rrs

section
variable (h : KeyEvent env rrset ph ta ta')
include h

theorem KeyEvent.addr_eq : ta'.addr = ta.addr := by
  cases h <;> rfl

theorem KeyEvent.same : ta.Same ta' := by
  cases h with
  | revBit => exact ⟨rfl, setRevbit_setRevbit ta.rdata⟩
  | _ => exact ⟨rfl, rfl⟩

theorem KeyEvent.of_revoked (hs : ta.s = .revoked) : ta'.s = .revoked ∨ ta'.s = .removed := by
  cases h <;> simp_all

theorem KeyEvent.of_removed (hs : ta.s = .removed) : ta'.s = .removed := by
  cases h <;> simp_all

end

theorem type_of_taIsDnskeySep (h : taIsDnskeySep ta = true) : ta.type = .dnskey := by
  cases htype : ta.type with
  | dnskey => rfl
  | ds =>
    rw [taIsDnskeySep, rrIsDnskeySep, htype, dnskeyFlags.eq_def] at h
    split at h <;> simp at h

theorem type_of_isKey (h : isKey rdata ta = true) : ta.type = .dnskey :=
  (isKey_iff.1 h).1

theorem doAddtime_event (hph : ph = .holddown ∨ (ph = .statetable ∧ ta.fetched = true))
    (hsep : taIsDnskeySep ta = true) : KeyEvent env rrset ph ta (doAddtime env ta).1 := by
  rw [doAddtime]
  split
  case isTrue h => exact .addTime ph ta hph hsep h.2.1 h.1 h.2.2
  case isFalse =>
    rcases hph with rfl | ⟨rfl, hf⟩
    · exact .keep _ ta (by decide) (by simp)
    · exact .keep _ ta (by decide) fun _ _ _ => hf

theorem doRevoked_event (hph : ph = .revoked ∨ (ph = .statetable ∧ ta.revoked = true))
    (hta : ta' = { ta with revoked := true }) (htype : ta.type = .dnskey)
    (hs : ta.s = .valid ∨ ta.s = .missing) : KeyEvent env rrset ph ta (doRevoked env ta').1 := by
  subst hta
  rw [doRevoked, if_pos hs]
  have hrevoke : (revokeDnskey (setTrustanchorState env { ta with revoked := true } .revoked).1) =
      { ta with
        s := .revoked, lastChange := env.now, revoked := true, rdata := setRevbit ta.rdata } :=
    if_pos htype
  dsimp only
  rw [hrevoke]
  exact .revBit ph ta hph htype hs

theorem seenRevoked_event (htype : ta.type = .dnskey) :
    KeyEvent env rrset .revoked ta (seenRevoked env ta).1 := by
  rw [seenRevoked]
  by_cases hs : ta.s = .valid ∨ ta.s = .missing
  case pos => exact doRevoked_event (.inl rfl) rfl htype hs
  case neg =>
    simp only [doRevoked, if_neg hs]
    exact .seenRevoked ta

theorem anchorStateUpdate_event (hsep : taIsDnskeySep ta = true) :
    KeyEvent env rrset .statetable ta (anchorStateUpdate env ta).1 := by
  have hkeep : ta.s ≠ .addpend → KeyEvent env rrset .statetable ta ta :=
    fun hs => .keep _ ta (by decide) fun _ _ hs' => absurd hs' hs
  have htype := type_of_taIsDnskeySep hsep
  have hrevoked : ta.revoked = true → ta.s = .valid ∨ ta.s = .missing →
      KeyEvent env rrset .statetable ta (doRevoked env ta).1 := by
    intro hrev
    apply doRevoked_event (.inr ⟨rfl, hrev⟩) _ htype
    rw [← hrev]
  rw [anchorStateUpdate.eq_def]
  cases hs : ta.s with
  | start =>
    cases hf : ta.fetched with
    | false => exact hkeep (by simp [hs])
    | true =>
      rw [if_pos rfl, doNewkey, if_pos hs]
      exact .newKey ta hsep hs hf
  | addpend =>
    cases hf : ta.fetched with
    | false =>
      rw [doKeyrem, if_pos hs]
      exact .keyRem ta hsep hs hf
    | true => simpa using doAddtime_event (.inr ⟨rfl, hf⟩) hsep
  | valid =>
    cases hr : ta.revoked with
    | true => simpa using hrevoked hr (.inl hs)
    | false =>
      cases hf : ta.fetched with
      | false =>
        have hpend : ta.s ≠ .addpend := by simp [hs]
        rw [doKeyrem, if_neg hpend, if_pos hs]
        exact .keyMissing ta hsep hs hf
      | true =>
        simp only [Bool.false_eq_true, if_false, Bool.not_true]
        split
        · exact .resetTime ta (.inl hs)
        · exact hkeep (by simp [hs])
  | missing =>
    cases hr : ta.revoked with
    | true => simpa using hrevoked hr (.inr hs)
    | false =>
      cases hf : ta.fetched with
      | false => exact hkeep (by simp [hs])
      | true =>
        rw [doKeypres, if_pos hs]
        exact .keyPres ta hsep hs hf
  | revoked =>
    cases hf : ta.fetched with
    | true => exact .resetTime ta (.inr hs)
    | false =>
      simp only [Bool.false_eq_true, if_false]
      rw [doRemtime]
      split
      · exact .remTime ta hs
      · exact hkeep (by simp [hs])
  | removed => exact hkeep (by simp [hs])

theorem removeMissing_event :
    KeyEvent env rrset .removeMissing ta (removeMissing env valid ta).1 := by
  have hkeep : KeyEvent env rrset .removeMissing ta ta :=
    .keep _ ta (by decide) (by simp)
  have hremove : KeyEvent env rrset .removeMissing ta (setTrustanchorState env ta .removed).1 :=
    .remove ta
  rw [removeMissing]
  repeat' split
  all_goals assumption

theorem clearPending_event : KeyEvent env rrset .cleanup ta (clearPending ta) := by
  rw [clearPending]
  split
  case isTrue h => exact .clearPending ta h
  case isFalse => exact .keep _ ta (by decide) (by simp)

theorem KeyEvent.revoked_trans (h : KeyEvent env rrset .revoked a b)
    (h' : KeyEvent env rrset .revoked b c) : KeyEvent env rrset .revoked a c := by
  cases h with
  | keep => exact h'
  | addTime _ _ hph => simp at hph
  | seenRevoked =>
    cases h' with
    | keep => exact .seenRevoked a
    | addTime _ _ hph => simp at hph
    | seenRevoked => exact .seenRevoked a
    | revBit _ _ _ htype hs => exact .revBit _ a (.inl rfl) htype hs
  | revBit _ _ _ htype hs =>
    cases h' with
    | keep => exact .revBit _ a (.inl rfl) htype hs
    | addTime _ _ hph => simp at hph
    | seenRevoked => exact .revBit _ a (.inl rfl) htype hs
    | revBit _ _ _ _ hs' => simp at hs'

/-- A key pending after a step was so before, for the same time, with its count up by at most
`n`. -/
structure Carries (n : Nat) (ta ta' : AutrTa) : Prop where
  addr : ta'.addr = ta.addr
  same : ta.Same ta'
  state : ta.s = .addpend
  lastChange : ta'.lastChange = ta.lastChange
  count : ta'.pendingCount ≤ ta.pendingCount + n

theorem Carries.trans {a b c : AutrTa} (h : Carries m a b) (h' : Carries n b c) :
    Carries (m + n) a c where
  addr := h'.addr.trans h.addr
  same := h.same.trans h'.same
  state := h.state
  lastChange := h'.lastChange.trans h.lastChange
  count := by
    have := h.count
    have := h'.count
    omega

theorem KeyEvent.carries (h : KeyEvent env rrset ph ta ta') (hs : ta'.s = .addpend)
    (hevents : ph ≠ .events) (htable : ph ≠ .statetable) : Carries 0 ta ta' := by
  have hsame := h.same
  cases h with
  | keep => exact ⟨rfl, hsame, hs, rfl, le_rfl⟩
  | seenRevoked => exact ⟨rfl, hsame, hs, rfl, le_rfl⟩
  | clearPending _ hne => exact absurd hs hne
  | seen => exact absurd rfl hevents
  | newKey => exact absurd rfl htable
  | resetTime => exact absurd rfl htable
  | _ => cases hs

theorem KeyEvent.carries_seen (h : KeyEvent env rrset .events ta ta') (hs : ta'.s = .addpend) :
    Carries (sightings env ta rrset) ta ta' := by
  have hsame := h.same
  cases h with
  | keep _ _ hne => exact absurd rfl hne
  | addTime _ _ hph => simp at hph
  | revBit _ _ hph => simp at hph
  | seen _ f n _ hn => exact ⟨rfl, hsame, hs, rfl, hn⟩

theorem lt_of_checkHolddown (h : checkHolddown env ta holddown ≠ 0) :
    (holddown : Int) < env.now - ta.lastChange := by
  rw [checkHolddown] at h
  split at h
  case isTrue => exact absurd rfl h
  split at h
  case isTrue hlt => exact hlt
  case isFalse => exact absurd rfl h

/-- In the state table a KSK stays pending, or enters the pending state, only if it was seen. -/
theorem KeyEvent.pending_statetable (h : KeyEvent env rrset .statetable ta ta')
    (hsep : taIsDnskeySep ta = true) (hs : ta'.s = .addpend) :
    ta.fetched = true ∧ (Carries 0 ta ta' ∨
      (ta.s = .start ∧ ta'.lastChange = env.now ∧ ta'.pendingCount = ta.pendingCount)) := by
  have hsame := h.same
  cases h with
  | keep _ _ _ hf => exact ⟨hf rfl hsep hs, .inl ⟨rfl, hsame, hs, rfl, le_rfl⟩⟩
  | newKey _ _ hstart hf => exact ⟨hf, .inr ⟨hstart, rfl, rfl⟩⟩
  | resetTime _ hor =>
    rcases hor with hor | hor
    · exact absurd (hor.symm.trans hs) (by decide)
    · exact absurd (hor.symm.trans hs) (by decide)
  | _ => cases hs

theorem KeyEvent.becomes_valid (h : KeyEvent env rrset ph ta ta') (hs : ta'.s = .valid)
    (hne : ta.s ≠ .valid) :
    (ta.s = .addpend ∧ taIsDnskeySep ta = true ∧ checkHolddown env ta env.addHolddown ≠ 0 ∧
      minPendingcount ≤ ta.pendingCount ∧
      (ph = .holddown ∨ (ph = .statetable ∧ ta.fetched = true))) ∨
    (ta.s = .missing ∧ ph = .statetable ∧ ta.fetched = true) ∨
    (ta.s = .addpend ∧ ph = .zskToKsk) := by
  cases h with
  | addTime _ _ hph hsep hpend htime hcount => exact .inl ⟨hpend, hsep, htime, hcount, hph⟩
  | keyPres _ _ hmissing hf => exact .inr (.inl ⟨hmissing, rfl, hf⟩)
  | trustKsk _ _ hpend => exact .inr (.inr ⟨hpend, rfl⟩)
  | keep => exact absurd hs hne
  | seenRevoked => exact absurd hs hne
  | seen => exact absurd hs hne
  | resetTime => exact absurd hs hne
  | clearPending => exact absurd hs hne
  | _ => cases hs

theorem KeyEvent.of_start (h : KeyEvent env rrset ph ta ta') (hs : ta'.s = .start)
    (htable : ph ≠ .statetable) : ta.s = .start := by
  cases h with
  | keyRem => exact absurd rfl htable
  | resetTime => exact absurd rfl htable
  | keep => exact hs
  | seenRevoked => exact hs
  | seen => exact hs
  | clearPending => exact hs
  | _ => cases hs

theorem KeyEvent.count_eq (h : KeyEvent env rrset ph ta ta') (hs : ta'.s = .start)
    (hph : ph = .holddown ∨ ph = .revoked) : ta'.pendingCount = ta.pendingCount := by
  cases h with
  | seen => simp at hph
  | keyRem => simp at hph
  | clearPending => simp at hph
  | addTime => cases hs
  | _ => rfl

theorem AutrTa.Same.sep (h : ta.Same ta') : taIsDnskeySep ta' = taIsDnskeySep ta := by
  rw [taIsDnskeySep, taIsDnskeySep, ← rrIsDnskeySep_setRevbit, h.1, h.2, rrIsDnskeySep_setRevbit]

end CwdGate.Validator
