import CwdGate.Lib.Loop
import CwdGate.Packet.RrType
import CwdGate.Dname.Name

namespace CwdGate.Iterator
open Lib

inductive PktSection where
  | answer
  | authority
  | additional
  deriving DecidableEq, Repr

/-- `rr_parse`. `nameAt` is the name at an offset of the rdata, with the octets that it takes
there. -/
structure RrParse where
  ttl : UInt32
  size : Nat
  outsidePacket : Bool
  rdataLen : Nat
  rdata : List UInt8
  nameAt : Nat → Option (Name × Nat)

structure RrsetParse where
  sect : PktSection
  dname : Name
  type : UInt16
  rrsetClass : UInt16
  flags : Nat
  size : Nat
  rrs : List RrParse
  rrsigs : List RrParse

/-- `msg_parse`, with the RRsets by address. `done` has those before the one a loop looks at, the
last first. The hash table is in lookup order. -/
structure MsgParse where
  flags : UInt16
  qdcount : Nat
  ancount : Nat
  nscount : Nat
  arcount : Nat
  qname : Name
  qtype : UInt16
  qclass : UInt16
  rrsetCount : Int
  anRrsets : Int
  nsRrsets : Int
  arRrsets : Int
  heap : Nat → RrsetParse
  fresh : Nat
  table : List Nat
  done : List Nat
  rest : List Nat

structure QueryInfo where
  qname : Name
  qtype : UInt16
  qclass : UInt16

/-- The configuration, the private addresses and names, and whether there is memory for an RRset. -/
structure ScrubEnv where
  hardenGlue : Bool
  hardenUnknownAdditional : Bool
  privCount : Nat
  privLookupAddr : List UInt8 → Bool
  privLookupName : Name → UInt16 → Bool
  mem : Nat → Bool

def ldnsMaxDomainlen : Nat := 255
def rcodeNoerror : UInt16 := 0
def rcodeNxdomain : UInt16 := 3
def bitQR : UInt16 := 0x8000
def bitAD : UInt16 := 0x20
def bitZ : UInt16 := 0x40

def rrsetScrubOk : Nat := 0x80

section Message

variable (m : MsgParse)

def MsgParse.rrsets : List Nat := m.done.reverse ++ m.rest

def MsgParse.rcode : UInt16 := m.flags &&& 0xf

def MsgParse.rewind : MsgParse := { m with done := [], rest := m.rrsets }

def MsgParse.modify (id : Nat) (f : RrsetParse → RrsetParse) : MsgParse :=
  { m with heap := Function.update m.heap id (f (m.heap id)) }

def MsgParse.advance : MsgParse :=
  match m.rest with
  | [] => m
  | id :: rest => { m with done := id :: m.done, rest := rest }

def removeRrset : MsgParse :=
  match m.rest with
  | [] => m
  | id :: rest =>
    { m with
      rest := rest
      rrsetCount := m.rrsetCount - 1
      anRrsets := m.anRrsets - if (m.heap id).sect = .answer then 1 else 0
      nsRrsets := m.nsRrsets - if (m.heap id).sect = .authority then 1 else 0
      arRrsets := m.arRrsets - if (m.heap id).sect = .additional then 1 else 0
      table := m.table.erase id }

/-- `dname_pkt_compare` gives 0; on names without compression it does what
`query_dname_compare` does. -/
def sameName (d1 d2 : Name) : Bool := queryDnameCompare d1 d2 = .eq

def pktStrictSub (sname dr : Name) : Bool := dnameStrictSubdomainC sname dr

def pktSub (comprname zone : Name) : Bool := dnameSubdomainC comprname zone

def subOfPkt (zone comprname : Name) : Bool := dnameSubdomainC zone comprname

def msgparseHashtableLookup (dname : Name) (type dclass : UInt16) : Option Nat :=
  m.table.find? fun p =>
    wireLen (m.heap p).dname = wireLen dname ∧ (m.heap p).type = type ∧
      (m.heap p).rrsetClass = dclass ∧ (m.heap p).flags = 0 ∧ sameName dname (m.heap p).dname

def soaInAuth : Bool :=
  m.rrsets.any fun id => (m.heap id).type = RrType.soa ∧ (m.heap id).sect = .authority

end Message

def hasAdditional (t : UInt16) : Bool :=
  t = RrType.mb ∨ t = RrType.md ∨ t = RrType.mf ∨ t = RrType.ns ∨ t = RrType.mx ∨
    t = RrType.kx ∨ t = RrType.srv

def additionalOffset (t : UInt16) : Option Nat :=
  if t = RrType.mb ∨ t = RrType.md ∨ t = RrType.mf ∨ t = RrType.ns then some 0
  else if t = RrType.mx ∨ t = RrType.kx then some 2
  else if t = RrType.srv then some 6
  else none

def getAdditionalName (type : UInt16) (rr : RrParse) : Option Name :=
  match additionalOffset type with
  | none => none
  | some offset => if rr.rdataLen < offset + 1 then none else (rr.nameAt offset).map Prod.fst

def markRrset (m : MsgParse) (nm : Name) (dclass type : UInt16) : MsgParse :=
  match msgparseHashtableLookup m nm type dclass with
  | none => m
  | some r =>
    if (m.heap r).sect = .additional then
      m.modify r fun x => { x with flags := x.flags ||| rrsetScrubOk }
    else m

def markRr (rrset : RrsetParse) (m : MsgParse) (rr : RrParse) : MsgParse :=
  match getAdditionalName rrset.type rr with
  | none => m
  | some nm => markRrset (markRrset m nm rrset.rrsetClass RrType.a) nm rrset.rrsetClass RrType.aaaa

def markAdditionalRrset (m : MsgParse) (rrset : RrsetParse) : MsgParse :=
  if !hasAdditional rrset.type then m else rrset.rrs.foldl (markRr rrset) m

def totalSize (rrs : List RrParse) : Nat := (rrs.map RrParse.size).sum

/-- The part of `parse_get_cname_target` that takes all records but the first one out. -/
def useFirst (rrset : RrsetParse) : RrsetParse :=
  if rrset.rrs.length = 1 then rrset
  else { rrset with
    size := totalSize (rrset.rrs.take 1) + totalSize rrset.rrsigs
    rrs := rrset.rrs.take 1 }

def cnameTarget (rrset : RrsetParse) : Option Name :=
  match rrset.rrs with
  | [] => none
  | rr :: _ => if rr.size < 2 + 1 then none else (rr.nameAt 0).map Prod.fst

/-- The labels that take up the first octets of a name. -/
def labelsWithin : Nat → Name → Name
  | _, [] => []
  | len, l :: n => if l.length + 1 ≤ len then l :: labelsWithin (len - (l.length + 1)) n else []

def synthCname (qname : Name) (dnameRrset : RrsetParse) : Option Name :=
  match cnameTarget dnameRrset with
  | none => none
  | some dtarg =>
    if wireLen qname ≤ wireLen dnameRrset.dname then none
    else if wireLen qname + wireLen dtarg - wireLen dnameRrset.dname > ldnsMaxDomainlen then none
    else some (labelsWithin (wireLen qname - wireLen dnameRrset.dname) qname ++ dtarg)

/-- The RRset that `synth_cname_rrset` makes for a DNAME RRset. -/
def synthesized (sname aliasName : Name) (rrset : RrsetParse) : RrsetParse where
  sect := rrset.sect
  dname := sname
  type := RrType.cname
  rrsetClass := rrset.rrsetClass
  flags := 0
  size := 2 + wireLen aliasName
  rrs := [{
    ttl := (rrset.rrs.map RrParse.ttl).headD 0
    size := 2 + wireLen aliasName
    outsidePacket := true
    rdataLen := wireLen aliasName
    rdata := wire aliasName
    nameAt := fun offset => if offset = 0 then some (aliasName, wireLen aliasName) else none }]
  rrsigs := []

/-- `synth_cname_rrset`: the new RRset stands behind the DNAME and is not in the hash table. -/
def synthCnameRrset (m : MsgParse) (sname aliasName : Name) (id : Nat) (nx : List Nat) : MsgParse :=
  { m with
    heap := Function.update m.heap m.fresh (synthesized sname aliasName (m.heap id))
    fresh := m.fresh + 1
    rrsetCount := m.rrsetCount + 1
    anRrsets := m.anRrsets + 1
    done := m.fresh :: id :: m.done
    rest := nx }

section Normalize
variable (env : ScrubEnv) (qinfo : QueryInfo)

variable (m : MsgParse) (sname : Name)

/-- Whether the next RRset is the CNAME that a DNAME gives; nothing when its target is bad. -/
def checkNextCname (sname aliasName : Name) : List Nat → Option (MsgParse × Bool)
  | [] => some (m, false)
  | nx :: _ =>
    if (m.heap nx).type = RrType.cname ∧ sameName sname (m.heap nx).dname then
      match cnameTarget (m.heap nx) with
      | none => none
      | some t => some (m.modify nx useFirst, sameName aliasName t)
    else some (m, false)

def normalizeDname (id : Nat) (nx : List Nat) : Turn (MsgParse × Name) :=
  if (m.heap id).rrs.length ≠ 1 then .fail
  else
    match synthCname sname (m.heap id) with
    | none => .fail
    | some aliasName =>
      match checkNextCname m sname aliasName nx with
      | none => .fail
      | some (m', true) => .next (m'.advance, sname)
      | some (m', false) =>
        if env.mem m'.fresh then .next (synthCnameRrset m' sname aliasName id nx, aliasName)
        else .fail

/-- Whether the CNAME that a DNAME gives for the followed name has this target. -/
def givesTarget (dnameRrset cnameRrset : RrsetParse) : Bool :=
  match synthCname sname dnameRrset, cnameTarget cnameRrset with
  | some aliasName, some t => sameName aliasName t
  | _, _ => false

/-- Whether the RRset after the CNAME `id` is a DNAME that gives this CNAME. -/
def dnameNext (id nx : Nat) : Bool :=
  (m.heap nx).sect = .answer ∧ (m.heap nx).type = RrType.dname ∧ (m.heap nx).rrs.length = 1 ∧
    pktStrictSub sname (m.heap nx).dname ∧ givesTarget sname (m.heap nx) (m.heap id)

/-- Go on behind the CNAME `id`, which changes places with a DNAME after it that gives it. -/
def passCname (id : Nat) : List Nat → MsgParse
  | [] => m.advance
  | nx :: rest =>
    if dnameNext m sname id nx then { m with done := id :: nx :: m.done, rest := rest }
    else m.advance

/-- Go on behind the RRsets of the answer section with this owner. -/
def skipOwner : MsgParse :=
  let same := fun id => decide ((m.heap id).sect = .answer) && sameName sname (m.heap id).dname
  { m with
    done := (m.rest.takeWhile same).reverse ++ m.done
    rest := m.rest.dropWhile same }

def normalizeCname (id : Nat) (nx : List Nat) : Turn (MsgParse × Name) :=
  match cnameTarget (m.heap id) with
  | none => .fail
  | some target =>
    let m' := (passCname m sname id nx).modify id useFirst
    .next (if qinfo.qtype = RrType.any then skipOwner m' sname else m', target)

/-- The loop of `scrub_normalize` over the answer section, with the followed name. -/
def normalizeAnswer (s : MsgParse × Name) : Turn (MsgParse × Name) :=
  match s.1.rest with
  | [] => .stop
  | id :: nx =>
    let r := s.1.heap id
    if r.sect ≠ .answer then .stop
    else if r.type = RrType.dname ∧ pktStrictSub s.2 r.dname then
      normalizeDname env s.1 s.2 id nx
    else if ¬ sameName s.2 r.dname then .next (removeRrset s.1, s.2)
    else if r.type = RrType.cname then normalizeCname qinfo s.1 s.2 id nx
    else if qinfo.qtype ≠ RrType.any ∧ qinfo.qtype ≠ r.type then .next (removeRrset s.1, s.2)
    else if sameName qinfo.qname r.dname then .next ((markAdditionalRrset s.1 r).advance, s.2)
    else .next (s.1.advance, s.2)

def typeAllowedInAuthoritySection (t : UInt16) : Bool :=
  t = RrType.soa ∨ t = RrType.ns ∨ t = RrType.ds ∨ t = RrType.nsec ∨ t = RrType.nsec3

def typeAllowedInAdditionalSection (t : UInt16) : Bool := t = RrType.a ∨ t = RrType.aaaa

/-- Whether an NS RRset of the authority section is not kept; `nsset` tells that there is one. -/
def nsIrrelevant (dname : Name) (nsset : Bool) : Bool :=
  ¬ subOfPkt qinfo.qname dname ∨ m.rcode = rcodeNxdomain ∨
    (m.rcode = rcodeNoerror ∧ soaInAuth m ∧ m.anRrsets = 0) ∨ nsset

/-- A referral answer to a query for type DS: the DS RRset becomes the whole message. -/
def dsAnswer (id : Nat) : MsgParse :=
  { m.modify id fun r => { r with sect := .answer } with
    ancount := (m.heap id).rrs.length + (m.heap id).rrsigs.length
    nscount := 0
    arcount := 0
    anRrsets := 1
    nsRrsets := 0
    arRrsets := 0
    rrsetCount := 1
    done := [id]
    rest := [] }

/-- The loop of `scrub_normalize` over the authority section. -/
def normalizeAuthority (s : MsgParse × Bool) : Turn (MsgParse × Bool) :=
  match s.1.rest with
  | [] => .stop
  | id :: _ =>
    let r := s.1.heap id
    if r.sect ≠ .authority then .stop
    else if r.type = RrType.dname ∨ r.type = RrType.cname ∨ r.type = RrType.a ∨
        r.type = RrType.aaaa then .next (removeRrset s.1, s.2)
    else if env.hardenUnknownAdditional ∧ ¬ typeAllowedInAuthoritySection r.type then
      .next (removeRrset s.1, s.2)
    else if r.type = RrType.ns ∧ nsIrrelevant qinfo s.1 r.dname s.2 then
      .next (removeRrset s.1, s.2)
    else if r.type = RrType.ds ∧ qinfo.qtype = RrType.ds ∧ sameName qinfo.qname r.dname then
      .next (dsAnswer s.1 id, s.2)
    else .next ((markAdditionalRrset s.1 r).advance, s.2 || r.type = RrType.ns)

def isAddress (t : UInt16) : Bool := t = RrType.a ∨ t = RrType.aaaa

def normalizeAdditional : Turn MsgParse :=
  match m.rest with
  | [] => .stop
  | id :: _ =>
    let r := m.heap id
    if r.sect ≠ .additional then .stop
    else if isAddress r.type ∧ r.flags &&& rrsetScrubOk = 0 then .next (removeRrset m)
    else
      let m' := if isAddress r.type then
        m.modify id fun x => { x with flags := x.flags ^^^ (x.flags &&& rrsetScrubOk) } else m
      if r.type = RrType.dname ∨ r.type = RrType.cname ∨ r.type = RrType.ns then
        .next (removeRrset m')
      else if env.hardenUnknownAdditional ∧ ¬ typeAllowedInAdditionalSection r.type then
        .next (removeRrset m')
      else .next m'.advance

def normalizeLoops : Option MsgParse := do
  let s ← loop (normalizeAnswer env qinfo) (m.rest.length + 1) (m, qinfo.qname)
  let s' ← loop (normalizeAuthority env qinfo) (s.1.rest.length + 1) (s.1, false)
  loop (normalizeAdditional env) (s'.1.rest.length + 1) s'.1

def scrubNormalize : Option MsgParse :=
  if m.rcode ≠ rcodeNoerror ∧ m.rcode ≠ rcodeNxdomain then some m
  else normalizeLoops env qinfo m.rewind

end Normalize

section Sanitize

/-- The message, the errors for the client, and the RRsets that go to the cache. -/
structure Sanitized where
  msg : MsgParse
  delAddi : Bool
  addedRrlenEde : Bool
  errinf : List String
  stored : List RrsetParse

variable (env : ScrubEnv) (qinfo : QueryInfo) (zonename : Name)

variable (s : Sanitized) (m : MsgParse)

def sanitizeNsecIsOverreach (rrset : RrsetParse) : Bool :=
  rrset.rrs.any fun rr =>
    match rr.nameAt 0 with
    | none => true
    | some (rhs, used) => rr.rdataLen < used || !pktSub rhs zonename

/-- Take bad records out of an RRset; the result tells whether none is left. -/
def removeRrs (bad : RrParse → Bool) (rrset : RrsetParse) : RrsetParse × Bool :=
  ({ rrset with
    rrs := rrset.rrs.filter fun rr => !bad rr
    size := rrset.size - totalSize (rrset.rrs.filter bad) },
    rrset.rrs.any bad && rrset.rrs.all bad)

def addressSize (type : UInt16) : Nat := if type = RrType.a then 6 else 18

def badLength (type : UInt16) (rr : RrParse) : Bool :=
  isAddress type && rr.size ≠ addressSize type

def scrubSanitizeRrLength (id : Nat) : Sanitized × Bool :=
  let r := s.msg.heap id
  let removed := removeRrs (badLength r.type) r
  let ede := r.rrs.any (badLength r.type) && !s.addedRrlenEde
  ({ s with
    msg := s.msg.modify id fun _ => removed.1
    addedRrlenEde := s.addedRrlenEde || ede
    errinf := if ede then
      s.errinf ++ ["sanitize: records of inappropriate length have been removed."] else s.errinf },
    removed.2)

def privLookupName (name : Name) (dclass : UInt16) : Bool :=
  if 256 ≤ wireLen name then false else env.privLookupName name dclass

/-- The records of a public name that have a private address. -/
def privateAddress (type : UInt16) (rr : RrParse) : Bool :=
  isAddress type && rr.rdataLen + 2 = addressSize type &&
    env.privLookupAddr (rr.rdata.take rr.rdataLen)

def privRrsetBad (rrset : RrsetParse) : RrsetParse × Bool :=
  if env.privCount = 0 then (rrset, false)
  else if privLookupName env rrset.dname rrset.rrsetClass then (rrset, false)
  else removeRrs (privateAddress env rrset.type) rrset

def sanitizeAnswer (s : MsgParse × Bool) : Turn (MsgParse × Bool) :=
  match s.1.rest with
  | [] => .stop
  | id :: _ =>
    let r := s.1.heap id
    if r.sect ≠ .answer then .stop
    else if ¬ sameName qinfo.qname r.dname then
      .next (removeRrset s.1, s.2 || hasAdditional r.type)
    else .next (s.1.advance, s.2)

def Sanitized.remove : Sanitized := { s with msg := removeRrset s.msg }

/-- An RRset that the server may speak for, or NS records for a lame delegation. -/
def sanitizeInside (r : RrsetParse) : Sanitized :=
  if s.delAddi ∧ r.sect = .additional then s.remove
  else if r.type = RrType.nsec ∧ sanitizeNsecIsOverreach zonename r then s.remove
  else { s with msg := s.msg.advance }

/-- Whether an RRset is the NS RRset above the zone of a lame server. -/
def isLame (r : RrsetParse) : Bool :=
  m.anRrsets = 0 ∧ r.type = RrType.ns ∧ r.sect = .authority ∧ m.rcode = rcodeNoerror ∧
    ¬ soaInAuth m ∧ subOfPkt zonename r.dname

/-- The checks of `scrub_sanitize` for an RRset that is not below the zone, and the others. -/
def sanitizeZone (r : RrsetParse) : Sanitized :=
  if pktSub r.dname zonename then sanitizeInside zonename s r
  else if isLame zonename s.msg r then sanitizeInside zonename { s with delAddi := true } r
  else if ¬ env.hardenGlue ∧ isAddress r.type then
    { s.remove with stored := s.stored ++ [r] }
  else { s.remove with delAddi := s.delAddi || hasAdditional r.type }

def sanitizeBody : Turn Sanitized :=
  match s.msg.rest with
  | [] => .stop
  | id :: _ =>
    if isAddress (s.msg.heap id).type then
      let (s₁, gone) := scrubSanitizeRrLength s id
      if gone then .next s₁.remove
      else
        let (r, bad) := privRrsetBad env (s₁.msg.heap id)
        let s₂ := { s₁ with msg := s₁.msg.modify id fun _ => r }
        if bad then .next s₂.remove else .next (sanitizeZone env zonename s₂ r)
    else .next (sanitizeZone env zonename s (s.msg.heap id))

/-- The DNAME RRset that may stay as the first one of the message. -/
def firstDname : Bool :=
  match m.rest with
  | [] => false
  | id :: _ =>
    (m.heap id).type = RrType.dname ∧ (m.heap id).sect = .answer ∧
      pktStrictSub qinfo.qname (m.heap id).dname ∧ pktSub (m.heap id).dname zonename

def scrubSanitize : Option Sanitized := do
  let m₀ := m.rewind
  let m₁ := if firstDname qinfo zonename m₀ then m₀.advance else m₀
  let s ← loop (sanitizeAnswer qinfo) (m₁.rest.length + 1) (m₁, false)
  let m₂ := s.1.rewind
  loop (sanitizeBody env zonename) (m₂.rest.length + 1) ⟨m₂, s.2, false, [], []⟩

def scrubMessage : Option Sanitized :=
  if m.qdcount > 1 then none
  else if m.flags &&& bitQR = 0 then none
  else
    let m := { m with flags := m.flags &&& ~~~(bitAD ||| bitZ) }
    if (m.rcode = rcodeNoerror ∨ m.rcode = rcodeNxdomain) ∧ m.qdcount = 0 then none
    else if m.qdcount = 1 ∧ (¬ sameName m.qname qinfo.qname ∨ m.qtype ≠ qinfo.qtype ∨
        m.qclass ≠ qinfo.qclass) then none
    else (scrubNormalize env qinfo m).bind (scrubSanitize env qinfo zonename)

end Sanitize

open List Function

variable {m : MsgParse} {id : Nat}

theorem sameName_iff : sameName d1 d2 = true ↔ lowerName d1 = lowerName d2 := by
  rw [sameName, decide_eq_true_eq, queryDnameCompare_eq_iff]

structure Same (r r' : RrsetParse) : Prop where
  sect : r'.sect = r.sect
  dname : r'.dname = r.dname
  type : r'.type = r.type
  records : hasAdditional r.type = true → r'.rrs = r.rrs
  target : isAddress r.type = false → cnameTarget r' = cnameTarget r

theorem Same.refl (r : RrsetParse) : Same r r := ⟨rfl, rfl, rfl, fun _ => rfl, fun _ => rfl⟩

theorem Same.trans (h : Same r₁ r₂) (h' : Same r₂ r₃) : Same r₁ r₃ where
  sect := h'.sect.trans h.sect
  dname := h'.dname.trans h.dname
  type := h'.type.trans h.type
  records hadd := (h'.records (by rw [h.type]; exact hadd)).trans (h.records hadd)
  target haddr := (h'.target (by rw [h.type]; exact haddr)).trans (h.target haddr)

theorem cnameTarget_useFirst (r : RrsetParse) : cnameTarget (useFirst r) = cnameTarget r := by
  rw [useFirst]
  split
  case isTrue => rfl
  case isFalse =>
    rw [cnameTarget, cnameTarget]
    cases r.rrs with
    | nil => rfl
    | cons rr rrs => rfl

theorem Same.useFirst (h : hasAdditional r.type = false) : Same r (useFirst r) := by
  have htarget := cnameTarget_useFirst r
  have hrest : (Iterator.useFirst r).sect = r.sect ∧ (Iterator.useFirst r).dname = r.dname ∧
      (Iterator.useFirst r).type = r.type := by
    rw [Iterator.useFirst]
    split
    case isTrue => exact ⟨rfl, rfl, rfl⟩
    case isFalse => exact ⟨rfl, rfl, rfl⟩
  refine ⟨hrest.1, hrest.2.1, hrest.2.2, ?_, fun _ => htarget⟩
  intro hadd
  rw [h] at hadd
  cases hadd

structure Alters (m m' : MsgParse) : Prop where
  heap : ∀ id, Same (m.heap id) (m'.heap id)
  fresh : m'.fresh = m.fresh
  anRrsets : m'.anRrsets = m.anRrsets
  done : m'.done = m.done
  rest : m'.rest = m.rest

theorem Alters.refl (m : MsgParse) : Alters m m := ⟨fun _ => .refl _, rfl, rfl, rfl, rfl⟩

theorem Alters.trans (h : Alters m m') (h' : Alters m' m'') : Alters m m'' where
  heap id := (h.heap id).trans (h'.heap id)
  fresh := h'.fresh.trans h.fresh
  anRrsets := h'.anRrsets.trans h.anRrsets
  done := h'.done.trans h.done
  rest := h'.rest.trans h.rest

theorem MsgParse.modify_heap (m : MsgParse) :
    (m.modify id f).heap j = if j = id then f (m.heap j) else m.heap j := by
  dsimp only [MsgParse.modify]
  rw [update_apply]
  split
  next h => rw [h]
  next => rfl

theorem Alters.modify (h : Same (m.heap id) (f (m.heap id))) : Alters m (m.modify id f) := by
  refine ⟨fun j => ?_, rfl, rfl, rfl, rfl⟩
  rw [m.modify_heap]
  split
  next hj => exact hj ▸ h
  next => exact .refl _

theorem Alters.rrsets (h : Alters m m') : m'.rrsets = m.rrsets := by
  rw [MsgParse.rrsets, MsgParse.rrsets, h.done, h.rest]

def Marked (r : RrsetParse) : Prop := r.flags &&& rrsetScrubOk ≠ 0

instance (r : RrsetParse) : Decidable (Marked r) := inferInstanceAs (Decidable (_ ≠ _))

/-- Only flags of RRsets in the additional section change, for the names `P`. -/
structure Marks (P : Name → Prop) (m m' : MsgParse) : Prop extends Alters m m' where
  marked : ∀ id, Marked (m'.heap id) → Marked (m.heap id) ∨
    ((m.heap id).sect = .additional ∧ P (m.heap id).dname)

theorem Marks.refl (m : MsgParse) : Marks P m m :=
  ⟨.refl m, fun _ h => .inl h⟩

theorem Marks.trans (h : Marks P m m') (h' : Marks P m' m'') : Marks P m m'' where
  toAlters := h.toAlters.trans h'.toAlters
  marked id hid := by
    rcases h'.marked id hid with hmark | ⟨hsect, hname⟩
    · exact h.marked id hmark
    · rw [(h.heap id).sect] at hsect
      rw [(h.heap id).dname] at hname
      exact .inr ⟨hsect, hname⟩

theorem Marks.mono (h : Marks P m m') (hPQ : ∀ n, P n → Q n) : Marks Q m m' :=
  ⟨h.toAlters, fun id hid => (h.marked id hid).imp_right fun ⟨hs, hn⟩ => ⟨hs, hPQ _ hn⟩⟩

theorem markRrset_marks :
    Marks (fun n => lowerName n = lowerName nm) m (markRrset m nm dclass type) := by
  rw [markRrset]
  split
  case h_1 => exact .refl m
  case h_2 r hr =>
    split
    case isFalse => exact .refl m
    case isTrue hsect =>
      have hname : sameName nm (m.heap r).dname = true := by
        have hfound := find?_some hr
        simp only [decide_eq_true_eq] at hfound
        exact hfound.2.2.2.2
      have hsame : Same (m.heap r) { m.heap r with flags := (m.heap r).flags ||| rrsetScrubOk } :=
        ⟨rfl, rfl, rfl, fun _ => rfl, fun _ => rfl⟩
      refine ⟨.modify hsame, ?_⟩
      intro j hj
      rw [m.modify_heap] at hj
      split at hj
      next hjr =>
        rw [hjr]
        exact .inr ⟨hsect, (sameName_iff.1 hname).symm⟩
      next => exact .inl hj

def Gives (r : RrsetParse) (n : Name) : Prop :=
  hasAdditional r.type = true ∧
    ∃ rr ∈ r.rrs, ∃ nm, getAdditionalName r.type rr = some nm ∧ lowerName n = lowerName nm

theorem markRr_marks (hadd : hasAdditional r.type = true) (hrr : rr ∈ r.rrs) (m : MsgParse) :
    Marks (Gives r) m (markRr r m rr) := by
  rw [markRr]
  split
  case h_1 => exact .refl m
  case h_2 nm hnm =>
    have hgives : ∀ n, lowerName n = lowerName nm → Gives r n :=
      fun n hn => ⟨hadd, rr, hrr, nm, hnm, hn⟩
    exact (markRrset_marks.mono hgives).trans (markRrset_marks.mono hgives)

theorem markAdditionalRrset_marks (m : MsgParse) (r : RrsetParse) :
    Marks (Gives r) m (markAdditionalRrset m r) := by
  rw [markAdditionalRrset]
  split
  case isTrue => exact .refl m
  case isFalse hadd =>
    have hadd : hasAdditional r.type = true := by simpa using hadd
    have hfold : ∀ rrs : List RrParse, (∀ rr ∈ rrs, rr ∈ r.rrs) → ∀ m₀ : MsgParse,
        Marks (Gives r) m₀ (rrs.foldl (markRr r) m₀) := by
      intro rrs
      induction rrs with
      | nil => exact fun _ m₀ => .refl m₀
      | cons rr rrs ih =>
        intro hsub m₀
        have hhead := markRr_marks hadd (hsub rr mem_cons_self) m₀
        exact hhead.trans (ih (forall_mem_cons.1 hsub).2 _)
    exact hfold r.rrs (fun _ hrr => hrr) m

def PktSection.rank : PktSection → Nat
  | .answer => 0
  | .authority => 1
  | .additional => 2

def MsgParse.rank (m : MsgParse) (id : Nat) : Nat := (m.heap id).sect.rank

/-- The list of RRsets of a message, which has the sections in order. -/
structure MsgOk (m : MsgParse) : Prop where
  nodup : m.rrsets.Nodup
  fresh : ∀ id ∈ m.rrsets, id < m.fresh
  sorted : m.rrsets.Pairwise fun i j => m.rank i ≤ m.rank j
  anRrsets : m.anRrsets = m.rrsets.countP fun id => (m.heap id).sect = .answer

theorem Alters.rank (h : Alters m m') (id : Nat) : m'.rank id = m.rank id := by
  rw [MsgParse.rank, MsgParse.rank, (h.heap id).sect]

theorem MsgOk.alters (h : MsgOk m) (ha : Alters m m') : MsgOk m' where
  nodup := by
    rw [ha.rrsets]
    exact h.nodup
  fresh := by
    rw [ha.rrsets, ha.fresh]
    exact h.fresh
  sorted := by
    rw [ha.rrsets]
    apply h.sorted.imp
    intro i j hij
    rw [ha.rank, ha.rank]
    exact hij
  anRrsets := by
    rw [ha.rrsets, ha.anRrsets, h.anRrsets]
    congr 2
    funext i
    rw [(ha.heap i).sect]

theorem MsgParse.rrsets_advance (m : MsgParse) : m.advance.rrsets = m.rrsets := by
  rw [MsgParse.advance]
  cases hrest : m.rest with
  | nil => rfl
  | cons id rest => simp [MsgParse.rrsets, hrest]

theorem MsgOk.perm (h : MsgOk m) (hheap : m'.heap = m.heap) (hfresh : m'.fresh = m.fresh)
    (han : m'.anRrsets = m.anRrsets) (hperm : m'.rrsets.Perm m.rrsets)
    (hsorted : m'.rrsets.Pairwise fun i j => m.rank i ≤ m.rank j) : MsgOk m' where
  nodup := hperm.nodup_iff.2 h.nodup
  fresh i hi := by
    rw [hfresh]
    exact h.fresh i (hperm.mem_iff.1 hi)
  sorted := by
    simp only [MsgParse.rank, hheap]
    exact hsorted
  anRrsets := by
    rw [han, hheap, hperm.countP_eq]
    exact h.anRrsets

theorem MsgOk.advance (h : MsgOk m) : MsgOk m.advance := by
  have hrrsets := m.rrsets_advance
  rw [MsgParse.advance] at hrrsets ⊢
  split at hrrsets
  case h_1 => exact h
  case h_2 => exact h.perm rfl rfl rfl (.of_eq hrrsets) (hrrsets ▸ h.sorted)

theorem MsgOk.rewind (h : MsgOk m) : MsgOk m.rewind := ⟨h.nodup, h.fresh, h.sorted, h.anRrsets⟩

theorem MsgParse.rrsets_eq (hrest : m.rest = id :: nx) : m.rrsets = m.done.reverse ++ id :: nx := by
  rw [MsgParse.rrsets, hrest]

theorem mem_rest (hrest : m.rest = id :: nx) : id ∈ m.rest := by
  rw [hrest]
  exact mem_cons_self

theorem mem_rrsets (hi : i ∈ m.rest) : i ∈ m.rrsets := mem_append_right _ hi

theorem mem_rrsets_iff (hrest : m.rest = []) : i ∈ m.rrsets ↔ i ∈ m.done := by
  rw [MsgParse.rrsets, hrest, append_nil, mem_reverse]

theorem removeRrset_rrsets (hrest : m.rest = id :: nx) :
    (removeRrset m).rrsets = m.done.reverse ++ nx := by
  rw [removeRrset, hrest]
  rfl

theorem removeRrset_sublist (m : MsgParse) : (removeRrset m).rrsets.Sublist m.rrsets := by
  cases hrest : m.rest with
  | nil =>
    rw [removeRrset, hrest]
  | cons id nx =>
    rw [removeRrset_rrsets hrest, MsgParse.rrsets_eq hrest]
    exact (sublist_cons_self id nx).append_left _

theorem removeRrset_heap :
    (removeRrset m).heap = m.heap ∧ (removeRrset m).fresh = m.fresh ∧
      (removeRrset m).done = m.done := by
  rw [removeRrset]
  split
  case h_1 => exact ⟨rfl, rfl, rfl⟩
  case h_2 => exact ⟨rfl, rfl, rfl⟩

theorem MsgOk.remove (h : MsgOk m) : MsgOk (removeRrset m) := by
  have hsub := removeRrset_sublist m
  obtain ⟨hheap, hfresh, _⟩ := removeRrset_heap
  constructor
  case nodup => exact h.nodup.sublist hsub
  case fresh =>
    intro i hi
    rw [hfresh]
    exact h.fresh i (hsub.subset hi)
  case sorted =>
    simp only [MsgParse.rank, hheap]
    exact h.sorted.sublist hsub
  case anRrsets =>
    cases hrest : m.rest with
    | nil =>
      rw [removeRrset, hrest]
      exact h.anRrsets
    | cons id nx =>
      have hcount := h.anRrsets
      rw [MsgParse.rrsets_eq hrest, countP_append, countP_cons] at hcount
      rw [removeRrset_rrsets hrest, hheap, countP_append]
      have han : (removeRrset m).anRrsets =
          m.anRrsets - if (m.heap id).sect = .answer then 1 else 0 := by
        rw [removeRrset, hrest]
      rw [han, hcount]
      by_cases hsect : (m.heap id).sect = .answer
      · simp only [hsect, decide_true, if_true]
        omega
      · simp only [hsect, decide_false, if_false, Bool.false_eq_true]
        omega

theorem MsgOk.rank_le (h : MsgOk m) (hrest : m.rest = id :: nx) (hj : j ∈ m.rest) :
    m.rank id ≤ m.rank j := by
  have hsorted := h.sorted
  rw [MsgParse.rrsets_eq hrest, pairwise_append] at hsorted
  rw [hrest] at hj
  rcases mem_cons.1 hj with rfl | hj
  · exact le_rfl
  · exact rel_of_pairwise_cons hsorted.2.1 hj

theorem MsgOk.done_le (h : MsgOk m) (hi : i ∈ m.done) (hj : j ∈ m.rest) : m.rank i ≤ m.rank j := by
  have hsorted := h.sorted
  rw [MsgParse.rrsets, pairwise_append] at hsorted
  exact hsorted.2.2 i (mem_reverse.2 hi) j hj

end CwdGate.Iterator
