import CwdGate.Lib.OrdTree
import CwdGate.Validator.Nsec3

namespace CwdGate.Validator
open Std Lib Function

section

def typeNSEC : UInt16 := 47

def sizeofNegData : Nat := 112

def sizeofNegZone : Nat := 136

/-- An rrset of a reply: the records of `packed_rrset_data`, then its signatures. -/
structure NegRrset where
  dname : Name
  type : UInt16
  rrsetClass : UInt16
  security : SecStatus
  rrData : List (List UInt8)
  rrsigs : List (List UInt8)

/-- The records that `neg_insert_data` takes. -/
def NegRrset.Usable (s : NegRrset) : Prop :=
  s.security = .secure ∨ (s.security = .unchecked ∧ s.rrsigs.length > 0)

instance (s : NegRrset) : Decidable s.Usable :=
  inferInstanceAs (Decidable (s.security = .secure ∨ (_ ∧ _)))

structure ReplyInfo where
  security : SecStatus
  anNumrrsets : Nat
  nsNumrrsets : Nat
  rrsets : List NegRrset

/-- The rrsets that the loops over the authority section visit. -/
def ReplyInfo.authority (rep : ReplyInfo) : List NegRrset :=
  (rep.rrsets.drop rep.anNumrrsets).take rep.nsNumrrsets

/-- The fields that zone and data elements share, by the address of the element. -/
structure NegElems where
  name : Nat → Name
  len : Nat → Nat
  labs : Nat → Nat
  parent : Nat → Option Nat
  count : Nat → Int
  inUse : Nat → Bool

structure NegNsec3 where
  hash : Nat
  iter : Nat
  salt : List UInt8
  deriving DecidableEq

/-- `val_neg_cache`. A tree is the list of its nodes. `dclass`, `dataTree` and `nsec3` belong to
zones, `zone` and the links to data. -/
structure NegCache where
  tree : List Nat
  zones : NegElems
  dclass : Nat → UInt16
  dataTree : Nat → List Nat
  nsec3 : Nat → NegNsec3
  datas : NegElems
  zone : Nat → Nat
  lru : Links
  fresh : Nat
  use : Nat
  max : Nat
  nsec3MaxIter : Nat

namespace NegElems

variable (e : NegElems)

def blank : NegElems := ⟨fun _ => [], fun _ => 0, fun _ => 0, fun _ => none, fun _ => 0,
  fun _ => false⟩

def setParent (p : Nat) (q : Option Nat) : NegElems :=
  { e with parent := update e.parent p q }

def setInUse (p : Nat) (b : Bool) : NegElems :=
  { e with inUse := update e.inUse p b }

def addCounts (d : Int) (p : Nat) : NegElems :=
  { e with count := Lib.addCounts e.parent d (e.labs p) e.count (some p) }

/-- Remove elements with zero count from a tree, and their size from the memory in use. -/
def dropEmpty (size : Nat) (tree : List Nat) (use p : Nat) : List Nat × Nat :=
  Lib.dropEmpty e.parent e.count (fun q => e.len q + size) (e.labs p) (tree, use) (some p)

/-- `neg_setup_zone_node` and `neg_setup_data_node`. -/
def setupNode (p : Nat) (nm : Name) (len labs : Nat) : NegElems where
  name := update e.name p nm
  len := update e.len p len
  labs := update e.labs p labs
  parent := update e.parent p none
  count := update e.count p 0
  inUse := update e.inUse p false

/-- The loop of `neg_zone_chain` and `neg_data_chain`: `n` elements from `p` on, upwards from a
name. -/
def chain (e : NegElems) : Nat → Nat → Name → Nat → Option Nat → NegElems
  | 0, _, _, _, _ => e
  | n + 1, p, nm, i, prev =>
    let e := e.setupNode p nm (wireLen nm) i
    let e := match prev with
      | none => e
      | some q => e.setParent q (some p)
    chain e n (p + 1) (dnameRemoveLabel nm) (i - 1) (some p)

/-- Insert the chain that starts at an element into a tree; its last element gets `parent`. -/
def insertChain (cmp : Nat → Nat → Ordering) (size : Nat) (parent : Option Nat) :
    Nat → NegElems × List Nat × Nat → Option Nat → NegElems × List Nat × Nat
  | fuel + 1, (e, tree, use), some p =>
    let np := e.parent p
    let use := use + (size + e.len p)
    let tree := insertOrd cmp p tree
    let e := if np = none then e.setParent p parent else e
    insertChain cmp size parent fuel (e, tree, use) np
  | _, s, _ => s

/-- Go up from an element until it has at most `m` labels. -/
def closestUp (e : NegElems) (m : Nat) : Nat → Option Nat → Option Nat
  | fuel + 1, some p => if e.labs p ≤ m then some p else closestUp e m fuel (e.parent p)
  | _, _ => none

end NegElems

def valNegDataCompare (e : NegElems) (p : Nat) (nm : Name) (labs : Nat) : Ordering :=
  (dnameCanonLabCmp (e.name p) (e.labs p) nm labs).1

def valNegZoneCompare (e : NegElems) (dclass : Nat → UInt16) (p : Nat) (nm : Name) (labs : Nat)
    (c : UInt16) : Ordering :=
  if dclass p ≠ c then
    if dclass p < c then .lt else .gt
  else (dnameCanonLabCmp (e.name p) (e.labs p) nm labs).1

def valNegCreate (max maxiter : Nat) : NegCache where
  tree := []
  zones := .blank
  dclass _ := 0
  dataTree _ := []
  nsec3 _ := ⟨0, 0, []⟩
  datas := .blank
  zone _ := 0
  lru := ⟨fun _ => none, fun _ => none, none, none⟩
  fresh := 0
  use := 0
  max := max
  nsec3MaxIter := maxiter

section cache
variable (neg : NegCache)

variable (zone : Nat) (nm : Name) (nsec : NegRrset)

def negLruFront (p : Nat) : NegCache := { neg with lru := neg.lru.pushFront p }

def negLruRemove (p : Nat) : NegCache := { neg with lru := neg.lru.remove p }

def negLruTouch (p : Nat) : NegCache :=
  if neg.lru.first = some p then neg else negLruFront (negLruRemove neg p) p

def negDeleteZone (z : Nat) : NegCache :=
  let zones := (neg.zones.setInUse z false).addCounts (-1) z
  let r := zones.dropEmpty sizeofNegZone neg.tree neg.use z
  { neg with zones := zones, tree := r.1, use := r.2 }

/-- `neg_delete_data` up to the check of the zone. -/
def negDropData (el : Nat) : NegCache :=
  let neg := negLruRemove { neg with datas := neg.datas.setInUse el false } el
  let datas := neg.datas.addCounts (-1) el
  let r := datas.dropEmpty sizeofNegData (neg.dataTree (neg.zone el)) neg.use el
  { neg with
    datas := datas
    dataTree := update neg.dataTree (neg.zone el) r.1
    use := r.2 }

def negDeleteData (el : Nat) : NegCache :=
  let neg' := negDropData neg el
  if neg'.dataTree (neg.zone el) = [] then negDeleteZone neg' (neg.zone el) else neg'

def NegCache.numDatas : Nat := (neg.tree.map fun z => (neg.dataTree z).length).sum

def makeSpaceLoop (need : Nat) : Nat → NegCache → NegCache
  | fuel + 1, neg =>
    match neg.lru.last with
    | none => neg
    | some el =>
      if neg.max < neg.use + need then makeSpaceLoop need fuel (negDeleteData neg el) else neg
  | 0, neg => neg

def negMakeSpace (need : Nat) : NegCache := makeSpaceLoop need neg.numDatas neg

def negFindZone (c : UInt16) : Option Nat :=
  neg.tree.find? fun z =>
    valNegZoneCompare neg.zones neg.dclass z nm (dnameCountLabels nm) c = .eq

def negClosestZoneParent (labs : Nat) (c : UInt16) : Option Nat :=
  match findLE (fun z => valNegZoneCompare neg.zones neg.dclass z nm labs c) neg.tree with
  | none => none
  | some p =>
    if valNegZoneCompare neg.zones neg.dclass p nm labs c = .eq then some p
    else if neg.dclass p ≠ c then none
    else neg.zones.closestUp (dnameLabCmp (neg.zones.name p) (neg.zones.labs p) nm labs).2
      (neg.zones.labs p) (some p)

def negClosestDataParent (labs : Nat) : Option Nat :=
  match findLE (fun d => valNegDataCompare neg.datas d nm labs) (neg.dataTree zone) with
  | none => none
  | some p =>
    if valNegDataCompare neg.datas p nm labs = .eq then some p
    else neg.datas.closestUp (dnameLabCmp (neg.datas.name p) (neg.datas.labs p) nm labs).2
      (neg.datas.labs p) (some p)

/-- `neg_zone_chain` with the zone fields of the new elements. -/
def negZoneChain (labs : Nat) (c : UInt16) (parent : Option Nat) : NegCache :=
  let n := labs - parent.elim 0 neg.zones.labs
  let isNew := fun p => neg.fresh ≤ p ∧ p < neg.fresh + n
  { neg with
    zones := neg.zones.chain n neg.fresh nm labs none
    dclass := fun p => if isNew p then c else neg.dclass p
    dataTree := fun p => if isNew p then [] else neg.dataTree p
    nsec3 := fun p => if isNew p then ⟨0, 0, []⟩ else neg.nsec3 p
    fresh := neg.fresh + n }

def negCreateZone (c : UInt16) : NegCache × Option Nat :=
  let labs := dnameCountLabels nm
  let parent := negClosestZoneParent neg nm labs c
  if parent.any fun p => queryDnameCompare (neg.zones.name p) nm = .eq then (neg, parent)
  else
    let n := labs - parent.elim 0 neg.zones.labs
    if n = 0 then (neg, none)
    else
      let el := neg.fresh
      let neg := negZoneChain neg nm labs c parent
      let cmp := fun p q => valNegZoneCompare neg.zones neg.dclass p (neg.zones.name q)
        (neg.zones.labs q) (neg.dclass q)
      let r := NegElems.insertChain cmp sizeofNegZone parent n
        (neg.zones, neg.tree, neg.use) (some el)
      ({ neg with zones := r.1, tree := r.2.1, use := r.2.2 }, some el)

def valNegZoneTakeInuse (z : Nat) : NegCache :=
  if neg.zones.inUse z then neg
  else { neg with zones := (neg.zones.setInUse z true).addCounts 1 z }

/-- The subtree for a perfect match in `neg_insert_data`, made by `neg_data_chain`. -/
def negCreateData (parent : Option Nat) : NegCache × Option Nat :=
  let labs := dnameCountLabels nm
  let n := labs - parent.elim 0 neg.datas.labs
  if n = 0 then (neg, none)
  else
    let el := neg.fresh
    let datas := neg.datas.chain n el nm labs none
    let cmp := fun p q => valNegDataCompare datas p (datas.name q) (datas.labs q)
    let r := NegElems.insertChain cmp sizeofNegData parent n
      (datas, neg.dataTree zone, neg.use) (some el)
    ({ neg with
        datas := r.1
        dataTree := update neg.dataTree zone r.2.1
        zone := fun p => if el ≤ p ∧ p < el + n then zone else neg.zone p
        fresh := neg.fresh + n
        use := r.2.2 }, some el)

/-- The element that `neg_insert_data` works on: an existing one, or a new one. -/
def negFindOrCreateData : NegCache × Option Nat :=
  let parent := negClosestDataParent neg zone nm (dnameCountLabels nm)
  if parent.any fun p => queryDnameCompare (neg.datas.name p) nm = .eq then (neg, parent)
  else negCreateData neg zone nm parent

/-- Take a data element in use or bring it to the front of the LRU list. -/
def negDataTakeInuse (el : Nat) : NegCache :=
  if neg.datas.inUse el then negLruTouch neg el
  else negLruFront { neg with datas := (neg.datas.setInUse el true).addCounts 1 el } el

/-- `nsec3_get_params` of the first record. -/
def nsec3GetParams : Option NegNsec3 :=
  match nsec.rrData with
  | [] => none
  | d :: _ =>
    let rr : Nsec3Rr := ⟨nsec.dname, d⟩
    if ¬ nsec3KnownAlgo rr ∨ nsec3UnknownFlags rr then none
    else (nsec3GetSalt rr).map (⟨(nsec3GetAlgo rr).toNat, nsec3GetIter rr, ·⟩)

def negStoreNsec3 : NegCache :=
  if nsec.type = typeNSEC3 then
    match nsec3GetParams nsec with
    | none => neg
    | some v =>
      if v.iter ≤ neg.nsec3MaxIter ∧ v ≠ neg.nsec3 zone then
        { neg with nsec3 := update neg.nsec3 zone v }
      else neg
  else neg

/-- `nsec3_get_nextowner_b32` into a buffer of `max` octets. -/
def nsec3GetNextownerB32 (rr : Nsec3Rr) (max : Nat) : Option Name :=
  match nsec3GetNextowner rr with
  | none => none
  | some hash =>
    let zone := dnameRemoveLabel rr.dname
    if max < hash.length * 2 + 1 then none
    else
      let b32 := b32NtopExtendedHex hash
      if b32.length < 1 then none
      else if max - (b32.length + 1) < wireLen zone then none
      else some (b32 :: zone)

/-- The end point that `wipeout` reads from a record. -/
def wipeoutEnd : Option Name :=
  match nsec.rrData with
  | [] => none
  | d :: _ =>
    if d.length < 2 + 1 then none
    else if nsec.type = typeNSEC then some (nameAt (d.drop 2))
    else nsec3GetNextownerB32 ⟨nsec.dname, d⟩ 257

/-- The loop of `wipeout`; without end point it runs to the end of the tree. -/
def wipeoutLoop (zone el : Nat) (end' : Option Name) : Nat → NegCache → Option Nat → NegCache
  | fuel + 1, neg, some cur =>
    let next := nextOf (neg.dataTree zone) cur
    if valNegDataCompare neg.datas cur (neg.datas.name el) (neg.datas.labs el) ≠ .gt then
      wipeoutLoop zone el end' fuel neg next
    else if end'.any fun e =>
        valNegDataCompare neg.datas cur e (dnameCountLabels e) ≠ .lt then neg
    else
      let neg := if neg.datas.inUse cur then negDeleteData neg cur else neg
      wipeoutLoop zone el end' fuel neg next
  | _, neg, _ => neg

def wipeout (zone el : Nat) (nsec : NegRrset) : NegCache :=
  match wipeoutEnd nsec with
  | none => neg
  | some e =>
    let apex := neg.zones.name zone
    if ¬ dnameSubdomainC (neg.datas.name el) apex ∨ ¬ dnameSubdomainC e apex then neg
    else
      wipeoutLoop zone el (if queryDnameCompare e apex = .eq then none else some e)
        (neg.dataTree zone).length neg (nextOf (neg.dataTree zone) el)

def negInsertData : NegCache :=
  if ¬ nsec.Usable then neg
  else
    match negFindOrCreateData neg zone nsec.dname with
    | (neg, none) => neg
    | (neg, some el) =>
      wipeout (negStoreNsec3 (negDataTakeInuse neg el) zone nsec) zone el nsec

def negFindOrCreateZone (dname : Name) (c : UInt16) : NegCache × Option Nat :=
  match negFindZone neg dname c with
  | some z => (neg, some z)
  | none => negCreateZone neg dname c

/-- The part under the lock that `val_neg_addreply` and `val_neg_addreferral` share. -/
def negAdd (need : Nat) (dname : Name) (c : UInt16) (rrsets : List NegRrset) : NegCache :=
  match negFindOrCreateZone (negMakeSpace neg need) dname c with
  | (neg, none) => neg
  | (neg, some z) =>
    let neg := valNegZoneTakeInuse neg z
    let neg := rrsets.foldl (fun neg s =>
      if dnameSubdomainC s.dname (neg.zones.name z) then negInsertData neg z s else neg) neg
    if neg.dataTree z = [] then negDeleteZone neg z else neg

end cache

variable (rep : ReplyInfo)

def chainNeed (size : Nat) : Name → Nat
  | [] => size + 1
  | l :: d => size + wireLen (l :: d) + chainNeed size d

/-- `calc_data_need`: each NSEC sets the result anew. -/
def calcDataNeed : Nat :=
  rep.authority.foldl (fun res s =>
    if s.type = typeNSEC then chainNeed sizeofNegData s.dname else res) 0

def calcZoneNeed (d : Name) : Nat := chainNeed sizeofNegZone d

def replyFindSoa : Option NegRrset := rep.authority.find? (·.type = typeSOA)

def replyHasNsec : Bool :=
  rep.security = .secure ∧ rep.authority.any fun s => s.type = typeNSEC ∧ s.security = .secure

def rrsigGetSigner (data : List UInt8) : Option Name :=
  if data.length < 21 then none
  else if dnameValid (data.drop 20) (data.length - 20) = 0 then none
  else some (nameAt (data.drop 20))

def valFindRrsetSigner (s : NegRrset) : Option Name := s.rrsigs.head?.bind rrsigGetSigner

/-- `reply_nsec_signer`: the signer and the class. -/
def replyNsecSigner : Option (Name × UInt16) :=
  rep.authority.findSome? fun s =>
    if s.type = typeNSEC ∨ s.type = typeNSEC3 then
      (valFindRrsetSigner s).map (·, s.rrsetClass)
    else none

/-- The zone of a reply: the owner of its SOA, or else the signer of its NSECs. -/
def replyZone : Option (Name × UInt16) :=
  match replyFindSoa rep with
  | some soa => some (soa.dname, soa.rrsetClass)
  | none => replyNsecSigner rep

def valNegAddreply (neg : NegCache) (rep : ReplyInfo) : NegCache :=
  if ¬ replyHasNsec rep then neg
  else
    match replyZone rep with
    | none => neg
    | some (dname, c) =>
      negAdd neg (calcDataNeed rep + calcZoneNeed dname) dname c
        (rep.authority.filter (·.type = typeNSEC))

def valNegAddreferral (neg : NegCache) (rep : ReplyInfo) (zoneName : Name) : NegCache :=
  match replyNsecSigner rep with
  | none => neg
  | some (signer, c) =>
    if ¬ dnameSubdomainC signer zoneName then neg
    else
      negAdd neg (calcDataNeed rep + calcZoneNeed signer) signer c
        (rep.authority.filter fun s => s.type = typeNSEC ∨ s.type = typeNSEC3)

end

open List

theorem findLE_congr (h : ∀ y ∈ l, c y = c' y) : findLE c l = findLE c' l := by
  unfold findLE
  rw [filter_congr]
  intro y hy
  rw [h y hy]

instance lawfulEqOrdUnit : LawfulEqOrd Unit where
  eq_of_compare _ := rfl

/-- The place of an element in its tree: the tree, and the labels from the root down. -/
def NegElems.path {γ : Type} (e : NegElems) (cls : Nat → γ) (p : Nat) : γ × List Label :=
  (cls p, key (e.name p))

theorem valNegDataCompare_eq (hp : e.labs p = dnameCountLabels (e.name p))
    (hl : labs = dnameCountLabels nm) :
    valNegDataCompare e p nm labs =
      pathCmp compare canonOrd (e.path (fun _ => ()) p) ((), key nm) := by
  rw [valNegDataCompare, hp, hl]
  exact dnameCanonicalCompare_spec (e.name p) nm

theorem valNegZoneCompare_eq (hp : e.labs p = dnameCountLabels (e.name p))
    (hl : labs = dnameCountLabels nm) :
    valNegZoneCompare e dclass p nm labs c =
      pathCmp compare canonOrd (e.path dclass p) (c, key nm) := by
  have hcmp : (dnameCanonLabCmp (e.name p) (dnameCountLabels (e.name p)) nm
      (dnameCountLabels nm)).1 = (key (e.name p)).compareLex canonOrd (key nm) :=
    dnameCanonicalCompare_spec (e.name p) nm
  rw [valNegZoneCompare, hp, hl, hcmp]
  exact ite_lt_eq_then _ _

section
variable {γ : Type} [DecidableEq γ] [Ord γ]

/-- Counted, in canonical order, with label counts and lengths, at addresses given out. -/
structure TreeOk (e : NegElems) (cls : Nat → γ) (elems : List Nat) (fresh : Nat) : Prop where
  counts : CountTree elems (e.path cls) e.parent e.inUse e.count
  sorted : elems.Pairwise fun p q => pathCmp compare canonOrd (e.path cls p) (e.path cls q) = .lt
  labs : ∀ p ∈ elems, e.labs p = dnameCountLabels (e.name p)
  len : ∀ p ∈ elems, e.len p = wireLen (e.name p)
  fresh : ∀ p ∈ elems, p < fresh

variable {e : NegElems} {cls cls' : Nat → γ} {elems : List Nat} {fresh : Nat}

theorem TreeOk.nil : TreeOk e cls [] fresh := ⟨.nil, .nil, nofun, nofun, nofun⟩

/-- Two states of the elements agree on one of them. -/
structure NegElems.AgreeAt (e e' : NegElems) (p : Nat) : Prop where
  name : e'.name p = e.name p
  len : e'.len p = e.len p
  labs : e'.labs p = e.labs p
  parent : e'.parent p = e.parent p
  count : e'.count p = e.count p
  inUse : e'.inUse p = e.inUse p

theorem TreeOk.congr (h : TreeOk e cls elems fresh) (he : ∀ p ∈ elems, e.AgreeAt e' p)
    (hc : ∀ p ∈ elems, cls' p = cls p) (hf : fresh ≤ fresh') : TreeOk e' cls' elems fresh' := by
  have hpath : ∀ p ∈ elems, e'.path cls' p = e.path cls p := fun p hp => by
    rw [NegElems.path, NegElems.path, hc p hp, (he p hp).name]
  constructor
  · exact h.counts.congr hpath (fun p hp => (he p hp).parent) (fun p hp => (he p hp).inUse)
      fun p hp => (he p hp).count
  · apply h.sorted.imp_of_mem
    intro p q hp hq hlt
    rw [hpath p hp, hpath q hq]
    exact hlt
  · intro p hp
    rw [(he p hp).labs, (he p hp).name, h.labs p hp]
  · intro p hp
    rw [(he p hp).len, (he p hp).name, h.len p hp]
  · exact fun p hp => Nat.lt_of_lt_of_le (h.fresh p hp) hf

theorem TreeOk.fuel (h : TreeOk e cls elems fresh) (hp : p ∈ elems) :
    (e.path cls p).2.length + 1 ≤ e.labs p := by
  rw [h.labs p hp, NegElems.path, length_key]
  exact le_rfl

/-- Mark an element and correct the counts above it. -/
def NegElems.mark (e : NegElems) (p : Nat) (b : Bool) : NegElems :=
  (e.setInUse p b).addCounts (if b then 1 else -1) p

section mark
variable {p : Nat}

@[simp] theorem NegElems.mark_len : (e.mark p b).len = e.len := rfl
@[simp] theorem NegElems.mark_inUse : (e.mark p b).inUse = update e.inUse p b := rfl

theorem TreeOk.mark (h : TreeOk e cls elems fresh) (hp : p ∈ elems) (hb : e.inUse p = !b) :
    TreeOk (e.mark p b) cls elems fresh :=
  { h with counts := h.counts.setUsed hp hb (h.fuel hp) }

theorem TreeOk.mark_count (h : TreeOk e cls elems fresh) (hp : p ∈ elems)
    (hq : ¬ (q ∈ elems ∧ Above (e.path cls q) (e.path cls p))) :
    (e.mark p b).count q = e.count q := by
  obtain ⟨xs, hxs, hl, hmem⟩ := h.counts.chain hp
  refine (addCounts_eq hxs ?_ _).trans (if_neg fun hm => hq ((hmem q).1 hm))
  rw [hl]
  exact h.fuel hp

theorem TreeOk.mark_agree (h : TreeOk e cls elems fresh) (hp : p ∈ elems) (hq : q ∉ elems) :
    e.AgreeAt (e.mark p b) q :=
  ⟨rfl, rfl, rfl, rfl, h.mark_count hp fun hm => hq hm.1,
    update_of_ne (ne_of_mem_of_not_mem hp hq).symm _ _⟩

end mark

theorem TreeOk.sublist (h : TreeOk e cls elems fresh) (hs : elems'.Sublist elems)
    (hc : CountTree elems' (e.path cls) e.parent e.inUse e.count) : TreeOk e cls elems' fresh where
  counts := hc
  sorted := h.sorted.sublist hs
  labs p hp := h.labs p (hs.subset hp)
  len p hp := h.len p (hs.subset hp)
  fresh p hp := h.fresh p (hs.subset hp)

theorem TreeOk.release (h : TreeOk e cls elems fresh) (hpos : ∀ q ∈ elems, 0 < e.count q)
    (hp : p ∈ elems) (hu : e.inUse p = true)
    (huse : (elems.map fun q => e.len q + size).sum ≤ use) :
    let e' := e.mark p false
    let r := e'.dropEmpty size elems use p
    TreeOk e' cls r.1 fresh ∧ CountTree.Dropped elems (e'.path cls) e'.count
      (fun q => e.len q + size) use p r := by
  intro e' r
  have h' := h.mark hp (b := false) hu
  have hpos' : ∀ q ∈ elems, 0 < e'.count q ∨ Above (e'.path cls q) (e'.path cls p) := by
    intro q hq
    by_cases hab : Above (e.path cls q) (e.path cls p)
    · exact .inr hab
    · exact .inl (h.mark_count hp (fun hm => hab hm.2) ▸ hpos q hq)
  obtain ⟨hc, hd⟩ := h'.counts.dropEmpty hp hpos' huse (h'.fuel hp)
  exact ⟨h'.sublist hd.sublist hc, hd⟩

theorem TreeOk.take (h : TreeOk e cls elems fresh) (hp : p ∈ elems) (hu : e.inUse p = false)
    (hpos : ∀ q ∈ elems, 0 < e.count q ∨ Above (e.path cls q) (e.path cls p)) :
    TreeOk (e.mark p true) cls elems fresh ∧ ∀ q ∈ elems, 0 < (e.mark p true).count q := by
  have h' := h.mark hp (b := true) hu
  refine ⟨h', fun q hq => (h'.counts.count_pos_iff hq).2 ?_⟩
  rcases hpos q hq with hc | hab
  · obtain ⟨u, hu, huse, hqu⟩ := (h.counts.count_pos_iff hq).1 hc
    refine ⟨u, hu, ?_, hqu⟩
    rw [NegElems.mark_inUse, update_apply]
    split
    · rfl
    · exact huse
  · exact ⟨p, hp, update_self .., hab⟩

inductive Closest (elems : List Nat) (path : Nat → γ × List Label) (k : γ × List Label) :
    Option Nat → Prop
  | none (h : ∀ q ∈ elems, ¬ Above (path q) k) : Closest elems path k none
  | some {p : Nat} (hp : p ∈ elems) (hab : Above (path p) k)
      (h : ∀ q ∈ elems, Above (path q) k → Above (path q) (path p)) :
      Closest elems path k (some p)

theorem TreeOk.closestUp (h : TreeOk e cls elems fresh) {m fuel : Nat} (hp : p ∈ elems)
    (hm : m ≤ (e.path cls p).2.length) (hf : (e.path cls p).2.length < fuel + m) :
    ∃ q ∈ elems, e.closestUp (m + 1) fuel (some p) = some q ∧
      e.path cls q = (cls p, (e.path cls p).2.take m) := by
  induction fuel generalizing p with
  | zero => omega
  | succ fuel ih =>
    have hlabs : e.labs p = (e.path cls p).2.length + 1 := by
      rw [h.labs p hp, NegElems.path, length_key]
      rfl
    rw [NegElems.closestUp]
    by_cases hle : e.labs p ≤ m + 1
    · rw [if_pos hle]
      refine ⟨p, hp, rfl, ?_⟩
      rw [take_of_length_le (by omega)]
      rfl
    · rw [if_neg hle]
      rcases h.counts.up p hp with ⟨hnil, -⟩ | ⟨q, hq, x, hpar, hpath⟩
      · rw [hnil, length_nil] at hlabs
        omega
      · have hlen : (e.path cls p).2.length = (e.path cls q).2.length + 1 := by rw [hpath]; simp
        obtain ⟨r, hr, he, hrp⟩ := ih hq (by omega) (by omega)
        refine ⟨r, hr, by rw [hpar]; exact he, ?_⟩
        have hcls : cls p = cls q := congrArg Prod.fst hpath
        rw [hrp, hpath, take_append_of_le_length (by omega), hcls]

variable [TransOrd γ] [LawfulEqOrd γ]

theorem TreeOk.closest (h : TreeOk e cls elems fresh) {c : γ} {nm : Name} {labs : Nat}
    (hlabs : labs = dnameCountLabels nm) (cmp : Nat → Ordering)
    (hcmp : ∀ p ∈ elems, cmp p = pathCmp compare canonOrd (e.path cls p) (c, key nm)) :
    Closest elems (e.path cls) (c, key nm) (match findLE cmp elems with
      | none => none
      | some p =>
        if cmp p = .eq then some p
        else if cls p ≠ c then none
        else e.closestUp (dnameLabCmp (e.name p) (e.labs p) nm labs).2 (e.labs p) (some p)) := by
  have hfound : ∀ p, findLE cmp elems = some p → p ∈ elems ∧ ∀ q ∈ elems,
      Above (e.path cls q) (c, key nm) → Above (e.path cls q) (e.path cls p) := by
    intro p hf
    rw [findLE_congr hcmp] at hf
    obtain ⟨hp, hle, hlast⟩ := findLE_some h.sorted hf
    exact ⟨hp, fun q hq hab => above_of_between hab (hlast q hq (above_isLE hab)) hle⟩
  cases hf : findLE cmp elems with
  | none =>
    apply Closest.none
    intro q hq hab
    rw [findLE_congr hcmp] at hf
    have hgt := findLE_none hf q hq
    have hle : (pathCmp compare canonOrd (e.path cls q) (c, key nm)).isLE := above_isLE hab
    rw [hgt] at hle
    cases hle
  | some p =>
    obtain ⟨hp, habove⟩ := hfound p hf
    dsimp only
    by_cases he : cmp p = .eq
    · rw [if_pos he]
      rw [hcmp p hp, pathCmp_eq_iff] at he
      exact .some hp (he ▸ .refl _) habove
    rw [if_neg he]
    by_cases hc : cls p = c
    · rw [if_neg (not_not_intro hc), hlabs, h.labs p hp, dnameLabCmp_spec]
      have hle : commonLen (key (e.name p)) (key nm) ≤ (e.path cls p).2.length :=
        commonLen_le_left _ _
      have hfuel : (e.path cls p).2.length <
          dnameCountLabels (e.name p) + commonLen (key (e.name p)) (key nm) := by
        rw [NegElems.path, length_key, dnameCountLabels]
        omega
      obtain ⟨q, hq, hup, hpath⟩ := h.closestUp hp hle hfuel
      rw [hup]
      refine .some hq ?_ fun r hr hab => ?_
      · rw [hpath, hc]
        exact ⟨rfl, take_prefix_of_le_commonLen le_rfl⟩
      · have hrp := habove r hr hab
        rw [hpath]
        refine ⟨hrp.1, ?_⟩
        have hl := length_le_commonLen hrp.2 hab.2
        rw [prefix_take_iff]
        exact ⟨hrp.2, hl⟩
    · rw [if_pos hc]
      apply Closest.none
      intro q hq hab
      exact hc ((habove q hq hab).1.symm.trans hab.1)

/-- `f` at the `n` places from `p` on, counted from there, and `g` elsewhere. -/
def patch {β : Type} (p n : Nat) (f g : Nat → β) (q : Nat) : β :=
  if p ≤ q ∧ q < p + n then f (q - p) else g q

section patch
variable {p n q : Nat}

theorem patch_add (h : i < n) : patch p n f g (p + i) = f i := by
  rw [patch, if_pos (by omega), Nat.add_sub_cancel_left]

theorem patch_of_lt (h : q < p) : patch p n f g q = g q := if_neg (by omega)

theorem patch_succ (f g : Nat → β) :
    patch (p + 1) n (fun i => f (i + 1)) (update g p (f 0)) = patch p (n + 1) f g := by
  funext q
  by_cases hq : q = p
  · rw [hq, patch, if_neg (by omega), update_self, patch, if_pos (by omega), Nat.sub_self]
  · rw [patch, patch, update_of_ne hq]
    by_cases hin : p + 1 ≤ q ∧ q < p + 1 + n
    · have hsub : q - p = q - (p + 1) + 1 := by omega
      rw [if_pos hin, if_pos (by omega), hsub]
    · rw [if_neg hin, if_neg (by omega)]

end patch

theorem NegElems.chain_succ (e : NegElems) (n : Nat) (nm : Name) (i : Nat)
    {prev : Option Nat} (hprev : ∀ q, prev = some q → q < p) :
    e.chain (n + 1) p nm i prev =
      NegElems.chain { e.setupNode p nm (wireLen nm) i with
        parent := update (fun q => if prev = some q then some p else e.parent q) p none }
        n (p + 1) (dnameRemoveLabel nm) (i - 1) (some p) := by
  cases prev with
  | none => rfl
  | some r =>
    have hset : update e.parent r (some p) = fun q => if some r = some q then some p
        else e.parent q := by
      funext q
      simp only [update_apply, Option.some.injEq, eq_comm]
    rw [NegElems.chain, ← hset, update_comm (Nat.ne_of_lt (hprev r rfl))]
    rfl

theorem NegElems.chain_eq (e : NegElems) (n p : Nat) (nm : Name) (i : Nat) (prev : Option Nat)
    (hprev : ∀ q, prev = some q → q < p) :
    e.chain n p nm i prev =
      { name := patch p n (nm.drop ·) e.name
        len := patch p n (fun j => wireLen (nm.drop j)) e.len
        labs := patch p n (i - ·) e.labs
        parent := patch p n (fun j => if j + 1 < n then some (p + j + 1) else none) fun q =>
          if 0 < n ∧ prev = some q then some p else e.parent q
        count := patch p n (fun _ => 0) e.count
        inUse := patch p n (fun _ => false) e.inUse } := by
  induction n generalizing e p nm i prev with
  | zero =>
    have hno : ∀ {β : Type} (f g : Nat → β), patch p 0 f g = g := fun f g =>
      funext fun q => if_neg (by omega)
    simp only [NegElems.chain, hno, Nat.lt_irrefl, false_and, if_false]
  | succ n ih =>
    have hdrop : ∀ j, (dnameRemoveLabel nm).drop j = nm.drop (j + 1) := fun j => by
      rw [dnameRemoveLabel, ← drop_one, drop_drop, Nat.add_comm]
    rw [e.chain_succ n nm i hprev, ih _ _ _ _ _ fun q hq => by cases hq; omega]
    simp only [hdrop]
    congr 1
    · exact patch_succ (nm.drop ·) e.name
    · exact patch_succ (fun j => wireLen (nm.drop j)) e.len
    · simp only [Nat.sub_sub, Nat.add_comm 1]
      exact patch_succ (i - ·) e.labs
    · rw [← patch_succ]
      congr 1
      · funext j
        simp only [Nat.add_lt_add_iff_right, Nat.add_right_comm p 1]
        rfl
      · funext q
        by_cases hq : q = p
        · simp [hq]
        · simp [hq, Ne.symm hq]
    · exact patch_succ (fun _ => 0) e.count
    · exact patch_succ (fun _ => false) e.inUse

theorem NegElems.insertChain_eq {cmp : Nat → Nat → Ordering} {size : Nat} {parent : Option Nat}
    {e : NegElems} {xs : List Nat} {z : Nat} {a : Option Nat} (h : Chain e.parent a (xs ++ [z]))
    {fuel : Nat} (hf : xs.length < fuel) :
    NegElems.insertChain cmp size parent fuel (e, tree, use) a =
      (e.setParent z parent, (xs ++ [z]).foldl (fun t p => insertOrd cmp p t) tree,
        use + ((xs ++ [z]).map fun p => size + e.len p).sum) := by
  induction xs generalizing a fuel tree use with
  | nil =>
    obtain ⟨rfl, hz⟩ := h
    have hz : e.parent z = none := hz
    obtain ⟨fuel, rfl⟩ : ∃ k, fuel = k + 1 := ⟨fuel - 1, by simp at hf; omega⟩
    rw [NegElems.insertChain]
    simp only [hz, if_true]
    cases fuel <;> simp [NegElems.insertChain]
  | cons x xs ih =>
    obtain ⟨rfl, hx⟩ := h
    obtain ⟨fuel, rfl⟩ : ∃ k, fuel = k + 1 := ⟨fuel - 1, by simp at hf; omega⟩
    have hnp : e.parent x ≠ none := by
      cases xs with
      | nil => rw [hx.1]; nofun
      | cons y ys => rw [hx.1]; nofun
    rw [NegElems.insertChain]
    simp only [if_neg hnp]
    rw [ih hx (by simpa using hf)]
    simp [Nat.add_assoc]

omit [DecidableEq γ] [Ord γ] [TransOrd γ] [LawfulEqOrd γ] in
theorem chain_range
    (h : ∀ i < n + 1, f (p + i) = if i + 1 < n + 1 then some (p + i + 1) else none) :
    Chain f (some p) (List.range' p (n + 1)) := by
  induction n generalizing p with
  | zero => exact ⟨rfl, h 0 (by omega)⟩
  | succ n ih =>
    have h0 : f p = some (p + 1) := h 0 (by omega)
    refine ⟨rfl, h0 ▸ ih fun i hi => ?_⟩
    rw [Nat.add_right_comm, Nat.add_assoc, h (i + 1) (by omega)]
    simp only [Nat.add_lt_add_iff_right, Nat.add_assoc]

theorem key_drop_succ {nm : Name} (h : j < nm.length) :
    ∃ x, key (nm.drop j) = key (nm.drop (j + 1)) ++ [x] := by
  rw [drop_eq_getElem_cons h, key_cons]
  exact ⟨_, rfl⟩

structure Created (e : NegElems) (cls : Nat → γ) (elems : List Nat) (fresh n size use : Nat)
    (k : γ × List Label) (out : NegElems × List Nat × Nat) : Prop where
  tree : TreeOk out.1 cls out.2.1 (fresh + n)
  perm : out.2.1.Perm (List.range' fresh n ++ elems)
  use : out.2.2 = use + ((List.range' fresh n).map fun p => size + out.1.len p).sum
  agree : ∀ q < fresh, e.AgreeAt out.1 q
  new : ∀ q ∈ List.range' fresh n, out.1.inUse q = false ∧ Above (out.1.path cls q) k
  head : out.1.path cls fresh = k

omit [TransOrd γ] [LawfulEqOrd γ] in
theorem TreeOk.closest_labels (h : TreeOk e cls elems fresh)
    (hr : Closest elems (e.path cls) (c, key nm) r) (hne : ∀ p, r = some p → key (e.name p) ≠ key nm)
    (hn : n = dnameCountLabels nm - r.elim 0 e.labs) :
    0 < n ∧ n ≤ nm.length + 1 ∧
      (∀ q ∈ elems, Above (e.path cls q) (c, key nm) → (e.path cls q).2.length + n ≤ nm.length) ∧
      (r = none ∧ n = nm.length + 1 ∨
        ∃ p ∈ elems, r = some p ∧ n ≤ nm.length ∧ e.path cls p = (c, key (nm.drop n))) := by
  rw [dnameCountLabels] at hn
  cases hr with
  | none hno =>
    have hn : n = nm.length + 1 := hn
    exact ⟨by omega, by omega, fun q hq hab => absurd hab (hno q hq), .inl ⟨rfl, hn⟩⟩
  | @some p hp hab hmax =>
    have hlen := hab.2.length_le
    have hlt : (key (e.name p)).length ≠ (key nm).length := fun hl =>
      hne p rfl (hab.2.eq_of_length hl)
    have hlabs : (Option.some p).elim 0 e.labs = (e.name p).length + 1 := h.labs p hp
    simp only [NegElems.path, length_key] at hlen hlt
    refine ⟨by omega, by omega, fun q hq hqa => ?_, .inr ⟨p, hp, rfl, by omega, Prod.ext hab.1 ?_⟩⟩
    · have := (hmax q hq hqa).2.length_le
      simp only [NegElems.path, length_key] at this ⊢
      omega
    · have hpl : nm.length - n = (e.path cls p).2.length := by
        simp only [NegElems.path, length_key]
        omega
      rw [key_drop, hpl]
      exact prefix_iff_eq_take.1 hab.2

variable (cls') in
theorem TreeOk.create (h : TreeOk e cls elems fresh) {c : γ} {nm : Name} {r : Option Nat}
    (hr : Closest elems (e.path cls) (c, key nm) r) (hne : ∀ p, r = some p → key (e.name p) ≠ key nm)
    {n : Nat} (hn : n = dnameCountLabels nm - r.elim 0 e.labs)
    (hold : ∀ p < fresh, cls' p = cls p) (hnew : ∀ p, fresh ≤ p → p < fresh + n → cls' p = c)
    (e1 : NegElems) (he1 : e1 = e.chain n fresh nm (dnameCountLabels nm) none)
    {cmp : Nat → Nat → Ordering}
    (hcmp : ∀ p q, e1.labs p = dnameCountLabels (e1.name p) →
      e1.labs q = dnameCountLabels (e1.name q) →
      cmp p q = pathCmp compare canonOrd (e1.path cls' p) (e1.path cls' q)) (size use : Nat) :
    0 < n ∧ Created e cls' elems fresh n size use (c, key nm)
      (NegElems.insertChain cmp size r n (e1, elems, use) (some fresh)) := by
  obtain ⟨hn0, hle, hmax, hcl⟩ := h.closest_labels hr hne hn
  refine ⟨hn0, ?_⟩
  rw [NegElems.chain_eq _ _ _ _ _ _ fun q hq => by cases hq] at he1
  obtain ⟨m, rfl⟩ : ∃ m, n = m + 1 := ⟨n - 1, by omega⟩
  have hin : ∀ {q}, q ∈ range' fresh (m + 1) ↔ ∃ i < m + 1, q = fresh + i := by
    simp [mem_range']
  have hch : Chain e1.parent (some fresh) (range' fresh (m + 1)) := chain_range fun i hi => by
    simp only [he1, patch_add hi]
  have hlast : (range' fresh m).length < m + 1 := by rw [length_range']; omega
  rw [range'_1_concat] at hch
  rw [NegElems.insertChain_eq hch hlast, ← range'_1_concat]
  have hpath : ∀ i < m + 1, e1.path cls' (fresh + i) = (c, key (nm.drop i)) := by
    intro i hi
    rw [NegElems.path, hnew _ (by omega) (by omega)]
    simp only [he1, patch_add hi]
  have hagree : ∀ q < fresh, e.AgreeAt (e1.setParent (fresh + m) r) q := by
    intro q hq
    have hne : q ≠ fresh + m := by omega
    constructor <;> simp [he1, NegElems.setParent, patch_of_lt hq, hne]
  have hsame : ∀ q ∈ elems, (e1.setParent (fresh + m) r).path cls' q = e.path cls q := fun q hq =>
    Prod.ext (hold q (h.fresh q hq)) (congrArg key (hagree q (h.fresh q hq)).name)
  have hkept : TreeOk (e1.setParent (fresh + m) r) cls' elems (fresh + (m + 1)) :=
    h.congr (fun p hp => hagree p (h.fresh p hp)) (fun p hp => hold p (h.fresh p hp))
      (Nat.le_add_right _ _)
  have hfields : ∀ q ∈ range' fresh (m + 1) ++ elems, e1.labs q = dnameCountLabels (e1.name q) ∧
      e1.len q = wireLen (e1.name q) ∧ q < fresh + (m + 1) := by
    intro q hq
    rcases mem_append.1 hq with hq | hq
    · obtain ⟨i, hi, rfl⟩ := hin.1 hq
      rw [he1]
      simp only [patch_add hi, dnameCountLabels, length_drop, true_and]
      omega
    · exact ⟨hkept.labs q hq, hkept.len q hq, hkept.fresh q hq⟩
  have hmap : ((range' fresh (m + 1) ++ elems).map (e1.path cls')).Nodup := by
    rw [map_append, nodup_append]
    refine ⟨Nodup.map_on ?_ nodup_range', nodup_of_pairwise_lt hkept.sorted, ?_⟩
    · intro p hp q hq heq
      obtain ⟨i, hi, rfl⟩ := hin.1 hp
      obtain ⟨j, hj, rfl⟩ := hin.1 hq
      rw [hpath i hi, hpath j hj] at heq
      have := congrArg (fun a => a.2.length) heq
      simp only [length_key, length_drop] at this
      omega
    · intro _ ha _ hb heq
      obtain ⟨_, hp, rfl⟩ := mem_map.1 ha
      obtain ⟨q, hq, rfl⟩ := mem_map.1 hb
      obtain ⟨i, hi, rfl⟩ := hin.1 hp
      rw [hpath i hi] at heq
      have heq := (hsame q hq).symm.trans heq.symm
      have := hmax q hq (by rw [heq, key_drop]; exact ⟨rfl, take_prefix _ _⟩)
      rw [heq, length_key, length_drop] at this
      omega
  have hinj := inj_on_of_nodup_map hmap
  have hnd := hmap.of_map
  have hins := insertAll_congr (P := (· ∈ range' fresh (m + 1) ++ elems))
      (fun p q hp hq => hcmp p q (hfields p hp).1 (hfields q hq).1)
      (fun _ => mem_append_left _) fun _ => mem_append_right _
  change Created _ _ _ _ _ _ _ _ (_, insertAll cmp (range' fresh (m + 1)) elems, _)
  rw [hins]
  have hperm := perm_insertAll hnd hinj hkept.sorted
  refine ⟨⟨hkept.counts.extend hperm hnd hinj ?_ ?_, pairwise_insertAll hkept.sorted,
    fun q hq => (hfields q (hperm.subset hq)).1, fun q hq => (hfields q (hperm.subset hq)).2.1,
    fun q hq => (hfields q (hperm.subset hq)).2.2⟩, hperm, rfl, hagree, ?_, hpath 0 hn0⟩
  · intro p hp
    obtain ⟨i, hi, rfl⟩ := hin.1 hp
    simp only [he1, NegElems.setParent, patch_add hi, and_self]
  · intro p hp
    obtain ⟨i, hi, rfl⟩ := hin.1 hp
    have hp : (e1.setParent (fresh + m) r).path cls' (fresh + i) = _ := hpath i hi
    by_cases hlt : i + 1 < m + 1
    · right
      have hpar : (e1.setParent (fresh + m) r).parent (fresh + i) = some (fresh + i + 1) := by
        refine (update_of_ne (by omega) _ _).trans ?_
        simp only [he1, patch_add hi, if_pos hlt]
      have hup : (e1.setParent (fresh + m) r).path cls' (fresh + (i + 1)) = _ :=
        hpath (i + 1) hlt
      obtain ⟨x, hx⟩ := key_drop_succ (show i < nm.length by omega)
      refine ⟨_, mem_append_left _ (hin.2 ⟨i + 1, hlt, rfl⟩), x, hpar, ?_⟩
      rw [hp, hup, hx]
    · have him : i = m := by omega
      subst him
      rw [hp]
      rcases hcl with ⟨hrn, hmn⟩ | ⟨q, hq, hrq, hmn, hpq⟩
      · left
        rw [drop_of_length_le (by omega)]
        exact ⟨rfl, (update_self ..).trans hrn⟩
      · right
        obtain ⟨x, hx⟩ := key_drop_succ (show i < nm.length by omega)
        refine ⟨q, mem_append_right _ hq, x, (update_self ..).trans hrq, ?_⟩
        rw [hsame q hq, hpq, hx]
  · intro q hq
    obtain ⟨i, hi, rfl⟩ := hin.1 hq
    constructor
    · simp only [he1, NegElems.setParent, patch_add hi]
    · have hp : (e1.setParent (fresh + m) r).path cls' (fresh + i) = _ := hpath i hi
      rw [hp, key_drop]
      exact ⟨rfl, take_prefix _ _⟩

omit [TransOrd γ] [LawfulEqOrd γ] in
theorem Created.use_sum (h : Created e cls elems fresh n size u k out)
    (hf : ∀ p ∈ elems, p < fresh) :
    (out.2.1.map fun p => out.1.len p + size).sum + u =
      out.2.2 + (elems.map fun p => e.len p + size).sum := by
  have hold : (elems.map fun p => out.1.len p + size) = elems.map fun p => e.len p + size :=
    map_congr_left fun p hp => by rw [(h.agree p (hf p hp)).len]
  rw [(h.perm.map _).sum_eq, map_append, sum_append, hold, h.use]
  simp only [Nat.add_comm size]
  omega

end

end CwdGate.Validator
