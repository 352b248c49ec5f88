import CwdGate.Packet.RrType
import CwdGate.Storage.Dnstree

namespace CwdGate.Localzone
open Lib Function

section

section

inductive LocalzoneType where
  | unset
  | deny
  | refuse
  | static
  | transparent
  | typetransparent
  | redirect
  | nodefault
  | inform
  | informDeny
  | informRedirect
  | alwaysTransparent
  | blockA
  | alwaysRefuse
  | alwaysNxdomain
  | alwaysNodata
  | alwaysDeny
  | alwaysNull
  | noview
  | truncate
  | invalid
  deriving DecidableEq, Repr

def localZoneStr2type (type : String) : Option LocalzoneType :=
  if type = "deny" then some .deny
  else if type = "refuse" then some .refuse
  else if type = "static" then some .static
  else if type = "transparent" then some .transparent
  else if type = "typetransparent" then some .typetransparent
  else if type = "redirect" then some .redirect
  else if type = "inform" then some .inform
  else if type = "inform_deny" then some .informDeny
  else if type = "inform_redirect" then some .informRedirect
  else if type = "always_transparent" then some .alwaysTransparent
  else if type = "block_a" then some .blockA
  else if type = "always_refuse" then some .alwaysRefuse
  else if type = "always_nxdomain" then some .alwaysNxdomain
  else if type = "always_nodata" then some .alwaysNodata
  else if type = "always_deny" then some .alwaysDeny
  else if type = "always_null" then some .alwaysNull
  else if type = "noview" then some .noview
  else if type = "truncate" then some .truncate
  else if type = "nodefault" then some .nodefault
  else none

/-- `struct local_zone`. The parent is the address of a zone. -/
structure LocalZone where
  name : Name
  dclass : UInt16
  type : LocalzoneType
  taglist : Option (List UInt8)
  parent : Option Nat

def LocalZone.namelabs (z : LocalZone) : Nat := dnameCountLabels z.name

def localZoneCreate (name : Name) (type : LocalzoneType) (dclass : UInt16) : LocalZone where
  name := name
  dclass := dclass
  type := type
  taglist := none
  parent := none

def localZoneCmp (a b : LocalZone) : Ordering :=
  if a.dclass ≠ b.dclass then
    if a.dclass < b.dclass then .lt else .gt
  else (dnameLabCmp a.name a.namelabs b.name b.namelabs).1

/-- `struct local_zones`: the zones by address, the tree in order, and the next address. -/
structure LocalZones where
  zone : Nat → LocalZone
  ztree : List Nat
  next : Nat

def taglistIntersect (list1 list2 : Option (List UInt8)) : Bool :=
  match list1, list2 with
  | some l1, some l2 => (List.zipWith (· &&& ·) l1 l2).any (· ≠ 0)
  | _, _ => false

variable (zones : LocalZones)

def LocalZones.setParent (p : Nat) (q : Option Nat) : LocalZones :=
  { zones with zone := update zones.zone p { zones.zone p with parent := q } }

/-- Go up from a zone to one that fits. Parents have fewer labels, which bounds the turns. -/
def LocalZones.goUp (ok : LocalZone → Bool) (p : Nat) : Option Nat :=
  climb (fun q => ok (zones.zone q)) (fun q => (zones.zone q).parent) (zones.zone p).namelabs
    (some p)

def initParent (prev : Option Nat) (node : Nat) : LocalZones :=
  let zones := zones.setParent node none
  match prev with
  | none => zones
  | some prev =>
    let a := zones.zone prev
    let b := zones.zone node
    if a.dclass ≠ b.dclass then zones
    else
      let m := (dnameLabCmp a.name a.namelabs b.name b.namelabs).2
      zones.setParent node (zones.goUp (fun p => p.namelabs ≤ m) prev)

def initParentsLoop (zones : LocalZones) (prev : Option Nat) : List Nat → LocalZones
  | [] => zones
  | node :: rest => initParentsLoop (initParent zones prev node) (some node) rest

def initParents : LocalZones := initParentsLoop zones none zones.ztree

/-- The name that `local_zones_tags_lookup` uses: one higher for type DS. -/
def lookupName (name : Name) (dtype : UInt16) : Name :=
  if dtype = RrType.ds ∧ name ≠ [] then dnameRemoveLabel name else name

def localZonesTagsLookup (name : Name) (dclass dtype : UInt16) (taglist : Option (List UInt8))
    (ignoretags : Bool) : Option Nat :=
  let key := localZoneCreate (lookupName name dtype) .unset dclass
  match findLE (fun p => localZoneCmp (zones.zone p) key) zones.ztree with
  | none => none
  | some result =>
    let z := zones.zone result
    if z.dclass ≠ dclass then none
    else
      let m := (dnameLabCmp z.name z.namelabs key.name key.namelabs).2
      zones.goUp (fun p => p.namelabs ≤ m &&
        (ignoretags || p.taglist.isNone || taglistIntersect p.taglist taglist)) result

def localZonesLookup (name : Name) (dclass dtype : UInt16) : Option Nat :=
  localZonesTagsLookup zones name dclass dtype none true

def localZonesFind (name : Name) (dclass : UInt16) : Option Nat :=
  zones.ztree.find? fun p => localZoneCmp (localZoneCreate name .unset dclass) (zones.zone p) = .eq

/-- `rbtree_insert` of a zone that is at a new address, with the address if it was put in. -/
def LocalZones.insert (z : LocalZone) : LocalZones × Option Nat :=
  match localZonesFind zones z.name z.dclass with
  | some _ => (zones, none)
  | none =>
    let zone := update zones.zone zones.next z
    (⟨zone, insertOrd (fun p q => localZoneCmp (zone p) (zone q)) zones.next zones.ztree,
      zones.next + 1⟩, some zones.next)

/-- The loop of `set_kiddo_parents`, over the zones that come after `z`. -/
def setKiddoLoop (z : Nat) (matched newp : Option Nat) : List Nat → LocalZones → LocalZones
  | [], zones => zones
  | p :: rest, zones =>
    let a := zones.zone p
    let b := zones.zone z
    if a.dclass = b.dclass ∧ dnameStrictSubdomain a.name a.namelabs b.name b.namelabs then
      setKiddoLoop z matched newp rest (if a.parent = matched then zones.setParent p newp else zones)
    else zones

def setKiddoParents (z : Nat) (matched newp : Option Nat) : LocalZones :=
  setKiddoLoop z matched newp ((zones.ztree.dropWhile (· ≠ z)).drop 1) zones

def localZonesAddZone (name : Name) (dclass : UInt16) (type : LocalzoneType) :
    LocalZones × Option Nat :=
  let parent := localZonesFind zones name dclass
  match zones.insert { localZoneCreate name type dclass with parent := parent } with
  | (zones, none) => (zones, none)
  | (zones, some z) => (setKiddoParents zones z parent (some z), some z)

def localZonesDelZone (z : Nat) : LocalZones :=
  let zones := setKiddoParents zones z (some z) (zones.zone z).parent
  { zones with ztree := zones.ztree.erase z }

/-- `lz_enter_zone_dname`, which gives the zone that was there for a duplicate. -/
def lzEnterZoneDname (name : Name) (type : LocalzoneType) (dclass : UInt16) :
    LocalZones × Option Nat :=
  match zones.insert (localZoneCreate name type dclass) with
  | (zones, none) => (zones, localZonesFind zones name dclass)
  | (zones, some z) => (zones, some z)

end

open Std Dnstree List

/-- A zone sits in the tree of its class, at its name. -/
def LocalZone.path (z : LocalZone) : UInt16 × List Label := (z.dclass, key z.name)

def LocalZones.path (zones : LocalZones) (p : Nat) : UInt16 × List Label := (zones.zone p).path

def LocalZones.parent (zones : LocalZones) (p : Nat) : Option Nat := (zones.zone p).parent

def LocalZones.node (zones : LocalZones) (p : Nat) : NameTreeNode :=
  ⟨(zones.zone p).name, (zones.zone p).dclass⟩

theorem localZoneCmp_eq : localZoneCmp a b = pathCmp compare labOrd a.path b.path :=
  nameNest_spec.cmp ⟨a.name, a.dclass⟩ ⟨b.name, b.dclass⟩

/-- The tree is in order, and its zones are at addresses that were given out. -/
structure LocalZones.Ok (zones : LocalZones) : Prop where
  ordered : zones.ztree.Pairwise fun p q => localZoneCmp (zones.zone p) (zones.zone q) = .lt
  fresh : ∀ p ∈ zones.ztree, p < zones.next

section order
variable {zones : LocalZones}

theorem LocalZones.Ok.pairwise (h : zones.Ok) : zones.ztree.Pairwise fun p q =>
      pathCmp compare labOrd (zones.path p) (zones.path q) = .lt := by
  simpa only [localZoneCmp_eq, LocalZones.path] using h.ordered

theorem LocalZones.Ok.nodup (h : zones.Ok) : zones.ztree.Nodup := by
  apply h.pairwise.imp
  intro p q hlt heq
  exact ne_of_pathCmp_lt hlt (congrArg zones.path heq)

theorem LocalZones.Ok.path_inj (h : zones.Ok) :
    ∀ p ∈ zones.ztree, ∀ q ∈ zones.ztree, zones.path p = zones.path q → p = q :=
  path_inj_of_ordered h.pairwise

end order

section lookup
variable {zones : LocalZones}

def lookupPath (name : Name) (dclass dtype : UInt16) : UInt16 × List Label :=
  (dclass, key (lookupName name dtype))

theorem localZonesLookup_cases (h : zones.Ok) (hold : ∀ p ∈ old, p ∈ zones.ztree)
    (hpar : Parents old zones.ztree zones.path zones.parent) :
    (localZonesLookup zones name dclass dtype = none ∧
      ∀ q ∈ zones.ztree, ¬ Above (zones.path q) (lookupPath name dclass dtype)) ∨
    ∃ x ∈ zones.ztree, Nearest (x :: old) zones.path
      (fun a => Above a (lookupPath name dclass dtype))
      (localZonesLookup zones name dclass dtype) := by
  let k : NameTreeNode := ⟨lookupName name dtype, dclass⟩
  have hs := h.ordered
  have hpar : Parents old zones.ztree (NameTreeNode.path ∘ zones.node) zones.parent := hpar
  rw [localZonesLookup, localZonesTagsLookup]
  split
  case h_1 hnone =>
    have hnone : findLE (fun p => nameTreeCompare (zones.node p) k) zones.ztree = none := hnone
    exact .inl ⟨rfl, nameNest_spec.not_above_of_findLE hnone⟩
  case h_2 x hx =>
    have hx : findLE (fun p => nameTreeCompare (zones.node p) k) zones.ztree = some x := hx
    obtain ⟨hmem, habove⟩ := nameNest_spec.above_of_findLE hs hx
    dsimp only
    split
    case isTrue hclass =>
      refine .inl ⟨rfl, ?_⟩
      intro q hq hqk
      exact hclass ((habove q hq hqk).1.symm.trans hqk.1)
    case isFalse hclass =>
      refine .inr ⟨x, hmem, ?_⟩
      simp only [Bool.true_or, Bool.and_true]
      have hsame : nameNest.same (zones.node x) k = true := decide_eq_true (not_not.1 hclass)
      have hup := nameNest_spec.goUp_nearest hold hpar hmem hsame habove
      exact hup

theorem localZonesLookup_nearest (h : zones.Ok)
    (hpar : Parents zones.ztree zones.ztree zones.path zones.parent) (name : Name)
    (dclass dtype : UInt16) :
    Nearest zones.ztree zones.path (fun a => Above a (lookupPath name dclass dtype))
      (localZonesLookup zones name dclass dtype) := by
  rcases localZonesLookup_cases h (fun _ hp => hp) hpar with
    ⟨hnone, hall⟩ | ⟨x, hx, hnear⟩
  · rw [hnone]
    exact hall
  · exact hnear.of_cons hx

end lookup

/-- Nothing but parents may differ. -/
structure SameZones (zones zones' : LocalZones) : Prop where
  ztree : zones'.ztree = zones.ztree
  next : zones'.next = zones.next
  zone : ∀ p, ∃ q, zones'.zone p = { zones.zone p with parent := q }

namespace SameZones
variable {zones : LocalZones}

theorem refl (zones : LocalZones) : SameZones zones zones := ⟨rfl, rfl, fun _ => ⟨_, rfl⟩⟩

theorem trans (h : SameZones zones zones₁) (h' : SameZones zones₁ zones₂) :
    SameZones zones zones₂ := by
  refine ⟨h'.ztree.trans h.ztree, h'.next.trans h.next, ?_⟩
  intro p
  obtain ⟨q, hq⟩ := h.zone p
  obtain ⟨q', hq'⟩ := h'.zone p
  rw [hq] at hq'
  exact ⟨q', hq'⟩

theorem setParent (zones : LocalZones) (p : Nat) (q : Option Nat) :
    SameZones zones (zones.setParent p q) := by
  refine ⟨rfl, rfl, ?_⟩
  intro r
  by_cases hr : r = p
  · subst hr
    exact ⟨q, update_self ..⟩
  · exact ⟨(zones.zone r).parent, update_of_ne hr ..⟩

variable (h : SameZones zones zones₁)
include h

theorem path : zones₁.path = zones.path := by
  funext p
  obtain ⟨q, hq⟩ := h.zone p
  rw [LocalZones.path, hq]
  rfl

theorem node : zones₁.node = zones.node := by
  funext p
  obtain ⟨q, hq⟩ := h.zone p
  rw [LocalZones.node, hq]
  rfl

theorem ok (hok : zones.Ok) : zones₁.Ok := by
  refine ⟨?_, ?_⟩
  · rw [h.ztree]
    apply hok.pairwise.imp
    intro p q hlt
    rw [localZoneCmp_eq, ← LocalZones.path, ← LocalZones.path, h.path]
    exact hlt
  · intro p hp
    rw [h.ztree] at hp
    rw [h.next]
    exact hok.fresh p hp

end SameZones

section init
variable {zones : LocalZones}

section
variable (zones : LocalZones)

theorem parent_setParent : (zones.setParent p q).parent = Function.update zones.parent p q := by
  funext r
  rw [update_apply]
  split <;> simp [LocalZones.parent, LocalZones.setParent, *]

theorem initParent_same (prev : Option Nat) (node : Nat) :
    SameZones zones (initParent zones prev node) := by
  have hfirst := SameZones.setParent zones node none
  cases prev with
  | none => exact hfirst
  | some prev =>
    simp only [initParent]
    split
    · exact hfirst
    · exact hfirst.trans (SameZones.setParent _ _ _)

theorem initParent_parent {prev : Option Nat} :
    (initParent zones prev x).parent = nameNest.initParent zones.node zones.parent prev x := by
  cases prev with
  | none => exact parent_setParent zones
  | some prev =>
    rw [initParent, NestOps.initParent, ← parent_setParent, ← (SameZones.setParent zones x none).node]
    generalize zones.setParent x none = zones₁
    by_cases hclass : (zones₁.zone prev).dclass = (zones₁.zone x).dclass
    · have hsame : nameNest.same (zones₁.node prev) (zones₁.node x) = true := decide_eq_true hclass
      rw [if_neg (not_not_intro hclass), if_pos hsame, parent_setParent]
      rfl
    · have hsame : ¬ nameNest.same (zones₁.node prev) (zones₁.node x) = true :=
        fun h => hclass (of_decide_eq_true h)
      rw [if_pos hclass, if_neg hsame]

theorem initParentsLoop_parent (prev : Option Nat) :
    SameZones zones (initParentsLoop zones prev rest) ∧
      (initParentsLoop zones prev rest).parent =
        nameNest.initParents zones.node zones.parent prev rest := by
  induction rest generalizing zones prev with
  | nil => exact ⟨.refl _, rfl⟩
  | cons x rest ih =>
    have hsame := initParent_same zones prev x
    obtain ⟨hrest, hparent⟩ := ih (initParent zones prev x) (some x)
    refine ⟨hsame.trans hrest, hparent.trans ?_⟩
    rw [hsame.node, initParent_parent]
    rfl

end

theorem initParents_spec (h : zones.Ok) :
    SameZones zones (initParents zones) ∧
      Parents zones.ztree zones.ztree (initParents zones).path (initParents zones).parent := by
  obtain ⟨hsame, hparent⟩ := initParentsLoop_parent zones none
  refine ⟨hsame, ?_⟩
  rw [initParents, hsame.path, hparent]
  have hs := h.ordered
  exact nameNest_spec.initParents_parents [] hs nofun

theorem initParents_same (h : zones.Ok) : SameZones zones (initParents zones) :=
  (initParents_spec h).1

theorem initParents_parents (h : zones.Ok) :
    Parents (initParents zones).ztree (initParents zones).ztree (initParents zones).path
      (initParents zones).parent := by
  rw [(initParents_same h).ztree]
  exact (initParents_spec h).2

end init

section kiddo
variable {zones : LocalZones} {z : Nat} {matched newp : Option Nat}

/-- A zone is one that the loop of `set_kiddo_parents` goes on over. -/
def LocalZones.isKiddo (zones : LocalZones) (z p : Nat) : Bool :=
  (zones.zone p).dclass = (zones.zone z).dclass ∧ dnameStrictSubdomain (zones.zone p).name
    (zones.zone p).namelabs (zones.zone z).name (zones.zone z).namelabs

theorem isKiddo_iff : zones.isKiddo z p = true ↔ StrictlyAbove (zones.path z) (zones.path p) := by
  have hsub := dnameStrictSubdomainC_iff (zones.zone p).name (zones.zone z).name
  have hlen : ∀ p, (zones.path p).2.length = (zones.zone p).name.length := fun p => length_key _
  rw [StrictlyAbove, hlen, hlen, LocalZones.isKiddo, decide_eq_true_eq]
  constructor
  · rintro ⟨hclass, hname⟩
    have hname := hsub.1 hname
    exact ⟨⟨hclass.symm, hname.1⟩, hname.2⟩
  · rintro ⟨⟨hclass, hkey⟩, hlt⟩
    exact ⟨hclass.symm, hsub.2 ⟨hkey, hlt⟩⟩

theorem SameZones.isKiddo (h : SameZones zones zones') : zones'.isKiddo = zones.isKiddo := by
  funext z p
  rw [Bool.eq_iff_iff, isKiddo_iff, isKiddo_iff, h.path]

theorem parent_setParent_ite :
    (if zones.parent q = matched then zones.setParent q newp else zones).parent p =
      if p = q ∧ zones.parent p = matched then newp else zones.parent p := by
  rw [apply_ite LocalZones.parent, parent_setParent, ite_apply, update_apply]
  grind

theorem setKiddoLoop_spec {rest : List Nat} (hnodup : rest.Nodup) :
    SameZones zones (setKiddoLoop z matched newp rest zones) ∧
      ∀ p, (setKiddoLoop z matched newp rest zones).parent p =
        if p ∈ rest.takeWhile (zones.isKiddo z) ∧ zones.parent p = matched then newp
        else zones.parent p := by
  induction rest generalizing zones with
  | nil =>
    refine ⟨.refl _, ?_⟩
    intro p
    rfl
  | cons q rest ih =>
    obtain ⟨hq, hnodup⟩ := nodup_cons.1 hnodup
    rw [takeWhile_cons]
    by_cases hin : zones.isKiddo z q = true
    · have hstep : setKiddoLoop z matched newp (q :: rest) zones =
          setKiddoLoop z matched newp rest
            (if zones.parent q = matched then zones.setParent q newp else zones) :=
        if_pos (of_decide_eq_true hin)
      rw [hstep, if_pos hin]
      generalize hzones : (if zones.parent q = matched then zones.setParent q newp else zones) =
        zones₁
      have hsame : SameZones zones zones₁ := by
        rw [← hzones]
        split
        · exact .setParent ..
        · exact .refl _
      have hparent : ∀ p, zones₁.parent p =
          if p = q ∧ zones.parent p = matched then newp else zones.parent p := by
        intro p
        rw [← hzones]
        exact parent_setParent_ite ..
      obtain ⟨hrest, hall⟩ := @ih zones₁ hnodup
      refine ⟨hsame.trans hrest, ?_⟩
      intro p
      rw [hall, hsame.isKiddo, hparent]
      by_cases hp : p = q
      · subst hp
        have hnot : p ∉ rest.takeWhile (zones.isKiddo z) :=
          fun h => hq (takeWhile_subset _ h)
        simp [hnot]
      · simp [hp]
    · have hstep : setKiddoLoop z matched newp (q :: rest) zones = zones :=
        if_neg fun h => hin (decide_eq_true h)
      rw [hstep, if_neg hin]
      refine ⟨.refl _, ?_⟩
      intro p
      rw [if_neg fun h => not_mem_nil h.1]

theorem setKiddoParents_spec (h : zones.Ok) (hz : z ∈ zones.ztree) :
    SameZones zones (setKiddoParents zones z matched newp) ∧
      ∀ p ∈ zones.ztree, (setKiddoParents zones z matched newp).parent p =
        if StrictlyAbove (zones.path z) (zones.path p) ∧ zones.parent p = matched then newp
        else zones.parent p := by
  obtain ⟨xs, ys, hsplit⟩ := append_of_mem hz
  have hnodup := h.nodup
  have hs := h.pairwise
  rw [hsplit] at hnodup hs
  have hzx : z ∉ xs := fun hx => (nodup_append.1 hnodup).2.2 z hx z mem_cons_self rfl
  have hafter : (zones.ztree.dropWhile (· ≠ z)).drop 1 = ys := by
    rw [hsplit, dropWhile_append_of_pos]
    · simp
    · intro q hq
      have hne : q ≠ z := fun heq => hzx (heq ▸ hq)
      simpa using hne
  obtain ⟨hsx, hsy, hcross⟩ := pairwise_append.1 hs
  have hys : ys.Nodup := (nodup_cons.1 (nodup_append.1 hnodup).2.1).2
  obtain ⟨hsame, hall⟩ := @setKiddoLoop_spec zones z matched newp ys hys
  rw [setKiddoParents, hafter]
  refine ⟨hsame, ?_⟩
  intro p hp
  have hmem : p ∈ ys.takeWhile (zones.isKiddo z) ↔ StrictlyAbove (zones.path z) (zones.path p) := by
    rw [mem_takeWhile_below (fun q _ => isKiddo_iff) hsy, and_iff_right_iff_imp]
    intro hzp
    rw [hsplit] at hp
    rcases mem_append.1 hp with hp | hp
    · exact absurd hzp.1 (not_above_of_lt (hcross p hp z mem_cons_self))
    · rcases mem_cons.1 hp with rfl | hp
      · exact absurd rfl hzp.ne
      · exact hp
  simp only [hall, hmem]

end kiddo

section change
variable {zones : LocalZones}

theorem localZonesFind_none (h : localZonesFind zones name dclass = none) :
    ∀ p ∈ zones.ztree, zones.path p ≠ (dclass, key name) := by
  intro p hp heq
  have hfind := find?_eq_none.1 h p hp
  rw [decide_eq_true_eq, localZoneCmp_eq, pathCmp_eq_iff] at hfind
  exact hfind heq.symm

theorem localZonesFind_some (h : localZonesFind zones name dclass = some p) :
    p ∈ zones.ztree ∧ zones.path p = (dclass, key name) := by
  have hfound := find?_some h
  rw [decide_eq_true_eq, localZoneCmp_eq, pathCmp_eq_iff] at hfound
  exact ⟨mem_of_find?_eq_some h, hfound.symm⟩

structure Inserted (zones : LocalZones) (z : LocalZone) (zones' : LocalZones) : Prop where
  ok : zones'.Ok
  mem : ∀ p, p ∈ zones'.ztree ↔ p = zones.next ∨ p ∈ zones.ztree
  new : zones'.zone zones.next = z
  old : ∀ p ∈ zones.ztree, zones'.zone p = zones.zone p

theorem insert_cases (h : zones.Ok) (z : LocalZone) :
    (∃ p, localZonesFind zones z.name z.dclass = some p ∧ zones.insert z = (zones, none)) ∨
    (localZonesFind zones z.name z.dclass = none ∧ ∃ zones', Inserted zones z zones' ∧
      zones.insert z = (zones', some zones.next)) := by
  rw [LocalZones.insert]
  cases hfind : localZonesFind zones z.name z.dclass with
  | some p => exact .inl ⟨p, rfl, rfl⟩
  | none =>
    refine .inr ⟨rfl, _, ?_, rfl⟩
    have hne : ∀ p ∈ zones.ztree, p ≠ zones.next := fun p hp => Nat.ne_of_lt (h.fresh p hp)
    have hold : ∀ p ∈ zones.ztree, update zones.zone zones.next z p = zones.zone p :=
      fun p hp => update_of_ne (hne p hp) ..
    have hnew : update zones.zone zones.next z zones.next = z := update_self ..
    generalize update zones.zone zones.next z = zone at hold hnew
    have hperm : (insertOrd (fun p q => localZoneCmp (zone p) (zone q)) zones.next
        zones.ztree).Perm (zones.next :: zones.ztree) := by
      apply perm_insertOrd
      intro p hp heq
      rw [hnew, hold p hp, localZoneCmp_eq, pathCmp_eq_iff] at heq
      exact localZonesFind_none hfind p hp heq.symm
    have hs : zones.ztree.Pairwise fun p q =>
        pathCmp compare labOrd (zone p).path (zone q).path = .lt := by
      apply h.pairwise.imp_of_mem
      intro p q hp hq hlt
      rw [hold p hp, hold q hq]
      exact hlt
    have hmem : ∀ p, p ∈ insertOrd (fun p q => localZoneCmp (zone p) (zone q)) zones.next
        zones.ztree ↔ p = zones.next ∨ p ∈ zones.ztree :=
      fun p => hperm.mem_iff.trans mem_cons
    refine ⟨⟨?_, ?_⟩, hmem, hnew, hold⟩
    · simp only [localZoneCmp_eq]
      exact pairwise_insertOrd hs
    · intro p hp
      rcases (hmem p).1 hp with rfl | hp
      · exact Nat.lt_succ_self _
      · exact Nat.lt_succ_of_lt (h.fresh p hp)

theorem localZonesAddZone_cases (h : zones.Ok) (type : LocalzoneType) :
    (∃ p, localZonesFind zones name dclass = some p ∧
      localZonesAddZone zones name dclass type = (zones, none)) ∨
    (localZonesFind zones name dclass = none ∧ ∃ zones',
      Inserted zones (localZoneCreate name type dclass) zones' ∧
      localZonesAddZone zones name dclass type =
        (setKiddoParents zones' zones.next none (some zones.next), some zones.next)) := by
  rcases insert_cases h { localZoneCreate name type dclass with
      parent := localZonesFind zones name dclass } with
    ⟨p, hfind, hins⟩ | ⟨hfind, zones', hinserted, hins⟩
  · refine .inl ⟨p, hfind, ?_⟩
    simp only [localZonesAddZone, hins]
  · have hfind : localZonesFind zones name dclass = none := hfind
    refine .inr ⟨hfind, zones', ?_, ?_⟩
    · rw [hfind] at hinserted
      exact hinserted
    · simp only [localZonesAddZone, hins]
      rw [hfind]

/-- The tree is in order and all its zones have their nearest zones above as parents. -/
structure LocalZones.Right (zones : LocalZones) : Prop extends zones.Ok where
  parents : Parents zones.ztree zones.ztree zones.path zones.parent

theorem initParents_right (h : zones.Ok) : (initParents zones).Right :=
  ⟨(initParents_same h).ok h, initParents_parents h⟩

theorem Inserted.path_old (h : Inserted zones z zones') (hp : p ∈ zones.ztree) :
    zones'.path p = zones.path p := by
  rw [LocalZones.path, h.old p hp]
  rfl

theorem LocalZones.Right.addZone (h : zones.Right)
    (htop : ∀ p ∈ zones.ztree, ¬ StrictlyAbove (zones.path p) (dclass, key name)) :
    (localZonesAddZone zones name dclass type).1.Right := by
  rcases localZonesAddZone_cases h.toOk type with
    ⟨p, -, hadd⟩ | ⟨-, zones', hins, hadd⟩
  · rw [hadd]
    exact h
  rw [hadd]
  have hnext := (hins.mem zones.next).2 (.inl rfl)
  have hold : ∀ p ∈ zones.ztree, p ∈ zones'.ztree := fun p hp => (hins.mem p).2 (.inr hp)
  have hpath : zones'.path zones.next = (dclass, key name) := by
    rw [LocalZones.path, hins.new]
    rfl
  have hparent : zones'.parent zones.next = none := by
    rw [LocalZones.parent, hins.new]
    rfl
  have hpar : Parents zones.ztree zones.ztree zones'.path zones'.parent := by
    apply h.parents.congr (fun _ hp => hp)
    · intro p hp
      rw [LocalZones.parent, hins.old p hp]
      rfl
    · intro p hp
      exact hins.path_old hp
  obtain ⟨hsame, hall⟩ :=
    @setKiddoParents_spec zones' zones.next none (some zones.next) hins.ok hnext
  have hnone : (setKiddoParents zones' zones.next none (some zones.next)).parent zones.next =
      none := by
    rw [hall _ hnext, if_neg fun h => h.1.ne rfl]
    exact hparent
  refine ⟨hsame.ok hins.ok, ?_⟩
  rw [hsame.ztree, hsame.path]
  apply hpar.insert _ hins.mem
  · rw [hnone, hpath]
    intro p hp
    rw [hins.path_old hp]
    exact htop p hp
  · intro p hp hbelow
    rw [hall p (hold p hp), hnone]
    simp only [hbelow, true_and]
  · intro p hp hbelow
    rw [hall p (hold p hp), if_neg fun h => hbelow h.1]
  · intro p hp q hq heq
    exact hins.ok.path_inj p (hold p hp) q (hold q hq) heq

theorem LocalZones.Right.delZone (h : zones.Right) (hz : z ∈ zones.ztree) :
    (localZonesDelZone zones z).Right := by
  obtain ⟨hsame, hall⟩ :=
    @setKiddoParents_spec zones z (some z) (zones.zone z).parent h.toOk hz
  have hok := hsame.ok h.toOk
  rw [localZonesDelZone]
  generalize setKiddoParents zones z (some z) (zones.zone z).parent = zones' at *
  have hmem : ∀ p, p ∈ zones'.ztree.erase z ↔ p ≠ z ∧ p ∈ zones.ztree := by
    intro p
    rw [hok.nodup.mem_erase_iff, hsame.ztree]
  refine ⟨⟨hok.ordered.sublist erase_sublist, ?_⟩, ?_⟩
  · intro p hp
    exact hok.fresh p (mem_of_mem_erase hp)
  have hpath : LocalZones.path { zones' with ztree := zones'.ztree.erase z } = zones.path :=
    hsame.path
  rw [hpath]
  apply h.parents.erase h.path_inj hz hmem
  intro p hp
  obtain ⟨-, hp⟩ := (hmem p).1 hp
  have hparent : zones'.parent p = if zones.parent p = some z then zones.parent z
      else zones.parent p := by
    rw [hall p hp]
    by_cases hpz : zones.parent p = some z
    · have hnear := h.parents p hp
      rw [hpz] at hnear
      rw [if_pos ⟨hnear.2.1, hpz⟩, if_pos hpz]
      rfl
    · rw [if_neg hpz, if_neg fun h => hpz h.2]
  exact hparent

end change

section run

inductive ZoneOp where
  | add (name : Name) (dclass : UInt16) (type : LocalzoneType)
  | del (z : Nat)

section
variable (zones : LocalZones)

def ZoneOp.run : ZoneOp → LocalZones
  | add name dclass type => (localZonesAddZone zones name dclass type).1
  | del z => localZonesDelZone zones z

def runOps (ops : List ZoneOp) : LocalZones := ops.foldl ZoneOp.run zones

def ZoneOp.Valid : ZoneOp → Prop
  | add _ _ _ => True
  | del z => z ∈ zones.ztree

/-- A zone that is added is there already, or no zone of its class is above it. -/
def ZoneOp.OnTop : ZoneOp → Prop
  | add name dclass _ => (∃ p, localZonesFind zones name dclass = some p) ∨
      ∀ p ∈ zones.ztree, (zones.zone p).dclass = dclass →
        dnameStrictSubdomainC name (zones.zone p).name = false
  | del _ => True

/-- Every call of a sequence has a property in the tree it is made on. -/
def Along (P : LocalZones → ZoneOp → Prop) : LocalZones → List ZoneOp → Prop
  | _, [] => True
  | zones, op :: ops => P zones op ∧ Along P (op.run zones) ops

/-- Of the zones of a class whose names have a property, the one with the longest name. -/
def LongestZone (dclass : UInt16) (P : Name → Bool) : Option Nat → Prop
  | none => ∀ p ∈ zones.ztree, (zones.zone p).dclass = dclass → P (zones.zone p).name = false
  | some p => p ∈ zones.ztree ∧ (zones.zone p).dclass = dclass ∧ P (zones.zone p).name = true ∧
      ∀ q ∈ zones.ztree, (zones.zone q).dclass = dclass → P (zones.zone q).name = true →
        (zones.zone q).name.length ≤ (zones.zone p).name.length

end

/-- The parents are the longest zones above, and the lookups find the longest zones. -/
structure Correct (zones : LocalZones) : Prop where
  parents : ∀ p ∈ zones.ztree, LongestZone zones (zones.zone p).dclass
    (fun n => dnameStrictSubdomainC (zones.zone p).name n) (zones.zone p).parent
  lookup : ∀ name dclass dtype, dtype ≠ RrType.ds →
    LongestZone zones dclass (fun n => dnameSubdomainC name n)
      (localZonesLookup zones name dclass dtype)

variable {zones : LocalZones}

theorem longestZone_of_nearest (h : Nearest zones.ztree zones.path Q r)
    (hQ : ∀ p, Q (zones.path p) ↔ (zones.zone p).dclass = dclass ∧ P (zones.zone p).name = true) :
    LongestZone zones dclass P r := by
  cases r with
  | none =>
    intro p hp hclass
    rw [← Bool.not_eq_true]
    intro hP
    exact h p hp ((hQ p).2 ⟨hclass, hP⟩)
  | some p =>
    obtain ⟨hp, hQp, hall⟩ := h
    obtain ⟨hclass, hP⟩ := (hQ p).1 hQp
    refine ⟨hp, hclass, hP, ?_⟩
    intro q hq hclass' hP'
    have hlen := (hall q hq ((hQ q).2 ⟨hclass', hP'⟩)).2.length_le
    rw [LocalZones.path, LocalZone.path, length_key] at hlen
    exact hlen.trans_eq (length_key _)

theorem strictlyAbove_iff (z : LocalZone) :
    StrictlyAbove z.path (dclass, key name) ↔
      z.dclass = dclass ∧ dnameStrictSubdomainC name z.name = true := by
  rw [dnameStrictSubdomainC_iff, StrictlyAbove, LocalZone.path, length_key, length_key, Above,
    and_assoc]

theorem above_iff (z : LocalZone) :
    Above z.path (dclass, key name) ↔ z.dclass = dclass ∧ dnameSubdomainC name z.name = true := by
  rw [dnameSubdomainC_iff]
  rfl

theorem LocalZones.Right.correct (h : zones.Right) : Correct zones where
  parents p hp := longestZone_of_nearest (h.parents p hp) fun q => strictlyAbove_iff _
  lookup name dclass dtype hds := by
    have hname : lookupName name dtype = name := if_neg fun h => hds h.1
    have hnear := localZonesLookup_nearest h.toOk h.parents name dclass dtype
    rw [lookupPath, hname] at hnear
    exact longestZone_of_nearest hnear fun q => above_iff _

theorem LocalZones.Right.run (h : zones.Right) {op : ZoneOp} (hvalid : op.Valid zones)
    (htop : op.OnTop zones) : (op.run zones).Right := by
  cases op with
  | add name dclass type =>
    rcases htop with ⟨p, hfind⟩ | htop
    · rcases localZonesAddZone_cases h.toOk type with
        ⟨-, -, hadd⟩ | ⟨hnone, -⟩
      · rw [ZoneOp.run, hadd]
        exact h
      · rw [hfind] at hnone
        cases hnone
    · apply h.addZone
      intro p hp habove
      obtain ⟨hclass, hname⟩ := (strictlyAbove_iff _).1 habove
      rw [htop p hp hclass] at hname
      cases hname
  | del z => exact h.delZone hvalid

theorem onTop_of_correct (h : zones.Right) {op : ZoneOp} (hcorrect : Correct (op.run zones)) :
    op.OnTop zones := by
  cases op with
  | del z => exact trivial
  | add name dclass type =>
    rcases localZonesAddZone_cases h.toOk type with
      ⟨p, hfind, -⟩ | ⟨-, zones', hins, hadd⟩
    · exact .inl ⟨p, hfind⟩
    refine .inr ?_
    rw [ZoneOp.run, hadd] at hcorrect
    have hnext := (hins.mem zones.next).2 (.inl rfl)
    obtain ⟨hsame, hall⟩ :=
      @setKiddoParents_spec zones' zones.next none (some zones.next) hins.ok hnext
    have hnone := hall _ hnext
    rw [if_neg fun h => h.1.ne rfl, LocalZones.parent, LocalZones.parent, hins.new] at hnone
    generalize setKiddoParents zones' zones.next none (some zones.next) = zones'' at *
    intro p hp hclass
    have hold : p ∈ zones''.ztree := by
      rw [hsame.ztree]
      exact (hins.mem p).2 (.inr hp)
    have hlongest := hcorrect.parents zones.next (hsame.ztree ▸ hnext)
    rw [hnone] at hlongest
    have hp' := hlongest p hold
    obtain ⟨q, hq⟩ := hsame.zone p
    obtain ⟨q', hq'⟩ := hsame.zone zones.next
    rw [hq, hq', hins.old p hp, hins.new] at hp'
    exact hp' hclass

theorem correct_iff_onTop (h : zones.Right) (hvalid : Along ZoneOp.Valid zones ops) :
    (∀ done, done <+: ops → Correct (runOps zones done)) ↔ Along ZoneOp.OnTop zones ops := by
  induction ops generalizing zones with
  | nil =>
    refine ⟨fun _ => trivial, fun _ done hdone => ?_⟩
    rw [prefix_nil.1 hdone]
    exact h.correct
  | cons op ops ih =>
    obtain ⟨hop, hops⟩ := hvalid
    constructor
    · intro hall
      have hone := hall [op] (prefix_append [op] ops)
      have htop := onTop_of_correct h hone
      refine ⟨htop, (ih (h.run hop htop) hops).1 ?_⟩
      intro done hdone
      exact hall (op :: done) ((prefix_cons_inj op).2 hdone)
    · rintro ⟨htop, hrest⟩ done hdone
      cases done with
      | nil => exact h.correct
      | cons op' done =>
        obtain ⟨rfl, hdone'⟩ := cons_prefix_cons.1 hdone
        exact (ih (h.run hop htop) hops).2 hrest done hdone'

/-- The parents and lookups are right all along, just when no zone is added below another. -/
theorem zone_parents_longest_iff (zones : LocalZones) (hok : zones.Ok) (ops : List ZoneOp)
    (hvalid : Along ZoneOp.Valid (initParents zones) ops) :
    (∀ done, done <+: ops → Correct (runOps (initParents zones) done)) ↔
      Along ZoneOp.OnTop (initParents zones) ops :=
  correct_iff_onTop (initParents_right hok) hvalid

def twoZones : LocalZones where
  zone p := if p = 0 then localZoneCreate [[97]] .static 1
    else localZoneCreate [[99], [98], [97]] .transparent 1
  ztree := [0, 1]
  next := 2

theorem twoZones_ok : twoZones.Ok := by
  refine ⟨?_, ?_⟩
  · decide
  · decide

theorem zone_parents_longest_two :
    Correct (runOps (initParents twoZones) [.add [[100]] 1 .static, .del 0]) := by
  have hvalid : Along ZoneOp.Valid (initParents twoZones) [.add [[100]] 1 .static, .del 0] := by
    refine ⟨trivial, ?_, trivial⟩
    have hmem : 0 ∈ (ZoneOp.run (initParents twoZones) (.add [[100]] 1 .static)).ztree := by
      decide +kernel
    exact hmem
  apply (zone_parents_longest_iff twoZones twoZones_ok _ hvalid).2
  · refine ⟨.inr ?_, trivial, trivial⟩
    decide +kernel
  · exact prefix_refl _

theorem zone_added_below_without_parent :
    let zones := (localZonesAddZone (initParents twoZones) [[101], [97]] 1 .static).1
    2 ∈ zones.ztree ∧ (zones.zone 2).parent = none ∧
      dnameStrictSubdomainC (zones.zone 2).name (zones.zone 0).name = true ∧
      localZonesLookup zones [[102], [97]] 1 RrType.a = none ∧ 0 ∈ zones.ztree ∧
      dnameSubdomainC [[102], [97]] (zones.zone 0).name = true := by
  decide +kernel

end run

end

open Std Dnstree List

/-- `struct local_zone_override`. -/
structure LocalZoneOverride where
  node : AddrTreeNode
  type : LocalzoneType
  deriving DecidableEq

/-- The zones, and the `override_tree` of the zone at an address. -/
structure OverrideZones where
  zones : LocalZones
  overrideTree : Nat → Option (NestTree LocalZoneOverride)

/-- `lz_enter_override` for what the texts parse to, with its return value. -/
def lzEnterOverride (c : OverrideZones) (zname : Option Name) (netblock : Option AddrTreeNode)
    (type : String) (rrClass : UInt16) : Bool × OverrideZones :=
  match zname, netblock, localZoneStr2type type with
  | some dname, some net, some t =>
    match localZonesFind c.zones dname rrClass with
    | none => (false, c)
    | some z =>
      let tree := (c.overrideTree z).getD addrTreeInit
      let tree := addrTreeInsert LocalZoneOverride.node tree ⟨net, t⟩
      (true, { c with overrideTree := update c.overrideTree z (some tree) })
  | _, _, _ => (false, c)

/-- The body of the loop of `init_parents`, which goes on early for the first zone of a class. -/
def OverrideZones.initParent (c : OverrideZones) (prev : Option Nat) (node : Nat) :
    OverrideZones where
  zones := Localzone.initParent c.zones prev node
  overrideTree :=
    if prev.any fun p => (c.zones.zone p).dclass = (c.zones.zone node).dclass then
      update c.overrideTree node
        ((c.overrideTree node).map (addrTreeInitParents LocalZoneOverride.node))
    else c.overrideTree

def OverrideZones.initParentsLoop (c : OverrideZones) (prev : Option Nat) : List Nat → OverrideZones
  | [] => c
  | node :: rest => (c.initParent prev node).initParentsLoop (some node) rest

def OverrideZones.initParents (c : OverrideZones) : OverrideZones :=
  c.initParentsLoop none c.zones.ztree

def findTag (taglist taglist2 : List UInt8) : Option Nat :=
  (zipWith (· &&& ·) taglist taglist2).zipIdx.findSome? fun m =>
    ((range 8).find? fun j => (m.1 >>> j.toUInt8) &&& 1 = 1).map (m.2 * 8 + ·)

def localDataFindTagAction (taglist taglist2 : List UInt8) (tagactions : List LocalzoneType)
    (lzt : LocalzoneType) : LocalzoneType :=
  match findTag taglist taglist2 with
  | none => lzt
  | some tag => if tagactions.getD tag .unset ≠ .unset then tagactions.getD tag .unset else lzt

/-- The type that `lz_type` takes from the override tree. -/
def overrideType (client : Option SockAddr) (overrideTree : Option (NestTree LocalZoneOverride)) :
    Option LocalzoneType :=
  match client, overrideTree with
  | some addr, some tree =>
    ((addrTreeLookup LocalZoneOverride.node tree addr).map LocalZoneOverride.type).filter
      (· ≠ .unset)
  | _, _ => none

def lzType (taglist taglist2 : Option (List UInt8)) (tagactions : List LocalzoneType)
    (lzt : LocalzoneType) (client : Option SockAddr)
    (overrideTree : Option (NestTree LocalZoneOverride)) : LocalzoneType :=
  match overrideType client overrideTree, taglist, taglist2 with
  | some t, _, _ => t
  | none, some l, some l2 => localDataFindTagAction l l2 tagactions lzt
  | none, _, _ => lzt

inductive ConfigLine where
  | zone (name : Name) (type : LocalzoneType) (dclass : UInt16)
  | override (zname : Option Name) (netblock : Option AddrTreeNode) (type : String)
      (rrClass : UInt16)

def ConfigLine.enter (c : OverrideZones) : ConfigLine → OverrideZones
  | .zone name type dclass => { c with zones := (lzEnterZoneDname c.zones name type dclass).1 }
  | .override zname netblock type rrClass => (lzEnterOverride c zname netblock type rrClass).2

def enterLines (lines : List ConfigLine) : OverrideZones :=
  lines.foldl ConfigLine.enter ⟨⟨fun _ => localZoneCreate [] .unset 0, [], 0⟩, fun _ => none⟩

def netblocks (overrideTree : Option (NestTree LocalZoneOverride)) : List LocalZoneOverride :=
  (overrideTree.map NestTree.tree).getD []

/-- The type of the longest netblock that contains the address, or `own` without one. -/
def Chosen (l : List LocalZoneOverride) (addr : SockAddr) (own type : LocalzoneType) : Prop :=
  (∃ o ∈ l, o.node.Contains addr ∧
    (∀ q ∈ l, q.node.Contains addr → q.node.net ≤ o.node.net) ∧ type = o.type) ∨
  (∀ o ∈ l, ¬ o.node.Contains addr) ∧ type = own

/-- `lz_type` chooses right for all clients, from what it takes for one without an address. -/
def TypesRight (lzt : LocalzoneType) (overrideTree : Option (NestTree LocalZoneOverride)) : Prop :=
  ∀ addr taglist taglist2 tagactions,
    Chosen (netblocks overrideTree) addr (lzType taglist taglist2 tagactions lzt none overrideTree)
      (lzType taglist taglist2 tagactions lzt (some addr) overrideTree)

def OverrideZones.Right (c : OverrideZones) : Prop :=
  ∀ z ∈ c.zones.ztree, TypesRight (c.zones.zone z).type (c.overrideTree z)

/-- The zone before it in the tree, if any, is of another class. -/
def LocalZones.FirstOfClass (zones : LocalZones) (z : Nat) : Prop :=
  ∀ before after, zones.ztree = before ++ z :: after → ∀ p ∈ before.getLast?,
    (zones.zone p).dclass ≠ (zones.zone z).dclass

/-- An address of a netblock that is not before a smaller netblock inside is in a smaller one. -/
def Covered (l : List LocalZoneOverride) : Prop :=
  ∀ addr, ∀ o ∈ l, ∀ x ∈ l, o.node.Contains addr → StrictlyAbove o.node.path x.node.path →
    (addrTreeCompare x.node addr.node).isLE →
    ∃ y ∈ l, StrictlyAbove o.node.path y.node.path ∧ y.node.Contains addr

/-- What `lz_enter_override` makes: a tree in order, not yet linked. -/
structure Unlinked (t : NestTree LocalZoneOverride) : Prop where
  ordered : t.tree.Pairwise fun p q => addrTreeCompare p.node q.node = .lt
  unlinked : ∀ p, t.parent p = none
  types : ∀ p ∈ t.tree, p.type ≠ .unset

theorem localZoneStr2type_ne_unset (s : String) : localZoneStr2type s ≠ some .unset := by
  iterate 19
    refine iteInduction (motive := (· ≠ some LocalzoneType.unset)) (fun _ => by decide) ?_
    intro _
  decide

theorem Unlinked.insert (h : Unlinked t) (ho : o.type ≠ .unset) :
    Unlinked (addrTreeInsert LocalZoneOverride.node t o) where
  ordered := by
    have hs := h.ordered
    simp only [addrTreeInsert, NestTree.insert, addrNest_spec.cmp] at hs ⊢
    exact pairwise_insertOrd hs
  unlinked p := by
    dsimp only [addrTreeInsert, NestTree.insert]
    rw [update_apply, h.unlinked, ite_self]
  types p hp := by
    rcases mem_of_mem_insertOrd hp with rfl | hp
    · exact ho
    · exact h.types p hp

/-- The zones are in order, and their override trees are as they were entered. -/
structure OverrideZones.Ok (c : OverrideZones) : Prop where
  zones : c.zones.Ok
  trees : ∀ z t, c.overrideTree z = some t → Unlinked t

theorem OverrideZones.Ok.enter (h : c.Ok) (line : ConfigLine) : (line.enter c).Ok := by
  cases line with
  | zone name type dclass =>
    refine ⟨?_, h.trees⟩
    rw [ConfigLine.enter, lzEnterZoneDname]
    rcases insert_cases h.zones (localZoneCreate name type dclass) with
      ⟨_, _, heq⟩ | ⟨_, zones', hins, heq⟩
    · rw [heq]
      exact h.zones
    · rw [heq]
      exact hins.ok
  | override zname netblock type rrClass =>
    rw [ConfigLine.enter]
    fun_cases lzEnterOverride c zname netblock type rrClass with
    | case2 dname net t ht z _ tree₀ tree =>
      refine ⟨h.zones, ?_⟩
      intro z' t' hz'
      dsimp only at hz'
      by_cases heq : z' = z
      · rw [heq, update_self] at hz'
        cases hz'
        apply Unlinked.insert _ fun hunset => localZoneStr2type_ne_unset type (hunset ▸ ht)
        cases hold : c.overrideTree z with
        | none =>
          rw [show tree₀ = addrTreeInit from congrArg (·.getD addrTreeInit) hold]
          exact ⟨.nil, fun _ => rfl, forall_mem_nil _⟩
        | some t =>
          rw [show tree₀ = t from congrArg (·.getD addrTreeInit) hold]
          exact h.trees z t hold
      · rw [update_of_ne heq] at hz'
        exact h.trees z' t' hz'
    | _ => exact h

theorem enterLines_ok (lines : List ConfigLine) : (enterLines lines).Ok := by
  induction lines using reverseRecOn with
  | nil => exact ⟨⟨.nil, nofun⟩, nofun⟩
  | append_singleton lines line ih =>
    rw [enterLines, foldl_append]
    exact ih.enter line

section choice
variable {t : NestTree LocalZoneOverride} {lzt : LocalzoneType}

theorem typesRight_of_nearest (htypes : ∀ p ∈ t.tree, p.type ≠ .unset)
    (h : ∀ addr, Nearest t.tree (AddrTreeNode.path ∘ LocalZoneOverride.node)
      (Above · addr.node.path) (addrTreeLookup LocalZoneOverride.node t addr)) :
    TypesRight lzt (some t) := by
  intro addr taglist taglist2 tagactions
  have hlongest := longest_of_nearest _ t.tree addr _ (h addr)
  unfold lzType
  cases hlook : addrTreeLookup LocalZoneOverride.node t addr with
  | none =>
    rw [hlook] at hlongest
    have htype : overrideType (some addr) (some t) = none := by simp [overrideType, hlook]
    rw [htype]
    exact .inr ⟨hlongest, rfl⟩
  | some o =>
    rw [hlook] at hlongest
    obtain ⟨ho, hcontains, hall⟩ := hlongest
    have htype : overrideType (some addr) (some t) = some o.type := by
      simp [overrideType, hlook, htypes o ho]
    rw [htype]
    exact .inl ⟨o, ho, hcontains, hall, rfl⟩

theorem Unlinked.link_right (h : Unlinked t) :
    TypesRight lzt (some (addrTreeInitParents LocalZoneOverride.node t)) := by
  apply typesRight_of_nearest (t := addrTreeInitParents LocalZoneOverride.node t) h.types
  intro addr
  exact addrNest_spec.lookup_nearest (t := addrTreeInitParents LocalZoneOverride.node t) h.ordered
    (addrNest_spec.initParents_parents [] h.ordered (forall_mem_nil _)) addr.node

theorem Unlinked.longest_unique (h : Unlinked t) (hp : p ∈ t.tree) (hq : q ∈ t.tree)
    (hpk : p.node.Contains addr) (hqk : q.node.Contains addr) (hnet : p.node.net = q.node.net) :
    p = q := by
  have hs := h.ordered
  simp only [addrNest_spec.cmp] at hs
  apply path_inj_of_ordered hs p hp q hq
  refine Prod.ext (hpk.1.trans hqk.1.symm) ?_
  rw [AddrTreeNode.path, AddrTreeNode.path, hpk.2, hqk.2, hnet]

theorem Unlinked.lookup_none (h : Unlinked t) (hright : TypesRight lzt (some t))
    (hlook : addrTreeLookup LocalZoneOverride.node t addr = none) :
    ∀ o ∈ t.tree, ¬ o.node.Contains addr := by
  have htype : overrideType (some addr) (some t) = none := by simp [overrideType, hlook]
  have htag : ∀ type, type ≠ .unset →
      lzType (some [1]) (some [1]) [type] lzt (some addr) (some t) = type := by
    intro type hne
    unfold lzType
    rw [htype]
    exact if_pos hne
  have hdeny := hright addr (some [1]) (some [1]) [.deny]
  have hrefuse := hright addr (some [1]) (some [1]) [.refuse]
  rw [htag _ (by decide)] at hdeny hrefuse
  rcases hdeny with ⟨p, hp, hpk, hpmax, hpt⟩ | ⟨hnone, -⟩
  · rcases hrefuse with ⟨q, hq, hqk, hqmax, hqt⟩ | ⟨hnone, -⟩
    · have heq := h.longest_unique hp hq hpk hqk ((hqmax p hp hpk).antisymm (hpmax q hq hqk))
      rw [heq, ← hqt] at hpt
      cases hpt
    · exact hnone
  · exact hnone

theorem Unlinked.right_iff (h : Unlinked t) : TypesRight lzt (some t) ↔ Covered t.tree := by
  have hiff : TypesRight lzt (some t) ↔ ∀ addr,
      Nearest t.tree (AddrTreeNode.path ∘ LocalZoneOverride.node)
        (Above · addr.node.path) (addrTreeLookup LocalZoneOverride.node t addr) := by
    refine ⟨?_, typesRight_of_nearest h.types⟩
    intro hright addr
    cases hlook : addrTreeLookup LocalZoneOverride.node t addr with
    | none =>
      intro o ho
      have hnot := h.lookup_none hright hlook o ho
      rw [AddrTreeNode.contains_iff] at hnot
      exact hnot
    | some o => exact addrNest_spec.lookup_unlinked_some h.ordered h.unlinked hlook
  rw [hiff, Covered]
  apply forall_congr'
  intro addr
  simp only [AddrTreeNode.contains_iff]
  exact addrNest_spec.lookup_unlinked_iff h.ordered h.unlinked addr.node

end choice

section init
variable (c : OverrideZones) (prev : Option Nat)

theorem OverrideZones.initParentsLoop_zones :
    (c.initParentsLoop prev rest).zones = Localzone.initParentsLoop c.zones prev rest := by
  induction rest generalizing c prev with
  | nil => rfl
  | cons x rest ih => exact ih _ _

theorem OverrideZones.initParent_other (hz : z ≠ x) :
    (c.initParent prev x).overrideTree z = c.overrideTree z := by
  rw [initParent]
  split
  · exact update_of_ne hz _ _
  · rfl

theorem OverrideZones.initParentsLoop_other (hz : z ∉ rest) :
    (c.initParentsLoop prev rest).overrideTree z = c.overrideTree z := by
  induction rest generalizing c prev with
  | nil => rfl
  | cons x rest ih =>
    obtain ⟨hne, hz⟩ := not_or.1 (mt mem_cons.2 hz)
    exact (ih _ _ hz).trans (c.initParent_other prev hne)

theorem OverrideZones.initParentsLoop_at {before after : List Nat} (hz : z ∉ before) (hz' : z ∉ after) :
    (c.initParentsLoop prev (before ++ z :: after)).overrideTree z =
      if (before.getLast?.or prev).any fun p => (c.zones.zone p).dclass = (c.zones.zone z).dclass
      then (c.overrideTree z).map (addrTreeInitParents LocalZoneOverride.node)
      else c.overrideTree z := by
  induction before generalizing c prev with
  | nil =>
    refine (initParentsLoop_other _ _ hz').trans ?_
    rw [getLast?_nil, Option.none_or, initParent]
    split
    · exact update_self z _ _
    · rfl
  | cons x before ih =>
    obtain ⟨hne, hz⟩ := not_or.1 (mt mem_cons.2 hz)
    have hclass : ∀ p, ((c.initParent prev x).zones.zone p).dclass = (c.zones.zone p).dclass := by
      intro p
      obtain ⟨q, hq⟩ := (initParent_same c.zones prev x).zone p
      rw [initParent, hq]
    refine (ih _ _ hz).trans ?_
    simp only [hclass, c.initParent_other prev hne]
    rw [Option.or_some, getLast?_cons, Option.some_or]

end init

/-- Overrides work for all zones and clients, just when they need no links in the first zone of a
class. -/
theorem lzType_longest_iff (lines : List ConfigLine) :
    (enterLines lines).initParents.Right ↔
      ∀ z ∈ (enterLines lines).zones.ztree, (enterLines lines).zones.FirstOfClass z →
        Covered (netblocks ((enterLines lines).overrideTree z)) := by
  have hok := enterLines_ok lines
  generalize enterLines lines = c at hok ⊢
  have hzones : c.initParents.zones = Localzone.initParents c.zones :=
    c.initParentsLoop_zones none
  have hsame := initParents_same hok.zones
  rw [OverrideZones.Right, hzones, hsame.ztree]
  apply forall₂_congr
  intro z hz
  obtain ⟨before, after, hsplit⟩ := append_of_mem hz
  have hnodup := hok.zones.nodup
  rw [hsplit] at hnodup
  have hbefore : z ∉ before := fun hmem => disjoint_of_nodup_append hnodup hmem mem_cons_self
  have hafter : z ∉ after := (nodup_cons.1 hnodup.of_append_right).1
  have htree := c.initParentsLoop_at none hbefore hafter
  rw [← hsplit, ← OverrideZones.initParents, Option.or_none] at htree
  rw [htree]
  by_cases hprev : before.getLast?.any
      (fun p => (c.zones.zone p).dclass = (c.zones.zone z).dclass) = true
  · rw [if_pos hprev]
    have hnot : ¬ c.zones.FirstOfClass z := by
      intro hfirst
      cases hlast : before.getLast? with
      | none =>
        rw [hlast] at hprev
        cases hprev
      | some p =>
        rw [hlast] at hprev
        exact hfirst before after hsplit p hlast (of_decide_eq_true hprev)
    refine iff_of_true ?_ fun hfirst => absurd hfirst hnot
    cases hold : c.overrideTree z with
    | none => exact fun _ _ _ _ => .inr ⟨nofun, rfl⟩
    | some t => exact (hok.trees z t hold).link_right
  · rw [if_neg hprev]
    have hfirst : c.zones.FirstOfClass z := by
      intro before' after' hsplit' p hp hclass
      rw [hsplit] at hsplit'
      obtain ⟨rfl, -⟩ := (append_cons_inj_of_notMem hbefore hafter).1 hsplit'
      exact hprev (by simp_all)
    rw [forall_prop_of_true hfirst]
    cases hold : c.overrideTree z with
    | none => exact iff_of_true (fun _ _ _ _ => .inr ⟨nofun, rfl⟩) nofun
    | some t => exact (hok.trees z t hold).right_iff

def net8 : AddrTreeNode := ⟨⟨.inet, [10, 0, 0, 0], rfl⟩, 8, by decide, by decide⟩

def net16 : AddrTreeNode := ⟨⟨.inet, [10, 1, 0, 0], rfl⟩, 16, by decide, by decide⟩

theorem lzType_first_zone_unlinked :
    let c := (enterLines [.zone [[97]] .static 1, .override (some [[97]]) (some net8) "refuse" 1,
      .override (some [[97]]) (some net16) "deny" 1]).initParents
    let client : SockAddr := ⟨.inet, [10, 2, 0, 0], rfl⟩
    c.zones.ztree = [0] ∧ netblocks (c.overrideTree 0) = [⟨net8, .refuse⟩, ⟨net16, .deny⟩] ∧
      net8.Contains client ∧ ¬ net16.Contains client ∧
      lzType none none [] (c.zones.zone 0).type (some client) (c.overrideTree 0) = .static := by
  unfold AddrTreeNode.Contains
  decide +kernel

end CwdGate.Localzone
