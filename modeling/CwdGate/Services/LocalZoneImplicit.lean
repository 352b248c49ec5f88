import CwdGate.Lib.Loop
import CwdGate.Services.LocalZone

namespace CwdGate.Localzone
open Lib Std List

def classIN : UInt16 := 1

/-- What `get_rr_nameclass` gives for a local-data line. -/
structure LocalRr where
  name : Name
  dclass : UInt16
  type : UInt16

structure LzConfig where
  localZones : List (String × String)
  localZonesNodefault : List String
  localZonesDisableDefault : Bool
  unblockLanZones : Bool
  localData : List String

structure Parsers where
  parseDname : String → Option Name
  getRrNameclass : String → Option LocalRr

section Enter
variable (parsers : Parsers)

def lzEnterZone (zones : LocalZones) (name type : String) (dclass : UInt16) : Option LocalZones :=
  match parsers.parseDname name with
  | none => none
  | some nm =>
    match localZoneStr2type type with
    | none => none
    | some t => some (lzEnterZoneDname zones nm t dclass).1

def lzEnterZones (zones : LocalZones) : List (String × String) → Option LocalZones
  | [] => some zones
  | (name, type) :: lines =>
    match lzEnterZone parsers zones name type classIN with
    | none => none
    | some zones => lzEnterZones zones lines

def lzExists (zones : LocalZones) (name : String) : Bool :=
  match parsers.parseDname name with
  | none => false
  | some nm => (localZonesFind zones nm classIN).isSome

def lzNodefault (cfg : LzConfig) (name : String) : Bool :=
  let text := name.toList
  let nodot := if text.getLast? = some '.' then text.dropLast else text
  !text.isEmpty && cfg.localZonesNodefault.any fun line =>
    (line.toList.take nodot.length).map Char.toLower = nodot.map Char.toLower &&
      (line.toList.length = nodot.length || line.toList.drop nodot.length = ['.'])

def as112Zones : List String :=
  ["10.in-addr.arpa.", "16.172.in-addr.arpa.", "17.172.in-addr.arpa.", "18.172.in-addr.arpa.",
   "19.172.in-addr.arpa.", "20.172.in-addr.arpa.", "21.172.in-addr.arpa.", "22.172.in-addr.arpa.",
   "23.172.in-addr.arpa.", "24.172.in-addr.arpa.", "25.172.in-addr.arpa.", "26.172.in-addr.arpa.",
   "27.172.in-addr.arpa.", "28.172.in-addr.arpa.", "29.172.in-addr.arpa.", "30.172.in-addr.arpa.",
   "31.172.in-addr.arpa.", "168.192.in-addr.arpa.", "0.in-addr.arpa.", "64.100.in-addr.arpa.",
   "65.100.in-addr.arpa.", "66.100.in-addr.arpa.", "67.100.in-addr.arpa.", "68.100.in-addr.arpa.",
   "69.100.in-addr.arpa.", "70.100.in-addr.arpa.", "71.100.in-addr.arpa.", "72.100.in-addr.arpa.",
   "73.100.in-addr.arpa.", "74.100.in-addr.arpa.", "75.100.in-addr.arpa.", "76.100.in-addr.arpa.",
   "77.100.in-addr.arpa.", "78.100.in-addr.arpa.", "79.100.in-addr.arpa.", "80.100.in-addr.arpa.",
   "81.100.in-addr.arpa.", "82.100.in-addr.arpa.", "83.100.in-addr.arpa.", "84.100.in-addr.arpa.",
   "85.100.in-addr.arpa.", "86.100.in-addr.arpa.", "87.100.in-addr.arpa.", "88.100.in-addr.arpa.",
   "89.100.in-addr.arpa.", "90.100.in-addr.arpa.", "91.100.in-addr.arpa.", "92.100.in-addr.arpa.",
   "93.100.in-addr.arpa.", "94.100.in-addr.arpa.", "95.100.in-addr.arpa.", "96.100.in-addr.arpa.",
   "97.100.in-addr.arpa.", "98.100.in-addr.arpa.", "99.100.in-addr.arpa.", "100.100.in-addr.arpa.",
   "101.100.in-addr.arpa.", "102.100.in-addr.arpa.", "103.100.in-addr.arpa.",
   "104.100.in-addr.arpa.", "105.100.in-addr.arpa.", "106.100.in-addr.arpa.",
   "107.100.in-addr.arpa.", "108.100.in-addr.arpa.", "109.100.in-addr.arpa.",
   "110.100.in-addr.arpa.", "111.100.in-addr.arpa.", "112.100.in-addr.arpa.",
   "113.100.in-addr.arpa.", "114.100.in-addr.arpa.", "115.100.in-addr.arpa.",
   "116.100.in-addr.arpa.", "117.100.in-addr.arpa.", "118.100.in-addr.arpa.",
   "119.100.in-addr.arpa.", "120.100.in-addr.arpa.", "121.100.in-addr.arpa.",
   "122.100.in-addr.arpa.", "123.100.in-addr.arpa.", "124.100.in-addr.arpa.",
   "125.100.in-addr.arpa.", "126.100.in-addr.arpa.", "127.100.in-addr.arpa.",
   "254.169.in-addr.arpa.", "2.0.192.in-addr.arpa.", "100.51.198.in-addr.arpa.",
   "113.0.203.in-addr.arpa.", "255.255.255.255.in-addr.arpa.",
   "0.0.0.0.0.0.0.0.0.0.0.0.0.0.0.0.0.0.0.0.0.0.0.0.0.0.0.0.0.0.0.0.ip6.arpa.", "d.f.ip6.arpa.",
   "8.e.f.ip6.arpa.", "9.e.f.ip6.arpa.", "a.e.f.ip6.arpa.", "b.e.f.ip6.arpa.",
   "8.b.d.0.1.0.0.2.ip6.arpa."]

/-- The zones of `local_zone_enter_defaults` with their types. -/
def defaultZones (cfg : LzConfig) : List (String × String) :=
  [("localhost.", "redirect"), ("127.in-addr.arpa.", "static"),
    ("1.0.0.0.0.0.0.0.0.0.0.0.0.0.0.0.0.0.0.0.0.0.0.0.0.0.0.0.0.0.0.0.ip6.arpa.", "static"),
    ("home.arpa.", "static"), ("onion.", "static"), ("test.", "static"), ("invalid.", "static")] ++
    if cfg.unblockLanZones then [] else as112Zones.map fun name => (name, "static")

/-- The default zones that are left are entered, unless they are there or not wanted. -/
def enterDefaultsLoop (cfg : LzConfig) (zones : LocalZones) :
    List (String × String) → Option LocalZones
  | [] => some zones
  | (name, type) :: rest =>
    if lzExists parsers zones name || lzNodefault cfg name then enterDefaultsLoop cfg zones rest
    else
      match lzEnterZone parsers zones name type classIN with
      | none => none
      | some zones => enterDefaultsLoop cfg zones rest

def localZoneEnterDefaults (cfg : LzConfig) (zones : LocalZones) : Option LocalZones :=
  if cfg.localZonesDisableDefault then some zones
  else enterDefaultsLoop parsers cfg zones (defaultZones cfg)

end Enter

section Implicit
variable (parsers : Parsers)

/-- The first name without zone, its class, and the labels that all such names of the class
share. -/
structure ImplicitName where
  nm : Name
  dclass : UInt16
  matched : Nat

structure ImplicitState where
  zones : LocalZones
  name : Option ImplicitName
  haveOtherClasses : Bool

/-- What `lz_setup_implicit` does with a record that has no zone. -/
def implicitCollect (s : Option ImplicitName × Bool) (rr : LocalRr) : Option ImplicitName × Bool :=
  match s.1 with
  | none => (some ⟨rr.name, rr.dclass, dnameCountLabels rr.name⟩, s.2)
  | some f =>
    if rr.dclass ≠ f.dclass then (some f, true)
    else
      let m := (dnameLabCmp f.nm (dnameCountLabels f.nm) rr.name (dnameCountLabels rr.name)).2
      (some { f with matched := if m < f.matched then m else f.matched }, s.2)

def implicitRecord (s : ImplicitState) (rr : LocalRr) : ImplicitState :=
  match localZonesLookup s.zones rr.name rr.dclass rr.type with
  | some _ => s
  | none =>
    match localZonesLookup s.zones rr.name classIN rr.type with
    | some z =>
      { s with zones :=
          (lzEnterZoneDname s.zones (s.zones.zone z).name (s.zones.zone z).type rr.dclass).1 }
    | none =>
      let r := implicitCollect (s.name, s.haveOtherClasses) rr
      ⟨s.zones, r.1, r.2⟩

def implicitLoop (s : ImplicitState) : List String → Option ImplicitState
  | [] => some s
  | line :: lines =>
    match parsers.getRrNameclass line with
    | none => none
    | some rr => implicitLoop (implicitRecord s rr) lines

def ImplicitName.zoneName (f : ImplicitName) : Name :=
  dnameRemoveLabels f.nm (dnameCountLabels f.nm - f.matched)

/-- A call of `lz_setup_implicit`, up to the restart, with whether it restarts. -/
def implicitCall (zones : LocalZones) (lines : List String) : Option (LocalZones × Bool) :=
  match implicitLoop parsers ⟨initParents zones, none, false⟩ lines with
  | none => none
  | some s =>
    match s.name with
    | none => some (s.zones, s.haveOtherClasses)
    | some f =>
      some ((lzEnterZoneDname s.zones f.zoneName .transparent f.dclass).1, s.haveOtherClasses)

/-- `lz_setup_implicit`, for a number of calls. -/
def lzSetupImplicit (lines : List String) : Nat → LocalZones → Option LocalZones
  | 0, _ => none
  | fuel + 1, zones =>
    match implicitCall parsers zones lines with
    | none => none
    | some (zones, true) => lzSetupImplicit lines fuel zones
    | some (zones, false) => some zones

/-- How `lz_enter_rr_str` ends: with a zone it enters the record into, or without. -/
inductive EnterRr where
  | badRr
  | fatalExit
  | intoZone (z : Nat)
  deriving DecidableEq, Repr

def lzEnterRrStr (zones : LocalZones) (line : String) : EnterRr :=
  match parsers.getRrNameclass line with
  | none => .badRr
  | some rr =>
    match localZonesLookup zones rr.name rr.dclass rr.type with
    | none => .fatalExit
    | some z => .intoZone z

end Implicit

def HasZone (zones : LocalZones) (rr : LocalRr) (dclass : UInt16) : Prop :=
  ∃ p ∈ zones.ztree, (zones.zone p).dclass = dclass ∧
    dnameSubdomainC (lookupName rr.name rr.type) (zones.zone p).name = true

instance (zones : LocalZones) (rr : LocalRr) (dclass : UInt16) :
    Decidable (HasZone zones rr dclass) :=
  inferInstanceAs (Decidable (∃ p ∈ zones.ztree, (zones.zone p).dclass = dclass ∧
    dnameSubdomainC (lookupName rr.name rr.type) (zones.zone p).name = true))

def Uncovered (zones : LocalZones) (rr : LocalRr) : Prop :=
  ¬ HasZone zones rr rr.dclass ∧ ¬ HasZone zones rr classIN

instance (zones : LocalZones) (rr : LocalRr) : Decidable (Uncovered zones rr) :=
  inferInstanceAs (Decidable (¬ HasZone zones rr rr.dclass ∧ ¬ HasZone zones rr classIN))

section lookup
variable {zones zones' : LocalZones} {rr : LocalRr} {dclass : UInt16}

theorem hasZone_iff : HasZone zones rr dclass ↔
    ∃ p ∈ zones.ztree, Above (zones.path p) (lookupPath rr.name dclass rr.type) := by
  refine exists_congr fun p => and_congr_right fun _ => ?_
  exact (above_iff _).symm

theorem LocalZones.Right.lookup_eq_none_iff (h : zones.Right) :
    localZonesLookup zones rr.name dclass rr.type = none ↔ ¬ HasZone zones rr dclass := by
  have hnear := localZonesLookup_nearest h.toOk h.parents rr.name dclass rr.type
  rw [hasZone_iff]
  cases hcase : localZonesLookup zones rr.name dclass rr.type with
  | none =>
    rw [hcase] at hnear
    refine iff_of_true rfl ?_
    rintro ⟨p, hp, habove⟩
    exact hnear p hp habove
  | some p =>
    rw [hcase] at hnear
    refine iff_of_false nofun ?_
    intro hnot
    exact hnot ⟨p, hnear.1, hnear.2.1⟩

theorem SameZones.hasZone_iff (h : SameZones zones zones') :
    HasZone zones' rr dclass ↔ HasZone zones rr dclass := by
  rw [Localzone.hasZone_iff, Localzone.hasZone_iff, h.ztree, h.path]

theorem SameZones.uncovered_iff (h : SameZones zones zones') :
    Uncovered zones' rr ↔ Uncovered zones rr := by
  rw [Uncovered, Uncovered, h.hasZone_iff, h.hasZone_iff]

def Extends (zones zones' : LocalZones) : Prop :=
  ∀ p ∈ zones.ztree, p ∈ zones'.ztree ∧ zones'.zone p = zones.zone p

theorem Extends.refl (zones : LocalZones) : Extends zones zones := fun _ hp => ⟨hp, rfl⟩

theorem Extends.trans (h : Extends zones zones') (h' : Extends zones' zones'') :
    Extends zones zones'' := by
  intro p hp
  obtain ⟨hp', heq⟩ := h p hp
  obtain ⟨hp'', heq'⟩ := h' p hp'
  exact ⟨hp'', heq'.trans heq⟩

theorem Extends.hasZone (h : Extends zones zones') (hz : HasZone zones rr dclass) :
    HasZone zones' rr dclass := by
  obtain ⟨p, hp, hzone⟩ := hz
  obtain ⟨hp', heq⟩ := h p hp
  refine ⟨p, hp', ?_⟩
  rw [heq]
  exact hzone

theorem Inserted.extends (h : Inserted zones z zones') : Extends zones zones' :=
  fun p hp => ⟨(h.mem p).2 (.inr hp), h.old p hp⟩

structure Entered (zones : LocalZones) (name : Name) (dclass : UInt16) (zones' : LocalZones) :
    Prop where
  ok : zones'.Ok
  grows : Extends zones zones'
  there : ∃ p ∈ zones'.ztree, zones'.path p = (dclass, key name)
  only : ∀ p ∈ zones'.ztree, p ∉ zones.ztree → zones'.path p = (dclass, key name) ∧
    zones'.parent p = none

theorem lzEnterZoneDname_entered (h : zones.Ok) (name : Name) (type : LocalzoneType)
    (dclass : UInt16) : Entered zones name dclass (lzEnterZoneDname zones name type dclass).1 := by
  rcases insert_cases h (localZoneCreate name type dclass) with
    ⟨p, hfind, heq⟩ | ⟨-, zones', hins, heq⟩
  · rw [lzEnterZoneDname, heq]
    exact ⟨h, .refl _, ⟨p, localZonesFind_some hfind⟩, fun _ hp hnot => absurd hp hnot⟩
  rw [lzEnterZoneDname, heq]
  have hpath : zones'.path zones.next = (dclass, key name) := by
    rw [LocalZones.path, hins.new]
    rfl
  have hparent : zones'.parent zones.next = none := by
    rw [LocalZones.parent, hins.new]
    rfl
  refine ⟨hins.ok, hins.extends, ⟨_, (hins.mem _).2 (.inl rfl), hpath⟩, ?_⟩
  intro p hp hnot
  rw [((hins.mem p).1 hp).resolve_right hnot]
  exact ⟨hpath, hparent⟩

end lookup

/-- The tree in the loop of `lz_setup_implicit`: new zones have the name of one of class IN. -/
structure Grown (old zones : LocalZones) : Prop where
  ok : zones.Ok
  grows : Extends old zones
  parents : Parents old.ztree zones.ztree zones.path zones.parent
  new : ∀ p ∈ zones.ztree, p ∉ old.ztree → (zones.zone p).dclass ≠ classIN ∧
    ∃ q ∈ old.ztree, (old.zone q).dclass = classIN ∧ key (zones.zone p).name = key (old.zone q).name

section loop
variable {old zones : LocalZones} {rr : LocalRr}

theorem Extends.path (h : Extends old zones) (hp : p ∈ old.ztree) : zones.path p = old.path p := by
  rw [LocalZones.path, (h p hp).2]
  rfl

theorem Grown.start (h : old.Right) : Grown old old :=
  ⟨h.toOk, .refl _, h.parents, fun _ hp hnot => absurd hp hnot⟩

section
variable (h : Grown old zones)
include h

theorem Grown.lookup_none (hnone : localZonesLookup zones rr.name dclass rr.type = none) :
    ¬ HasZone old rr dclass := by
  rw [hasZone_iff]
  rintro ⟨q, hq, habove⟩
  rw [← h.grows.path hq] at habove
  rcases localZonesLookup_cases h.ok (fun p hp => (h.grows p hp).1) h.parents with ⟨-, hall⟩ | ⟨x, -, hnear⟩
  · exact hall q (h.grows q hq).1 habove
  · rw [hnone] at hnear
    exact hnear q (mem_cons_of_mem _ hq) habove

theorem Grown.lookup_some (hsome : localZonesLookup zones rr.name dclass rr.type = some p) :
    p ∈ zones.ztree ∧ Above (zones.path p) (lookupPath rr.name dclass rr.type) := by
  rcases localZonesLookup_cases h.ok (fun p hp => (h.grows p hp).1) h.parents with ⟨hnone, -⟩ | ⟨x, hx, hnear⟩
  · rw [hsome] at hnone
    cases hnone
  · rw [hsome] at hnear
    refine ⟨?_, hnear.2.1⟩
    rcases mem_cons.1 hnear.1 with rfl | hp
    · exact hx
    · exact (h.grows p hp).1

theorem Grown.hasZone_old (hp : p ∈ zones.ztree)
    (habove : Above (zones.path p) (lookupPath rr.name dclass rr.type)) :
    HasZone old rr dclass ∨ HasZone old rr classIN := by
  by_cases hold : p ∈ old.ztree
  · rw [h.grows.path hold] at habove
    exact .inl (hasZone_iff.2 ⟨p, hold, habove⟩)
  · obtain ⟨-, q, hq, hclass, hname⟩ := h.new p hp hold
    refine .inr (hasZone_iff.2 ⟨q, hq, hclass, ?_⟩)
    have hkey : (zones.path p).2 = (old.path q).2 := hname
    rw [← hkey]
    exact habove.2

theorem Grown.uncovered_iff :
    (localZonesLookup zones rr.name rr.dclass rr.type = none ∧
      localZonesLookup zones rr.name classIN rr.type = none) ↔ Uncovered old rr := by
  constructor
  · rintro ⟨hown, hin⟩
    exact ⟨h.lookup_none hown, h.lookup_none hin⟩
  rintro ⟨hown, hin⟩
  refine ⟨Option.eq_none_iff_forall_ne_some.2 ?_, Option.eq_none_iff_forall_ne_some.2 ?_⟩
  all_goals
    intro p hsome
    obtain ⟨hp, habove⟩ := h.lookup_some hsome
    rcases h.hasZone_old hp habove with hz | hz
  · exact hown hz
  · exact hin hz
  · exact hin hz
  · exact hin hz

theorem Grown.enter (hown : localZonesLookup zones rr.name rr.dclass rr.type = none)
    (hin : localZonesLookup zones rr.name classIN rr.type = some z)
    (hent : Entered zones (zones.zone z).name rr.dclass zones') :
    Grown old zones' ∧ HasZone zones' rr rr.dclass := by
  obtain ⟨hz, habove⟩ := h.lookup_some hin
  have hclass := habove.1
  have hzold : z ∈ old.ztree := by
    by_contra hnot
    exact (h.new z hz hnot).1 hclass
  have hne : rr.dclass ≠ classIN := by
    intro heq
    rw [heq, hin] at hown
    cases hown
  have hcover : Above (rr.dclass, key (zones.zone z).name)
      (lookupPath rr.name rr.dclass rr.type) := ⟨rfl, habove.2⟩
  have holds : ∀ p ∈ old.ztree, p ∈ zones.ztree := fun p hp => (h.grows p hp).1
  refine ⟨⟨hent.ok, h.grows.trans hent.grows, ?_, ?_⟩, ?_⟩
  · have hpar : Parents old.ztree zones.ztree zones'.path zones'.parent := by
      apply h.parents.congr holds
      · intro p hp
        rw [LocalZones.parent, (hent.grows p hp).2]
        rfl
      · intro p hp
        exact hent.grows.path hp
    intro p hp
    by_cases hpz : p ∈ zones.ztree
    · exact hpar p hpz
    · obtain ⟨hpath, hparent⟩ := hent.only p hp hpz
      rw [hparent, hpath]
      intro q hq hqp
      apply h.lookup_none hown
      rw [(h.grows.trans hent.grows).path hq] at hqp
      exact hasZone_iff.2 ⟨q, hq, hqp.1.trans hcover⟩
  · intro p hp hnot
    by_cases hpz : p ∈ zones.ztree
    · rw [(hent.grows p hpz).2]
      exact h.new p hpz hnot
    · obtain ⟨hpath, -⟩ := hent.only p hp hpz
      have hpc : (zones'.zone p).dclass = rr.dclass := congrArg Prod.fst hpath
      have hpk : key (zones'.zone p).name = key (zones.zone z).name := congrArg Prod.snd hpath
      rw [hpc, hpk]
      refine ⟨hne, z, hzold, ?_⟩
      rw [← (h.grows z hzold).2]
      exact ⟨hclass, rfl⟩
  · obtain ⟨p, hp, hpath⟩ := hent.there
    exact hasZone_iff.2 ⟨p, hp, hpath ▸ hcover⟩

end

/-- A turn of the loop: a record without a zone is collected, for any other there is a zone. -/
structure RecordTurn (old : LocalZones) (s : ImplicitState) (rr : LocalRr) (s' : ImplicitState) :
    Prop where
  grown : Grown old s'.zones
  grows : Extends s.zones s'.zones
  covered : Uncovered old rr ∨ HasZone s'.zones rr rr.dclass
  collected : (s'.name, s'.haveOtherClasses) =
    if Uncovered old rr then implicitCollect (s.name, s.haveOtherClasses) rr
    else (s.name, s.haveOtherClasses)

theorem implicitRecord_turn {s : ImplicitState} (h : Grown old s.zones) :
    RecordTurn old s rr (implicitRecord s rr) := by
  have hiff := @Grown.uncovered_iff old s.zones rr h
  rw [implicitRecord]
  split
  case h_1 p hown =>
    have hnot : ¬ Uncovered old rr := by
      rw [← hiff, hown]
      exact nofun
    refine ⟨h, .refl _, .inr ?_, (if_neg hnot).symm⟩
    exact hasZone_iff.2 ⟨p, h.lookup_some hown⟩
  case h_2 hown =>
    split
    case h_1 z hin =>
      have hnot : ¬ Uncovered old rr := by
        rw [← hiff, hin]
        exact fun h => nomatch h.2
      have hent := lzEnterZoneDname_entered h.ok (s.zones.zone z).name (s.zones.zone z).type
        rr.dclass
      obtain ⟨hgrown, hzone⟩ := h.enter hown hin hent
      exact ⟨hgrown, hent.grows, .inr hzone, (if_neg hnot).symm⟩
    case h_2 hin =>
      have hun := hiff.1 ⟨hown, hin⟩
      exact ⟨h, .refl _, .inl hun, (if_pos hun).symm⟩

def records (parsers : Parsers) (lines : List String) : List LocalRr :=
  lines.filterMap parsers.getRrNameclass

structure LoopRun (old : LocalZones) (rrs : List LocalRr) (s s' : ImplicitState) : Prop where
  grown : Grown old s'.zones
  grows : Extends s.zones s'.zones
  covered : ∀ rr ∈ rrs, Uncovered old rr ∨ HasZone s'.zones rr rr.dclass
  collected : (s'.name, s'.haveOtherClasses) =
    (rrs.filter fun rr => Uncovered old rr).foldl implicitCollect (s.name, s.haveOtherClasses)

theorem implicitLoop_run (h : Grown old s.zones) (hloop : implicitLoop parsers s lines = some s') :
    LoopRun old (records parsers lines) s s' := by
  induction lines generalizing s with
  | nil =>
    cases hloop
    exact ⟨h, .refl _, nofun, rfl⟩
  | cons line lines ih =>
    rw [implicitLoop] at hloop
    split at hloop
    case h_1 => cases hloop
    case h_2 rr hrr =>
      have hturn := @implicitRecord_turn old rr s h
      have hrun := ih hturn.grown hloop
      have hrecords : records parsers (line :: lines) = rr :: records parsers lines :=
        filterMap_cons_some hrr
      rw [hrecords]
      refine ⟨hrun.grown, hturn.grows.trans hrun.grows, ?_, ?_⟩
      · exact forall_mem_cons.2 ⟨hturn.covered.imp_right hrun.grows.hasZone, hrun.covered⟩
      · rw [hrun.collected, hturn.collected, filter_cons]
        by_cases hun : Uncovered old rr
        · rw [if_pos hun, if_pos (decide_eq_true hun)]
          rfl
        · rw [if_neg hun, if_neg fun h => hun (of_decide_eq_true h)]

end loop

/-- The labels that the name of a record shares with a name, the root included. -/
def shared (nm : Name) (rr : LocalRr) : Nat := commonLen (key nm) (key rr.name) + 1

/-- The records that were collected after a first name: the labels that all of its class share. -/
structure Collected (f : ImplicitName) (rrs : List LocalRr) (f' : ImplicitName) : Prop where
  nm : f'.nm = f.nm
  dclass : f'.dclass = f.dclass
  le : f'.matched ≤ f.matched
  below : ∀ rr ∈ rrs, rr.dclass = f.dclass → f'.matched ≤ shared f.nm rr
  greatest : ∀ k ≤ f.matched, (∀ rr ∈ rrs, rr.dclass = f.dclass → k ≤ shared f.nm rr) →
    k ≤ f'.matched

theorem implicitCollect_same (h : rr.dclass = f.dclass) :
    implicitCollect (some f, other) rr =
      (some { f with matched := min (shared f.nm rr) f.matched }, other) := by
  have hm : (if shared f.nm rr < f.matched then shared f.nm rr else f.matched) =
      min (shared f.nm rr) f.matched := by
    split
    case isTrue hlt => exact (Nat.min_eq_left hlt.le).symm
    case isFalse hge => exact (Nat.min_eq_right (Nat.not_lt.1 hge)).symm
  simp only [implicitCollect, dnameLabCmp_spec, h, ne_eq, not_true_eq_false, if_false]
  rw [← hm]
  rfl

theorem foldl_implicitCollect (f : ImplicitName) (other : Bool) (rrs : List LocalRr) :
    ∃ f', rrs.foldl implicitCollect (some f, other) =
        (some f', other || rrs.any fun rr => rr.dclass ≠ f.dclass) ∧ Collected f rrs f' := by
  induction rrs generalizing f other with
  | nil =>
    refine ⟨f, ?_, rfl, rfl, le_rfl, nofun, fun k hk _ => hk⟩
    rw [any_nil, Bool.or_false]
    rfl
  | cons rr rrs ih =>
    rw [foldl_cons, any_cons]
    by_cases hclass : rr.dclass = f.dclass
    · obtain ⟨f', hfold, hcoll⟩ := ih { f with matched := min (shared f.nm rr) f.matched } other
      refine ⟨f', ?_, ?_⟩
      · rw [implicitCollect_same hclass, hfold, hclass]
        simp
      refine ⟨hcoll.nm, hcoll.dclass, hcoll.le.trans (Nat.min_le_right _ _), ?_, ?_⟩
      · intro r hr hr'
        rcases mem_cons.1 hr with rfl | hr
        · exact hcoll.le.trans (Nat.min_le_left _ _)
        · exact hcoll.below r hr hr'
      · intro k hk hall
        apply hcoll.greatest k
        · exact Nat.le_min.2 ⟨hall rr mem_cons_self hclass, hk⟩
        · intro r hr
          exact hall r (mem_cons_of_mem _ hr)
    · have hother : implicitCollect (some f, other) rr = (some f, true) := if_pos hclass
      obtain ⟨f', hfold, hcoll⟩ := ih f true
      refine ⟨f', ?_, hcoll.nm, hcoll.dclass, hcoll.le, ?_, ?_⟩
      · rw [hother, hfold]
        simp [hclass]
      · intro r hr hr'
        rcases mem_cons.1 hr with rfl | hr
        · exact absurd hr' hclass
        · exact hcoll.below r hr hr'
      · intro k hk hall
        exact hcoll.greatest k hk (forall_mem_cons.1 hall).2

/-- The implicit zone has the longest name at or above all names of its class. -/
structure SharedTop (rrs : List LocalRr) (f : ImplicitName) : Prop where
  above : ∀ rr ∈ rrs, rr.dclass = f.dclass → key f.zoneName <+: key rr.name
  longest : ∀ k, (∀ rr ∈ rrs, rr.dclass = f.dclass → k <+: key rr.name) → k <+: key f.zoneName

theorem Collected.key_zoneName {r : LocalRr} {f : ImplicitName}
    (h : Collected ⟨r.name, r.dclass, dnameCountLabels r.name⟩ rrs f) :
    key f.zoneName = (key r.name).take (f.matched - 1) := by
  have hnm : f.nm = r.name := h.nm
  have hle : f.matched ≤ r.name.length + 1 := h.le
  rw [ImplicitName.zoneName, hnm, dnameRemoveLabels, key_drop, dnameCountLabels]
  congr 1
  omega

theorem Collected.sharedTop {rrs : List LocalRr}
    (h : Collected ⟨r.name, r.dclass, dnameCountLabels r.name⟩ rrs f) : SharedTop (r :: rrs) f := by
  have hclass := h.dclass
  refine ⟨?_, ?_⟩
  · intro r' hr' hclass'
    rw [h.key_zoneName]
    rcases mem_cons.1 hr' with rfl | hr'
    · exact take_prefix _ _
    · apply take_prefix_of_le_commonLen
      have hbelow := h.below r' hr' (hclass'.trans hclass)
      exact Nat.sub_le_of_le_add hbelow
  · intro k hk
    have hfirst := hk r mem_cons_self hclass.symm
    have hlen : k.length + 1 ≤ f.matched := by
      apply h.greatest
      · have hle := hfirst.length_le
        rw [length_key] at hle
        exact Nat.succ_le_succ hle
      · intro r' hr' hclass'
        have hk' := hk r' (mem_cons_of_mem _ hr') (hclass'.trans hclass.symm)
        exact Nat.succ_le_succ (length_le_commonLen hfirst hk')
    rw [h.key_zoneName, prefix_iff_eq_take.1 hfirst]
    exact take_prefix_take_left (Nat.le_sub_of_add_le hlen)

theorem foldl_implicitCollect_none (hne : rrs ≠ []) :
    ∃ f other, rrs.foldl implicitCollect (none, false) = (some f, other) ∧ SharedTop rrs f ∧
      (∃ rr ∈ rrs, rr.dclass = f.dclass) ∧ (other = false → ∀ rr ∈ rrs, rr.dclass = f.dclass) := by
  obtain ⟨r, rrs, rfl⟩ := exists_cons_of_ne_nil hne
  obtain ⟨f, hfold, hcoll⟩ :=
    foldl_implicitCollect ⟨r.name, r.dclass, dnameCountLabels r.name⟩ false rrs
  have hclass := hcoll.dclass
  refine ⟨f, _, hfold, hcoll.sharedTop, ⟨r, mem_cons_self, hclass.symm⟩, ?_⟩
  intro hother r' hr'
  rw [hclass]
  rcases mem_cons.1 hr' with rfl | hr'
  · rfl
  · rw [Bool.false_or, any_eq_false] at hother
    simpa using hother r' hr'

section call
variable {parsers : Parsers} {zones : LocalZones}

/-- A record of type DS without a zone whose owner all other such records are at or below. -/
def LoneDs (zones : LocalZones) (rrs : List LocalRr) : Prop :=
  ∃ rr ∈ rrs, rr.type = RrType.ds ∧ rr.name ≠ [] ∧ Uncovered zones rr ∧
    ∀ r ∈ rrs, Uncovered zones r → dnameSubdomainC r.name rr.name = true

/-- A call enters a zone for the records without one. -/
structure NamedCall (zones : LocalZones) (rrs : List LocalRr) (zones' : LocalZones)
    (restart : Bool) (f : ImplicitName) : Prop where
  top : SharedTop (rrs.filter fun rr => Uncovered zones rr) f
  first : ∃ rr ∈ rrs, Uncovered zones rr ∧ rr.dclass = f.dclass
  same : restart = false → ∀ rr ∈ rrs, Uncovered zones rr → rr.dclass = f.dclass
  there : ∃ p ∈ zones'.ztree, zones'.path p = (f.dclass, key f.zoneName)
  only : ∀ rr, Uncovered zones rr → ∀ p ∈ zones'.ztree,
    Above (zones'.path p) (lookupPath rr.name rr.dclass rr.type) →
    zones'.path p = (f.dclass, key f.zoneName)

structure CallRun (zones : LocalZones) (rrs : List LocalRr) (zones' : LocalZones)
    (restart : Bool) : Prop where
  ok : zones'.Ok
  keeps : ∀ rr dclass, HasZone zones rr dclass → HasZone zones' rr dclass
  covered : ∀ rr ∈ rrs, Uncovered zones rr ∨ HasZone zones' rr rr.dclass
  named : (restart = false ∧ ∀ rr ∈ rrs, ¬ Uncovered zones rr) ∨
    ∃ f, NamedCall zones rrs zones' restart f

theorem LoopRun.namedCall (hsame : SameZones zones old)
    (hrun : LoopRun old rrs ⟨old, none, false⟩ s) (hname : s.name = some f)
    (hent : Entered s.zones f.zoneName f.dclass zones') :
    NamedCall zones rrs zones' s.haveOtherClasses f := by
  have hcoll := hrun.collected
  simp only [hsame.uncovered_iff] at hcoll
  have hmem : ∀ rr, rr ∈ rrs.filter (fun rr => Uncovered zones rr) ↔
      rr ∈ rrs ∧ Uncovered zones rr := by
    intro rr
    rw [mem_filter, decide_eq_true_eq]
  have hne : rrs.filter (fun rr => Uncovered zones rr) ≠ [] := by
    intro hnil
    rw [hnil, hname] at hcoll
    cases hcoll
  obtain ⟨f', other, hfold, htop, ⟨rr, hrr, hclass⟩, hother⟩ := foldl_implicitCollect_none hne
  rw [hname, hfold] at hcoll
  cases hcoll
  obtain ⟨hrr, hun⟩ := (hmem rr).1 hrr
  refine ⟨htop, ⟨rr, hrr, hun, hclass⟩, ?_, hent.there, ?_⟩
  · intro hrestart r hr hun
    exact hother hrestart r ((hmem r).2 ⟨hr, hun⟩)
  · intro r hun p hp habove
    by_cases hps : p ∈ s.zones.ztree
    · exfalso
      rw [hent.grows.path hps] at habove
      have hun' := hsame.uncovered_iff.2 hun
      exact (hrun.grown.hasZone_old hps habove).elim hun'.1 hun'.2
    · exact (hent.only p hp hps).1

theorem implicitCall_run (h : zones.Ok)
    (hcall : implicitCall parsers zones lines = some (zones', restart)) :
    CallRun zones (records parsers lines) zones' restart := by
  have hstart := Grown.start (initParents_right h)
  have hsame := initParents_same h
  rw [implicitCall] at hcall
  generalize initParents zones = old at *
  split at hcall
  case h_1 => cases hcall
  case h_2 s hloop =>
    have hrun := implicitLoop_run hstart hloop
    have hcovered : ∀ rr ∈ records parsers lines,
        Uncovered zones rr ∨ HasZone s.zones rr rr.dclass := by
      intro rr hrr
      exact (hrun.covered rr hrr).imp_left hsame.uncovered_iff.1
    have hkeeps : ∀ rr dclass, HasZone zones rr dclass → HasZone s.zones rr dclass := by
      intro rr dclass hz
      exact hrun.grows.hasZone (hsame.hasZone_iff.2 hz)
    split at hcall
    case h_1 hname =>
      cases hcall
      have hcoll := hrun.collected
      have hnil : (records parsers lines).filter (fun rr => Uncovered old rr) = [] := by
        by_contra hne
        obtain ⟨f, other, hfold, -⟩ := foldl_implicitCollect_none hne
        rw [hname, hfold] at hcoll
        cases hcoll
      rw [hnil] at hcoll
      refine ⟨hrun.grown.ok, hkeeps, hcovered, .inl ⟨congrArg Prod.snd hcoll, ?_⟩⟩
      intro rr hrr hun
      have hnot := filter_eq_nil_iff.1 hnil rr hrr
      exact hnot (decide_eq_true (hsame.uncovered_iff.2 hun))
    case h_2 f hname =>
      cases hcall
      have hent := lzEnterZoneDname_entered hrun.grown.ok f.zoneName .transparent f.dclass
      refine ⟨hent.ok, ?_, ?_, .inr ⟨f, hrun.namedCall hsame hname hent⟩⟩
      · intro rr dclass hz
        exact hent.grows.hasZone (hkeeps rr dclass hz)
      · intro rr hrr
        exact (hcovered rr hrr).imp_right hent.grows.hasZone

theorem NamedCall.hasZone (h : NamedCall zones rrs zones' restart f)
    (hclass : rr.dclass = f.dclass) (hname : key f.zoneName <+: key (lookupName rr.name rr.type)) :
    HasZone zones' rr rr.dclass := by
  obtain ⟨p, hp, hpath⟩ := h.there
  refine hasZone_iff.2 ⟨p, hp, ?_⟩
  rw [hpath, hclass]
  exact ⟨rfl, hname⟩

theorem NamedCall.hasZone_or (h : NamedCall zones rrs zones' restart f)
    (hrr : rr ∈ rrs) (hun : Uncovered zones rr) (hclass : rr.dclass = f.dclass) :
    HasZone zones' rr rr.dclass ∨
      (rr.type = RrType.ds ∧ rr.name ≠ [] ∧ key f.zoneName = key rr.name) := by
  have htop := h.top.above rr (mem_filter.2 ⟨hrr, decide_eq_true hun⟩) hclass
  by_cases hds : rr.type = RrType.ds ∧ rr.name ≠ []
  · have hname : lookupName rr.name rr.type = rr.name.tail := if_pos hds
    obtain ⟨l, n, hcons⟩ := exists_cons_of_ne_nil hds.2
    rw [hcons, key_cons] at htop
    rcases prefix_concat_iff.1 htop with heq | hpre
    · refine .inr ⟨hds.1, hds.2, ?_⟩
      rw [hcons, key_cons]
      exact heq
    · refine .inl (h.hasZone hclass ?_)
      rw [hname, hcons]
      exact hpre
  · have hname : lookupName rr.name rr.type = rr.name := if_neg hds
    refine .inl (h.hasZone hclass ?_)
    rw [hname]
    exact htop

theorem CallRun.covers_iff (h : CallRun zones rrs zones' false) :
    (∀ rr ∈ rrs, HasZone zones' rr rr.dclass) ↔ ¬ LoneDs zones rrs := by
  constructor
  · rintro hall ⟨rr, hrr, hds, hroot, hun, hbelow⟩
    rcases h.named with ⟨-, hnone⟩ | ⟨f, hf⟩
    · exact hnone rr hrr hun
    obtain ⟨p, hp, habove⟩ := hasZone_iff.1 (hall rr hrr)
    have hpath := hf.only rr hun p hp habove
    have htop : key rr.name <+: key f.zoneName := by
      apply hf.top.longest
      intro r hr _
      obtain ⟨hr, hun'⟩ := mem_filter.1 hr
      exact (dnameSubdomainC_iff _ _).1 (hbelow r hr (of_decide_eq_true hun'))
    rw [hpath] at habove
    have hlen := (htop.trans habove.2).length_le
    have hname : lookupName rr.name rr.type = rr.name.tail := if_pos ⟨hds, hroot⟩
    rw [lookupPath, hname, length_key, length_key, length_tail] at hlen
    have hpos := length_pos_of_ne_nil hroot
    omega
  · intro hlone rr hrr
    rcases h.covered rr hrr with hun | hz
    · rcases h.named with ⟨-, hnone⟩ | ⟨f, hf⟩
      · exact absurd hun (hnone rr hrr)
      · have hclass := hf.same rfl
        rcases hf.hasZone_or hrr hun (hclass rr hrr hun) with hz | ⟨hds, hroot, hkey⟩
        · exact hz
        · refine absurd ⟨rr, hrr, hds, hroot, hun, ?_⟩ hlone
          intro r hr hun'
          rw [dnameSubdomainC_iff, ← hkey]
          exact hf.top.above r (mem_filter.2 ⟨hr, decide_eq_true hun'⟩) (hclass r hr hun')
    · exact hz

end call

section setup
variable {parsers : Parsers} {zones : LocalZones}

/-- The tree in which the last call of `lz_setup_implicit` starts, the first one or a restart. -/
inductive LastCall (parsers : Parsers) (lines : List String) : LocalZones → LocalZones → Prop where
  | here {zones zones' : LocalZones} : implicitCall parsers zones lines = some (zones', false) →
      LastCall parsers lines zones zones
  | restart {zones zones' last : LocalZones} :
      implicitCall parsers zones lines = some (zones', true) →
      LastCall parsers lines zones' last → LastCall parsers lines zones last

theorem lzSetupImplicit_last (h : zones.Ok)
    (hsetup : lzSetupImplicit parsers lines fuel zones = some zones') :
    ∃ last, LastCall parsers lines zones last ∧
      CallRun last (records parsers lines) zones' false := by
  induction fuel generalizing zones with
  | zero => cases hsetup
  | succ fuel ih =>
    rw [lzSetupImplicit] at hsetup
    split at hsetup
    case h_1 => cases hsetup
    case h_2 zones₁ hcall =>
      obtain ⟨last, hlast, hrun⟩ := ih (implicitCall_run h hcall).ok hsetup
      exact ⟨last, .restart hcall hlast, hrun⟩
    case h_3 zones₁ hcall =>
      cases hsetup
      exact ⟨zones, .here hcall, implicitCall_run h hcall⟩

theorem implicitLoop_isSome (hparse : ∀ line ∈ lines, (parsers.getRrNameclass line).isSome = true)
    (s : ImplicitState) : ∃ s', implicitLoop parsers s lines = some s' := by
  induction lines generalizing s with
  | nil => exact ⟨s, rfl⟩
  | cons line lines ih =>
    obtain ⟨rr, hrr⟩ := Option.isSome_iff_exists.1 (hparse line mem_cons_self)
    obtain ⟨s', hs'⟩ := ih (forall_mem_cons.1 hparse).2 (implicitRecord s rr)
    refine ⟨s', ?_⟩
    rw [implicitLoop, hrr]
    exact hs'

theorem implicitCall_isSome (hparse : ∀ line ∈ lines, (parsers.getRrNameclass line).isSome = true) :
    ∃ r, implicitCall parsers zones lines = some r := by
  obtain ⟨s, hs⟩ := implicitLoop_isSome hparse ⟨initParents zones, none, false⟩
  rw [implicitCall, hs]
  dsimp only
  split
  · exact ⟨_, rfl⟩
  · exact ⟨_, rfl⟩

theorem CallRun.fewer (h : CallRun zones rrs zones' true) (hds : ∀ rr ∈ rrs, rr.type ≠ RrType.ds) :
    rrs.countP (fun rr => Uncovered zones' rr) < rrs.countP fun rr => Uncovered zones rr := by
  have hmono : ∀ l : List LocalRr,
      l.countP (fun rr => Uncovered zones' rr) ≤ l.countP fun rr => Uncovered zones rr := by
    intro l
    apply countP_mono_left
    intro rr _ hun
    obtain ⟨hown, hin⟩ := of_decide_eq_true hun
    exact decide_eq_true ⟨fun hz => hown (h.keeps _ _ hz), fun hz => hin (h.keeps _ _ hz)⟩
  rcases h.named with ⟨hnot, -⟩ | ⟨f, hf⟩
  · cases hnot
  · obtain ⟨rr, hrr, hun, hclass⟩ := hf.first
    have hz := (hf.hasZone_or hrr hun hclass).resolve_right fun h => hds rr hrr h.1
    obtain ⟨xs, ys, rfl⟩ := append_of_mem hrr
    have hxs := hmono xs
    have hys := hmono ys
    have hnot : ¬ Uncovered zones' rr := fun h => h.1 hz
    simp only [countP_append, countP_cons, hun, hnot, decide_true, decide_false, if_true,
      Bool.false_eq_true, if_false]
    omega

/-- If all local data parses and there are no DS records, `lz_setup_implicit` comes to an end. -/
theorem lzSetupImplicit_ends (h : zones.Ok)
    (hparse : ∀ line ∈ lines, (parsers.getRrNameclass line).isSome = true)
    (hds : ∀ rr ∈ records parsers lines, rr.type ≠ RrType.ds)
    (hfuel : (records parsers lines).countP (fun rr => Uncovered zones rr) < fuel) :
    ∃ zones', lzSetupImplicit parsers lines fuel zones = some zones' := by
  induction fuel generalizing zones with
  | zero => exact absurd hfuel (Nat.not_lt_zero _)
  | succ fuel ih =>
    obtain ⟨⟨zones₁, restart⟩, hcall⟩ := implicitCall_isSome hparse
    have hrun := implicitCall_run h hcall
    rw [lzSetupImplicit, hcall]
    cases restart with
    | false => exact ⟨zones₁, rfl⟩
    | true =>
      apply ih hrun.ok
      exact Nat.lt_of_lt_of_le (hrun.fewer hds) (Nat.le_of_lt_succ hfuel)

theorem LastCall.unique (h : LastCall parsers lines zones last)
    (h' : LastCall parsers lines zones last') : last = last' := by
  induction h with
  | here hcall =>
    cases h' with
    | here => rfl
    | restart hcall' _ => cases hcall.symm.trans hcall'
  | restart hcall _ ih =>
    cases h' with
    | here hcall' => cases hcall.symm.trans hcall'
    | restart hcall' hlast =>
      cases hcall.symm.trans hcall'
      exact ih hlast

theorem lzEnterZone_ok (h : zones.Ok) :
    Post (lzEnterZone parsers zones name type dclass) LocalZones.Ok := by
  rw [lzEnterZone]
  split
  · exact .none
  · split
    · exact .none
    · exact .some (lzEnterZoneDname_entered h _ _ _).ok

theorem lzEnterZones_ok (h : zones.Ok) : Post (lzEnterZones parsers zones lines) LocalZones.Ok := by
  induction lines generalizing zones with
  | nil => exact .some h
  | cons line lines ih =>
    rw [lzEnterZones]
    split
    · exact .none
    · exact ih (lzEnterZone_ok h _ ‹_›)

theorem enterDefaultsLoop_ok (h : zones.Ok) :
    Post (enterDefaultsLoop parsers cfg zones rest) LocalZones.Ok := by
  induction rest generalizing zones with
  | nil => exact .some h
  | cons line rest ih =>
    rw [enterDefaultsLoop]
    split
    · exact ih h
    · split
      · exact .none
      · exact ih (lzEnterZone_ok h _ ‹_›)

theorem localZoneEnterDefaults_ok (h : zones.Ok) :
    Post (localZoneEnterDefaults parsers cfg zones) LocalZones.Ok := by
  rw [localZoneEnterDefaults]
  split
  · exact .some h
  · exact enterDefaultsLoop_ok h

theorem lzEnterRrStr_ne_fatalExit_iff (h : zones.Right) :
    lzEnterRrStr parsers zones line ≠ .fatalExit ↔
      ∀ rr, parsers.getRrNameclass line = some rr → HasZone zones rr rr.dclass := by
  rw [lzEnterRrStr]
  split
  case h_1 hparse =>
    refine iff_of_true nofun ?_
    intro rr hrr
    rw [hparse] at hrr
    cases hrr
  case h_2 rr hparse =>
    have hiff := @LocalZones.Right.lookup_eq_none_iff zones rr rr.dclass h
    rw [hparse]
    split
    case h_1 hnone =>
      refine iff_of_false (fun h => h rfl) ?_
      intro hall
      exact hiff.1 hnone (hall rr rfl)
    case h_2 z hsome =>
      refine iff_of_true nofun ?_
      rintro r ⟨⟩
      by_contra hnot
      rw [hiff.2 hnot] at hsome
      cases hsome

/-- All local data finds a zone, just when the last `lz_setup_implicit` does not start with a lone
DS. -/
theorem local_data_has_zone_iff (parsers : Parsers) (cfg : LzConfig)
    (zones zones₁ zones₂ zones₃ : LocalZones) (fuel : Nat) (hok : zones.Ok)
    (henter : lzEnterZones parsers zones cfg.localZones = some zones₁)
    (hdefaults : localZoneEnterDefaults parsers cfg zones₁ = some zones₂)
    (hsetup : lzSetupImplicit parsers cfg.localData fuel zones₂ = some zones₃) :
    (∀ line ∈ cfg.localData, lzEnterRrStr parsers (initParents zones₃) line ≠ .fatalExit) ↔
      ∀ last, LastCall parsers cfg.localData zones₂ last →
        ¬ LoneDs last (records parsers cfg.localData) := by
  have hok₂ := localZoneEnterDefaults_ok (lzEnterZones_ok hok _ henter) _ hdefaults
  obtain ⟨last, hlast, hrun⟩ := lzSetupImplicit_last hok₂ hsetup
  have hright := initParents_right hrun.ok
  have hdata : (∀ line ∈ cfg.localData,
      lzEnterRrStr parsers (initParents zones₃) line ≠ .fatalExit) ↔
      ∀ rr ∈ records parsers cfg.localData, HasZone zones₃ rr rr.dclass := by
    simp only [lzEnterRrStr_ne_fatalExit_iff hright, (initParents_same hrun.ok).hasZone_iff,
      records, mem_filterMap]
    grind
  rw [hdata, hrun.covers_iff]
  constructor
  · intro hlone last' hlast'
    rw [← hlast.unique hlast']
    exact hlone
  · intro hall
    exact hall last hlast

def noZones : LocalZones := ⟨fun _ => localZoneCreate [] .unset 0, [], 0⟩

theorem noZones_ok : noZones.Ok := ⟨.nil, nofun⟩

def someLines : Parsers where
  parseDname name := if name = "a." then some [[97]] else none
  getRrNameclass line :=
    if line = "b.a. A" then some ⟨[[98], [97]], classIN, RrType.a⟩
    else if line = "d.c. CH A" then some ⟨[[100], [99]], 3, RrType.a⟩
    else if line = "d.c. DS" then some ⟨[[100], [99]], classIN, RrType.ds⟩
    else none

theorem lzSetupImplicit_ends_two :
    ∃ zones, lzSetupImplicit someLines ["b.a. A", "d.c. CH A"] 3 noZones = some zones :=
  lzSetupImplicit_ends noZones_ok (by decide) (by decide) (by decide)

def someConfig (localData : List String) : LzConfig where
  localZones := [("a.", "static")]
  localZonesNodefault := []
  localZonesDisableDefault := true
  unblockLanZones := false
  localData := localData

/-- The trees after the zones and the implicit zones of a configuration were entered. -/
def Setup (parsers : Parsers) (cfg : LzConfig) (zones₁ zones₂ zones₃ : LocalZones) : Prop :=
  lzEnterZones parsers noZones cfg.localZones = some zones₁ ∧
    localZoneEnterDefaults parsers cfg zones₁ = some zones₂ ∧
    lzSetupImplicit parsers cfg.localData 1 zones₂ = some zones₃

theorem local_data_has_zone_two :
    ∃ zones₁ zones₂ zones₃, Setup someLines (someConfig ["b.a. A", "d.c. CH A"]) zones₁ zones₂ zones₃ ∧
      ∀ line ∈ ["b.a. A", "d.c. CH A"],
        lzEnterRrStr someLines (initParents zones₃) line ≠ .fatalExit := by
  have hsome : ((lzEnterZones someLines noZones [("a.", "static")]).bind
      (lzSetupImplicit someLines ["b.a. A", "d.c. CH A"] 1)).isSome = true := by
    decide +kernel
  obtain ⟨zones₃, hzones₃⟩ := Option.isSome_iff_exists.1 hsome
  obtain ⟨zones₁, henter, hsetup⟩ := Option.bind_eq_some_iff.1 hzones₃
  refine ⟨zones₁, zones₁, zones₃, ⟨henter, rfl, hsetup⟩, ?_⟩
  apply (local_data_has_zone_iff someLines (someConfig ["b.a. A", "d.c. CH A"]) noZones zones₁
    zones₁ zones₃ 1 noZones_ok henter rfl hsetup).2
  rintro last - ⟨rr, hrr, hds, -⟩
  have hnone : ∀ rr ∈ records someLines ["b.a. A", "d.c. CH A"], rr.type ≠ RrType.ds := by
    decide +kernel
  exact hnone rr hrr hds

theorem ds_record_without_zone :
    ∃ zones₁ zones₂ zones₃, Setup someLines (someConfig ["d.c. DS"]) zones₁ zones₂ zones₃ ∧
      lzEnterRrStr someLines (initParents zones₃) "d.c. DS" = .fatalExit := by
  have hfatal : ((lzEnterZones someLines noZones [("a.", "static")]).bind
      (lzSetupImplicit someLines ["d.c. DS"] 1)).map
        (fun zones => lzEnterRrStr someLines (initParents zones) "d.c. DS") =
      some .fatalExit := by
    decide +kernel
  obtain ⟨zones₃, hzones₃, hend⟩ := Option.map_eq_some_iff.1 hfatal
  obtain ⟨zones₁, henter, hsetup⟩ := Option.bind_eq_some_iff.1 hzones₃
  exact ⟨zones₁, zones₁, zones₃, ⟨henter, rfl, hsetup⟩, hend⟩

end setup

end CwdGate.Localzone
