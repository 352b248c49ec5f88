import CwdGate.Dname.Name
import CwdGate.Lib.Keyed
import CwdGate.Lib.OrdTree

namespace CwdGate.Authzone
open Lib

section

def typeRRSIG : UInt16 := 46

/-- `rr_ttl` and `rr_data` (the rdata, its length in front) at one index of `packed_rrset_data`. -/
structure PackedRr where
  ttl : Nat
  rdata : List UInt8
  deriving DecidableEq

/-- `struct packed_rrset_data`: `count` data records, then `rrsigCount` signatures. -/
structure PackedRrset where
  ttl : Nat
  count : Nat
  rrsigCount : Nat
  rrs : List PackedRr
  deriving DecidableEq

def PackedRrset.all (d : PackedRrset) : List PackedRr := d.rrs.take (d.count + d.rrsigCount)

structure AuthRrset where
  type : UInt16
  data : PackedRrset
  deriving DecidableEq

structure AuthData where
  name : Name
  rrsets : List AuthRrset
  deriving DecidableEq

/-- `struct auth_zone`, with the tree in canonical order of the names. -/
structure AuthZone where
  name : Name
  dclass : UInt16
  data : List AuthData

/-- A record as the `sldns_wirerr_get` functions read it from its wire format. -/
structure Rr where
  dname : Name
  type : UInt16
  rrClass : UInt16
  ttl : Nat
  rdata : List UInt8
  deriving DecidableEq

variable (z : AuthZone) (rrsets : List AuthRrset) (t : UInt16)

variable (d : PackedRrset) (rdata : List UInt8)

def authDataCmp (a b : AuthData) : Ordering := dnameCanonicalCompare a.name b.name

def azFindName (nm : Name) : Option AuthData :=
  z.data.find? fun n => dnameCanonicalCompare nm n.name = .eq

def azDomainCreate (nm : Name) : AuthZone :=
  { z with data := insertOrd authDataCmp ⟨nm, []⟩ z.data }

def azDomainRrset : Option AuthRrset :=
  lookupBy AuthRrset.type rrsets t

def domainRemoveRrset : List AuthRrset :=
  eraseBy AuthRrset.type t rrsets

def setData : List AuthRrset :=
  modifyBy AuthRrset.type (fun s => { s with data := d }) t rrsets

def packedRrsetFindRr : Option Nat :=
  (d.rrs.take d.count).findIdx? fun r => r.rdata = rdata

def azRrsetFindRrsig : Option Nat :=
  ((d.all.drop d.count).findIdx? fun r => r.rdata = rdata).map (d.count + ·)

def rdataDuplicate : Bool :=
  d.all.any fun r => r.rdata = rdata

def rrsigRdataGetTypeCovered : UInt16 :=
  if rdata.length < 4 then 0
  else ((rdata.getD 2 0).toNat * 256 + (rdata.getD 3 0).toNat).toUInt16

def lowestTtl (ttl : Nat) (rrs : List PackedRr) : Nat :=
  rrs.foldl (fun ttl r => if r.ttl < ttl then r.ttl else ttl) ttl

/-- The lowest TTL of the records, or the one given when there are none. -/
def recalcTtl (ttl : Nat) : List PackedRr → Nat
  | [] => ttl
  | r :: rrs => lowestTtl r.ttl (r :: rrs)

/-- `rrset_remove_rr`: fails when the index is out of bounds. -/
def rrsetRemoveRr (old : PackedRrset) (index : Nat) : Option PackedRrset :=
  if index ≥ old.count + old.rrsigCount then none
  else
    let rrs := old.all.take index ++ old.all.drop (index + 1)
    some {
      ttl := recalcTtl old.ttl rrs
      count := if index < old.count then old.count - 1 else old.count
      rrsigCount := if index < old.count then old.rrsigCount else old.rrsigCount - 1
      rrs := rrs }

/-- `rrset_add_rr`: a data record goes between the data and the signatures, a signature at the
end. -/
def rrsetAddRr (old : PackedRrset) (rr : PackedRr) (insertSig : Bool) : PackedRrset where
  ttl := if rr.ttl < old.ttl then rr.ttl else old.ttl
  count := if insertSig then old.count else old.count + 1
  rrsigCount := if insertSig then old.rrsigCount + 1 else old.rrsigCount
  rrs := if insertSig then old.all ++ [rr] else old.rrs.take old.count ++ rr :: old.all.drop old.count

/-- `rrset_create`: linked in behind the RRsets with types that are not higher. -/
def rrsetCreate (rr : PackedRr) : List AuthRrset :=
  rrsets.takeWhile (fun p => p.type ≤ t) ++
    ⟨t, ⟨rr.ttl, 1, 0, [rr]⟩⟩ :: rrsets.dropWhile (fun p => p.type ≤ t)

def covers (r : PackedRr) : Bool := rrsigRdataGetTypeCovered r.rdata = t

def rrsigNumThatCover (rrsig : PackedRrset) (t : UInt16) : Nat := rrsig.all.countP (covers t)

/-- `rrset_moveover_rrsigs` on the data of the RRset of the type and of the RRSIG RRset. -/
def rrsetMoveoverRrsigs (old sigold : PackedRrset) : List AuthRrset :=
  let sigs := rrsigNumThatCover sigold t
  if sigs = 0 then rrsets
  else
    let moved := sigold.all.filter (covers t)
    let kept := sigold.all.filter fun r => ¬ covers t r
    let rrsets := setData rrsets t { old with
      ttl := lowestTtl old.ttl moved
      rrsigCount := old.rrsigCount + sigs
      rrs := old.all ++ moved }
    if sigold.count + sigold.rrsigCount = sigs then domainRemoveRrset rrsets typeRRSIG
    else setData rrsets typeRRSIG { sigold with
      ttl := recalcTtl sigold.ttl kept
      count := sigold.count - sigs
      rrs := kept }

/-- `rrsigs_copy_from_rrset_to_rrsigset`: the new data of the RRSIG RRset. -/
def rrsigsCopyFromRrsetToRrsigset (rrset rrsigset : PackedRrset) : PackedRrset :=
  (rrset.all.drop rrset.count).foldl
    (fun sigset r => if rdataDuplicate sigset r.rdata then sigset else rrsetAddRr sigset r false)
    rrsigset

/-- Add to an RRset that exists, unless the rdata is there; true for a duplicate. -/
def addUnlessDuplicate (rrset : AuthRrset) (rr : PackedRr) (insertSig : Bool) :
    Bool × List AuthRrset :=
  if rdataDuplicate rrset.data rr.rdata then (true, rrsets)
  else (false, setData rrsets rrset.type (rrsetAddRr rrset.data rr insertSig))

/-- `az_domain_add_rr`: whether the record is a duplicate, and the RRsets. -/
def azDomainAddRr (rr : PackedRr) : Bool × List AuthRrset :=
  if t = typeRRSIG then
    match azDomainRrset rrsets (rrsigRdataGetTypeCovered rr.rdata) with
    | some rrset => addUnlessDuplicate rrsets rrset rr true
    | none =>
      match azDomainRrset rrsets typeRRSIG with
      | some rrset => addUnlessDuplicate rrsets rrset rr false
      | none => (false, rrsetCreate rrsets t rr)
  else
    match azDomainRrset rrsets t with
    | some rrset => addUnlessDuplicate rrsets rrset rr false
    | none =>
      let rrsets := rrsetCreate rrsets t rr
      match azDomainRrset rrsets typeRRSIG with
      | some rrsig => (false, rrsetMoveoverRrsigs rrsets t ⟨rr.ttl, 1, 0, [rr]⟩ rrsig.data)
      | none => (false, rrsets)

/-- The last record of an RRset goes away, and its signatures stay. -/
def removeLastRr (rrset : AuthRrset) (index : Nat) : Option (List AuthRrset) :=
  match azDomainRrset rrsets typeRRSIG with
  | some rrsigset =>
    some (domainRemoveRrset
      (setData rrsets typeRRSIG (rrsigsCopyFromRrsetToRrsigset rrset.data rrsigset.data))
      rrset.type)
  | none => do
    -- the RRset becomes the one of type RRSIG
    let d ← rrsetRemoveRr rrset.data index
    some (modifyBy AuthRrset.type
      (fun _ => ⟨typeRRSIG, { d with count := d.rrsigCount, rrsigCount := 0 }⟩) rrset.type rrsets)

def removeFound (rrset : AuthRrset) (index : Nat) : Option (List AuthRrset) :=
  if rrset.data.count = 1 ∧ rrset.data.rrsigCount = 0 then
    some (domainRemoveRrset rrsets rrset.type)
  else if rrset.data.count = 1 ∧ rrset.data.rrsigCount ≠ 0 then removeLastRr rrsets rrset index
  else (rrsetRemoveRr rrset.data index).map (setData rrsets rrset.type)

def removeRrsig : Option (Bool × List AuthRrset) :=
  if t = typeRRSIG then
    match azDomainRrset rrsets (rrsigRdataGetTypeCovered rdata) with
    | some rrset =>
      match azRrsetFindRrsig rrset.data rdata with
      | some index => (rrsetRemoveRr rrset.data index).map fun d => (false, setData rrsets rrset.type d)
      | none => some (true, rrsets)
    | none => some (true, rrsets)
  else some (true, rrsets)

/-- `az_domain_remove_rr`: whether the record does not exist, and the RRsets. -/
def azDomainRemoveRr : Option (Bool × List AuthRrset) :=
  match azDomainRrset rrsets t with
  | some rrset =>
    match packedRrsetFindRr rrset.data rdata with
    | some index => (removeFound rrsets rrset index).map (false, ·)
    | none => removeRrsig rrsets t rdata
  | none => removeRrsig rrsets t rdata

def AuthZone.setRrsets (nm : Name) (rrsets : List AuthRrset) : AuthZone :=
  { z with data := z.data.map fun n =>
      if dnameCanonicalCompare nm n.name = .eq then { n with rrsets := rrsets } else n }

/-- `az_insert_rr`: whether the record is a duplicate, and the zone. -/
def azInsertRr (rr : Rr) : Option (Bool × AuthZone) :=
  if rr.rrClass ≠ z.dclass then none
  else
    match azFindName z rr.dname with
    | some node =>
      let r := azDomainAddRr node.rrsets rr.type ⟨rr.ttl, rr.rdata⟩
      some (r.1, z.setRrsets rr.dname r.2)
    | none =>
      let r := azDomainAddRr [] rr.type ⟨rr.ttl, rr.rdata⟩
      some (r.1, (azDomainCreate z rr.dname).setRrsets rr.dname r.2)

/-- `az_remove_rr`: whether the record does not exist, and the zone. -/
def azRemoveRr (rr : Rr) : Option (Bool × AuthZone) :=
  if rr.rrClass ≠ z.dclass then none
  else
    match azFindName z rr.dname with
    | none => some (true, z)
    | some node =>
      (azDomainRemoveRr node.rrsets rr.type rr.rdata).map fun r =>
        (r.1,
          if r.2 = [] then
            { z with data := z.data.filter fun n => dnameCanonicalCompare rr.dname n.name ≠ .eq }
          else z.setRrsets rr.dname r.2)

end

open List Function

abbrev Rdata := List UInt8

def PackedRrset.dataRdatas (d : PackedRrset) : List Rdata := (d.rrs.map (·.rdata)).take d.count

def PackedRrset.sigRdatas (d : PackedRrset) : List Rdata := (d.all.map (·.rdata)).drop d.count

/-- A packed RRset has these rdatas as data and these as signatures. -/
structure Splits (d : PackedRrset) (a b : List Rdata) : Prop where
  rrs : d.rrs.map (·.rdata) = a ++ b
  count : d.count = a.length
  rrsigCount : d.rrsigCount = b.length

section splits
variable {d : PackedRrset} {a b : List Rdata}

section
variable (h : Splits d a b)
include h

theorem Splits.all_eq : d.all = d.rrs := by
  have hlen := congrArg length h.rrs
  rw [length_map, length_append] at hlen
  rw [PackedRrset.all, take_of_length_le]
  rw [h.count, h.rrsigCount, hlen]

theorem Splits.all_map : d.all.map (·.rdata) = a ++ b := by
  rw [h.all_eq, h.rrs]

theorem Splits.dataRdatas : d.dataRdatas = a := by
  rw [PackedRrset.dataRdatas, h.rrs, h.count, take_left]

theorem Splits.sigRdatas : d.sigRdatas = b := by
  rw [PackedRrset.sigRdatas, h.all_map, h.count, drop_left]

theorem Splits.take_map : (d.rrs.take d.count).map (·.rdata) = a := by
  rw [map_take]
  exact h.dataRdatas

theorem Splits.drop_map : (d.all.drop d.count).map (·.rdata) = b := by
  rw [map_drop]
  exact h.sigRdatas

end

theorem splits_one : Splits ⟨rr.ttl, 1, 0, [rr]⟩ [rr.rdata] [] := ⟨rfl, rfl, rfl⟩

variable (h : Splits d a b)
include h

theorem Splits.duplicate_iff : rdataDuplicate d rd = true ↔ rd ∈ a ∨ rd ∈ b := by
  rw [← mem_append, ← h.all_map, rdataDuplicate, any_eq_true, mem_map]
  exact ⟨fun ⟨r, hr, he⟩ => ⟨r, hr, of_decide_eq_true he⟩,
    fun ⟨r, hr, he⟩ => ⟨r, hr, decide_eq_true he⟩⟩

theorem Splits.findRr : packedRrsetFindRr d rd = a.findIdx? fun x => x = rd := by
  rw [packedRrsetFindRr, ← h.take_map, findIdx?_map]
  rfl

theorem Splits.findRrsig (rd : Rdata) :
    azRrsetFindRrsig d rd = (b.findIdx? fun x => x = rd).map (a.length + ·) := by
  rw [azRrsetFindRrsig, ← h.drop_map, findIdx?_map, h.count]
  rfl

theorem Splits.addData (rr : PackedRr) : Splits (rrsetAddRr d rr false) (a ++ [rr.rdata]) b := by
  refine ⟨?_, ?_, h.rrsigCount⟩
  · change (d.rrs.take d.count ++ rr :: d.all.drop d.count).map (·.rdata) = _
    rw [map_append, map_cons, h.take_map, h.drop_map, append_assoc]
    rfl
  · change d.count + 1 = _
    rw [h.count, length_append]
    rfl

theorem Splits.addSig (rr : PackedRr) : Splits (rrsetAddRr d rr true) a (b ++ [rr.rdata]) := by
  refine ⟨?_, h.count, ?_⟩
  · change (d.all ++ [rr]).map (·.rdata) = _
    rw [map_append, h.all_map, append_assoc]
    rfl
  · change d.rrsigCount + 1 = _
    rw [h.rrsigCount, length_append]
    rfl

theorem map_take_drop :
    (d.all.take i ++ d.all.drop (i + 1)).map (·.rdata) = (a ++ b).eraseIdx i := by
  rw [map_append, map_take, map_drop, h.all_map, eraseIdx_eq_take_drop_succ]

theorem Splits.removeData (hi : i < a.length) :
    ∃ d', rrsetRemoveRr d i = some d' ∧ Splits d' (a.eraseIdx i) b := by
  have hlt : i < d.count := h.count ▸ hi
  rw [rrsetRemoveRr, if_neg (by omega)]
  refine ⟨_, rfl, ?_, ?_, ?_⟩
  · rw [map_take_drop h, eraseIdx_append_of_lt_length hi]
  · rw [length_eraseIdx_of_lt hi, ← h.count]
    exact if_pos hlt
  · exact (if_pos hlt).trans h.rrsigCount

theorem Splits.removeSig (hi : i < b.length) :
    ∃ d', rrsetRemoveRr d (a.length + i) = some d' ∧ Splits d' a (b.eraseIdx i) := by
  have hge : ¬ a.length + i < d.count := by rw [h.count]; omega
  have hlt : ¬ a.length + i ≥ d.count + d.rrsigCount := by rw [h.count, h.rrsigCount]; omega
  rw [rrsetRemoveRr, if_neg hlt]
  refine ⟨_, rfl, ?_, ?_, ?_⟩
  · rw [map_take_drop h, eraseIdx_append_of_length_le (Nat.le_add_right _ _),
      Nat.add_sub_cancel_left]
  · exact (if_neg hge).trans h.count
  · rw [length_eraseIdx_of_lt hi, ← h.rrsigCount]
    exact if_neg hge

theorem Splits.copy {rrs : List PackedRr} (hn : (rrs.map (·.rdata)).Nodup)
    (ha : ∀ r ∈ rrs, r.rdata ∉ a) (hb : ∀ r ∈ rrs, r.rdata ∉ b) :
    Splits (rrs.foldl (fun sigset r =>
      if rdataDuplicate sigset r.rdata then sigset else rrsetAddRr sigset r false) d)
      (a ++ rrs.map (·.rdata)) b := by
  induction rrs generalizing d a with
  | nil =>
    rw [map_nil, append_nil]
    exact h
  | cons r rrs ih =>
    rw [map_cons, nodup_cons] at hn
    have hdup : ¬ rdataDuplicate d r.rdata = true := by
      rw [h.duplicate_iff]
      exact fun hm => hm.elim (ha r mem_cons_self) (hb r mem_cons_self)
    rw [foldl_cons, if_neg hdup, map_cons, append_cons]
    apply ih (h.addData r) hn.2
    · intro x hx hm
      rcases mem_append.1 hm with hm | hm
      · exact ha x (mem_cons_of_mem _ hx) hm
      · rw [mem_singleton] at hm
        exact hn.1 (hm ▸ mem_map_of_mem hx)
    · exact (forall_mem_cons.1 hb).2

end splits

/-- What a node holds for each type: rdatas of data and of signatures, if it has the type. -/
abbrev View := UInt16 → Option (List Rdata × List Rdata)

structure Good (t : UInt16) (data sigs : List Rdata) : Prop where
  data_nodup : data.Nodup
  sig_nodup : sigs.Nodup
  covers : ∀ rd ∈ sigs, rrsigRdataGetTypeCovered rd = t
  data_ne : t ≠ typeRRSIG → data ≠ []
  ne : data ++ sigs ≠ []
  disjoint : t = typeRRSIG → ∀ rd ∈ data, rd ∉ sigs

/-- A signature is in the RRSIG RRset only if the type that it covers is not there, or is RRSIG. -/
structure View.Ok (V : View) : Prop where
  good : ∀ t a b, V t = some (a, b) → Good t a b
  placed : ∀ a b, V typeRRSIG = some (a, b) → ∀ rd ∈ a,
    rrsigRdataGetTypeCovered rd = typeRRSIG ∨ V (rrsigRdataGetTypeCovered rd) = none

section
variable (V : View) (t : UInt16) (rd : Rdata)

def View.Data : Prop := ∃ a b, V t = some (a, b) ∧ rd ∈ a

def View.Sig : Prop := ∃ a b, V t = some (a, b) ∧ rd ∈ b

def View.Has : Prop :=
  V.Data t rd ∨ t = typeRRSIG ∧ V.Sig (rrsigRdataGetTypeCovered rd) rd

def View.Plain : Prop :=
  ∀ rd, V.Has typeRRSIG rd → rrsigRdataGetTypeCovered rd ≠ typeRRSIG

/-- The data and the signatures of a type, none if it is not there. -/
def View.lists : List Rdata × List Rdata := (V t).getD ([], [])

def pack (a b : List Rdata) : Option (List Rdata × List Rdata) :=
  if a ++ b = [] then none else some (a, b)

def View.Gains (V' : View) : Prop :=
  V'.Ok ∧ ∀ t' rd', V'.Has t' rd' ↔ V.Has t' rd' ∨ t' = t ∧ rd' = rd

def View.Loses (V' : View) : Prop :=
  V'.Ok ∧ ∀ t' rd', V'.Has t' rd' ↔ V.Has t' rd' ∧ ¬ (t' = t ∧ rd' = rd)

end

section view
variable {V : View} {t : UInt16} {rd : Rdata} {a b : List Rdata}

theorem pack_some (h : pack a b = some (a', b')) : a' = a ∧ b' = b ∧ a ++ b ≠ [] := by
  rw [pack] at h
  split at h
  · cases h
  next hne =>
    cases h
    exact ⟨rfl, rfl, hne⟩

theorem pack_of_ne (h : a ++ b ≠ []) : pack a b = some (a, b) := if_neg h

theorem getD_pack : (pack a b).getD ([], []) = (a, b) := by
  rw [pack]
  split
  next h =>
    obtain ⟨rfl, rfl⟩ := append_eq_nil_iff.1 h
    rfl
  next => rfl

theorem View.lists_of (hV : V t = some (a, b)) : V.lists t = (a, b) := by
  rw [View.lists, hV]
  rfl

theorem View.lists_none (hV : V t = none) : V.lists t = ([], []) := by
  rw [View.lists, hV]
  rfl

theorem View.lists_update (V : View) :
    View.lists (update V t v) c = if c = t then v.getD ([], []) else V.lists c := by
  rw [View.lists, update_apply]
  split <;> rfl

theorem View.data_iff : V.Data t rd ↔ rd ∈ (V.lists t).1 := by
  rw [View.Data, View.lists]
  rcases V t with _ | ⟨a, b⟩ <;> simp

theorem View.sig_iff : V.Sig t rd ↔ rd ∈ (V.lists t).2 := by
  rw [View.Sig, View.lists]
  rcases V t with _ | ⟨a, b⟩ <;> simp

theorem View.has_iff : V.Has t rd ↔ rd ∈ (V.lists t).1 ∨
    t = typeRRSIG ∧ rd ∈ (V.lists (rrsigRdataGetTypeCovered rd)).2 := by
  rw [View.Has, View.data_iff, View.sig_iff]

theorem View.data_of (hV : V t = some (a, b)) : V.Data t rd ↔ rd ∈ a := by
  rw [View.data_iff, View.lists_of hV]

theorem View.sig_of (hV : V t = some (a, b)) : V.Sig t rd ↔ rd ∈ b := by
  rw [View.sig_iff, View.lists_of hV]

theorem View.not_data_of_none (hV : V t = none) : ¬ V.Data t rd := by
  rw [View.data_iff, View.lists_none hV]
  exact not_mem_nil

theorem View.has_data_iff (hV : V t = some (a, b)) (ht : t ≠ typeRRSIG) : V.Has t rd ↔ rd ∈ a := by
  rw [View.Has, View.data_of hV]
  exact or_iff_left fun h => ht h.1

theorem View.has_rrsig_of_none (hV : V (rrsigRdataGetTypeCovered rd) = none) :
    V.Has typeRRSIG rd ↔ V.Data typeRRSIG rd := by
  rw [View.Has, View.sig_iff, View.lists_none hV]
  exact or_iff_left fun h => not_mem_nil h.2

theorem View.Ok.has_sig_iff (h : V.Ok) (hV : V (rrsigRdataGetTypeCovered rd) = some (a, b))
    (ht : rrsigRdataGetTypeCovered rd ≠ typeRRSIG) : V.Has typeRRSIG rd ↔ rd ∈ b := by
  rw [View.Has, View.sig_of hV]
  constructor
  · rintro (⟨a', b', hV', hm⟩ | ⟨-, hm⟩)
    · rcases h.placed a' b' hV' rd hm with he | hnone
      · exact absurd he ht
      · cases hV.symm.trans hnone
    · exact hm
  · exact fun hm => .inr ⟨rfl, hm⟩

theorem nodup_concat (h : a.Nodup) (hrd : rd ∉ a) : (a ++ [rd]).Nodup := by
  rw [nodup_append]
  exact ⟨h, nodup_singleton rd, fun x hx y hy he => hrd (mem_singleton.1 hy ▸ he ▸ hx)⟩

theorem forall_mem_concat {p : Rdata → Prop} (h : ∀ x ∈ a, p x) (hrd : p rd) :
    ∀ x ∈ a ++ [rd], p x :=
  forall_mem_append.2 ⟨h, forall_mem_singleton.2 hrd⟩

theorem Good.addData (h : Good t a b) (ha : rd ∉ a) (hb : t = typeRRSIG → rd ∉ b) :
    Good t (a ++ [rd]) b :=
  ⟨nodup_concat h.data_nodup ha, h.sig_nodup, h.covers, fun _ => by simp, by simp,
    fun ht => forall_mem_concat (h.disjoint ht) (hb ht)⟩

theorem Good.addSig (h : Good t a b) (hc : rrsigRdataGetTypeCovered rd = t) (hb : rd ∉ b)
    (ha : t = typeRRSIG → rd ∉ a) : Good t a (b ++ [rd]) := by
  refine ⟨h.data_nodup, nodup_concat h.sig_nodup hb, forall_mem_concat h.covers hc, h.data_ne,
    by simp, fun ht x hx hm => ?_⟩
  rcases mem_append.1 hm with hm | hm
  · exact h.disjoint ht x hx hm
  · exact ha ht (mem_singleton.1 hm ▸ hx)

theorem View.Ok.update (h : V.Ok) (hg : Good t a b) (hV : V t ≠ none)
    (hp : t = typeRRSIG → ∀ rd ∈ a, rrsigRdataGetTypeCovered rd = typeRRSIG ∨
      V (rrsigRdataGetTypeCovered rd) = none) : View.Ok (Function.update V t (some (a, b))) := by
  have hnone : ∀ c, V c = none → Function.update V t (some (a, b)) c = none := by
    intro c hc
    have hne : c ≠ t := fun he => hV (he ▸ hc)
    rw [Function.update_of_ne hne, hc]
  refine ⟨fun c a' b' hc => ?_, fun a' b' hc rd hrd => ?_⟩
  · by_cases he : c = t
    · subst he
      rw [update_self] at hc
      cases hc
      exact hg
    · rw [update_of_ne he] at hc
      exact h.good c a' b' hc
  · by_cases he : typeRRSIG = t
    · subst he
      cases hc
      exact (hp rfl rd hrd).imp_right (hnone _)
    · rw [update_of_ne he] at hc
      exact (h.placed a' b' hc rd hrd).imp_right (hnone _)

theorem View.Ok.addData (h : V.Ok) (hV : V t = some (a, b)) (ha : rd ∉ a) (hb : rd ∉ b)
    (hp : t = typeRRSIG → rrsigRdataGetTypeCovered rd = typeRRSIG ∨
      V (rrsigRdataGetTypeCovered rd) = none) :
    V.Gains t rd (Function.update V t (some (a ++ [rd], b))) := by
  constructor
  · apply h.update ((h.good t a b hV).addData ha fun _ => hb) (by rw [hV]; nofun)
    intro ht
    exact forall_mem_concat (h.placed a b (ht ▸ hV)) (hp ht)
  · have hlists := View.lists_of hV
    simp only [View.has_iff, View.lists_update, Option.getD_some]
    grind

theorem View.Ok.addSig (h : V.Ok) (hV : V (rrsigRdataGetTypeCovered rd) = some (a, b))
    (hb : rd ∉ b) (ha : rrsigRdataGetTypeCovered rd = typeRRSIG → rd ∉ a) :
    V.Gains typeRRSIG rd
      (Function.update V (rrsigRdataGetTypeCovered rd) (some (a, b ++ [rd]))) := by
  constructor
  · apply h.update ((h.good _ a b hV).addSig rfl hb ha) (by rw [hV]; nofun)
    intro ht x hx
    exact h.placed a b (ht ▸ hV) x hx
  · have hlists := View.lists_of hV
    simp only [View.has_iff, View.lists_update, Option.getD_some]
    grind

structure RrsigGood (V : View) (a b : List Rdata) : Prop where
  data_nodup : a.Nodup
  sig_nodup : b.Nodup
  covers : ∀ rd ∈ b, rrsigRdataGetTypeCovered rd = typeRRSIG
  disjoint : ∀ rd ∈ a, rd ∉ b
  placed : ∀ rd ∈ a, rrsigRdataGetTypeCovered rd = typeRRSIG ∨
    V (rrsigRdataGetTypeCovered rd) = none

theorem rrsigGood_nil : RrsigGood V [] [] :=
  ⟨nodup_nil, nodup_nil, nofun, nofun, nofun⟩

theorem View.Ok.rrsigGood (h : V.Ok) : RrsigGood V (V.lists typeRRSIG).1 (V.lists typeRRSIG).2 := by
  rw [View.lists]
  cases hV : V typeRRSIG with
  | none => exact rrsigGood_nil
  | some p =>
    have hg := h.good _ p.1 p.2 hV
    exact ⟨hg.data_nodup, hg.sig_nodup, hg.covers, hg.disjoint rfl, h.placed p.1 p.2 hV⟩

theorem View.ok_of_rrsig (hgood : ∀ c a b, c ≠ typeRRSIG → W c = some (a, b) → Good c a b)
    (hW : W typeRRSIG = pack a b) (hr : RrsigGood W a b) : W.Ok := by
  refine ⟨fun c a' b' hc => ?_, fun a' b' hc => ?_⟩
  · by_cases he : c = typeRRSIG
    · subst he
      obtain ⟨rfl, rfl, hne⟩ := pack_some (hW.symm.trans hc)
      exact ⟨hr.data_nodup, hr.sig_nodup, hr.covers, fun hne => absurd rfl hne, hne,
        fun _ => hr.disjoint⟩
    · exact hgood c a' b' he hc
  · obtain ⟨rfl, rfl, -⟩ := pack_some (hW.symm.trans hc)
    exact hr.placed

theorem View.Ok.setRrsig (h : V.Ok) (hr : RrsigGood V a b) :
    View.Ok (Function.update V typeRRSIG (pack a b)) := by
  have hother : ∀ c, c ≠ typeRRSIG → Function.update V typeRRSIG (pack a b) c = V c :=
    fun c hc => Function.update_of_ne hc _ V
  apply View.ok_of_rrsig _ (Function.update_self ..)
  · refine ⟨hr.data_nodup, hr.sig_nodup, hr.covers, hr.disjoint, fun x hx => ?_⟩
    by_cases he : rrsigRdataGetTypeCovered x = typeRRSIG
    · exact .inl he
    · rw [hother _ he]
      exact hr.placed x hx
  · intro c a' b' hc hW
    rw [hother c hc] at hW
    exact h.good c a' b' hW

theorem View.Ok.newRrsig (h : V.Ok) (hV : V typeRRSIG = none)
    (hc : V (rrsigRdataGetTypeCovered rd) = none) :
    V.Gains typeRRSIG rd (Function.update V typeRRSIG (some ([rd], []))) := by
  constructor
  · exact @View.Ok.setRrsig V [rd] [] h ⟨nodup_singleton rd, nodup_nil, nofun,
      fun _ _ => not_mem_nil, fun x hx => .inr (mem_singleton.1 hx ▸ hc)⟩
  · have hlists := View.lists_none hV
    simp only [View.has_iff, View.lists_update, Option.getD_some]
    grind

/-- The RRSIG RRset gives its signatures over a type to another RRset. -/
def coveredBy (t : UInt16) (a : List Rdata) : List Rdata :=
  a.filter fun rd => rrsigRdataGetTypeCovered rd = t

def notCoveredBy (t : UInt16) (a : List Rdata) : List Rdata :=
  a.filter fun rd => ¬ rrsigRdataGetTypeCovered rd = t

/-- A new RRset with one record takes over its signatures. -/
def View.create (V : View) (t : UInt16) (rd : Rdata) : View := fun c =>
  if c = t then some ([rd], coveredBy t (V.lists typeRRSIG).1)
  else if c = typeRRSIG then pack (notCoveredBy t (V.lists typeRRSIG).1) (V.lists typeRRSIG).2
  else V c

theorem View.create_eq (V : View) : V.create t rd =
    update (update V typeRRSIG
      (pack (notCoveredBy t (V.lists typeRRSIG).1) (V.lists typeRRSIG).2))
      t (some ([rd], coveredBy t (V.lists typeRRSIG).1)) := by
  funext c
  rw [update_apply, update_apply]
  rfl

theorem mem_coveredBy : x ∈ coveredBy t a ↔ x ∈ a ∧ rrsigRdataGetTypeCovered x = t := by
  rw [coveredBy, mem_filter, decide_eq_true_iff]

theorem mem_notCoveredBy : x ∈ notCoveredBy t a ↔ x ∈ a ∧ rrsigRdataGetTypeCovered x ≠ t := by
  rw [notCoveredBy, mem_filter, decide_eq_true_iff]

theorem View.Ok.create (h : V.Ok) (ht : t ≠ typeRRSIG) (hV : V t = none) :
    V.Gains t rd (V.create t rd) := by
  have hr := h.rrsigGood
  have hself : V.create t rd t = some ([rd], coveredBy t (V.lists typeRRSIG).1) := if_pos rfl
  have hother : ∀ c, c ≠ t → c ≠ typeRRSIG → V.create t rd c = V c :=
    fun c h1 h2 => (if_neg h1).trans (if_neg h2)
  constructor
  · apply View.ok_of_rrsig _ ((if_neg (Ne.symm ht)).trans (if_pos rfl))
    · refine ⟨hr.data_nodup.filter _, hr.sig_nodup, hr.covers, fun x hx => ?_, fun x hx => ?_⟩
      · exact hr.disjoint x (mem_notCoveredBy.1 hx).1
      · obtain ⟨hx, hne⟩ := mem_notCoveredBy.1 hx
        by_cases he : rrsigRdataGetTypeCovered x = typeRRSIG
        · exact .inl he
        · rw [hother _ hne he]
          exact hr.placed x hx
    · intro c a b hc hW
      by_cases hct : c = t
      · subst hct
        cases hself.symm.trans hW
        exact ⟨nodup_singleton rd, hr.data_nodup.filter _, fun x hx => (mem_coveredBy.1 hx).2,
          fun _ => cons_ne_nil _ _, cons_ne_nil _ _, fun he => absurd he ht⟩
      · rw [hother c hct hc] at hW
        exact h.good c a b hW
  · have hlists := View.lists_none hV
    simp only [View.has_iff, View.create_eq, View.lists_update, getD_pack, Option.getD_some]
    grind [mem_coveredBy, mem_notCoveredBy]

theorem mem_erase_iff (hn : a.Nodup) : x ∈ a.erase rd ↔ x ∈ a ∧ x ≠ rd := by
  rw [hn.mem_erase_iff, and_comm]

theorem View.Ok.not_sig_of_data (h : V.Ok) (hd : V.Data typeRRSIG rd) :
    ¬ V.Sig (rrsigRdataGetTypeCovered rd) rd := by
  have hr := h.rrsigGood
  rw [View.data_iff] at hd
  rw [View.sig_iff]
  rcases hr.placed rd hd with he | hnone
  · rw [he]
    exact hr.disjoint rd hd
  · rw [View.lists_none hnone]
    exact not_mem_nil

theorem View.Ok.removeData (h : V.Ok) (hV : V t = some (a, b)) (hrd : rd ∈ a)
    (hne : t = typeRRSIG ∨ a.erase rd ≠ []) :
    V.Loses t rd (Function.update V t (pack (a.erase rd) b)) := by
  have hg := h.good t a b hV
  have hlists := View.lists_of hV
  constructor
  · by_cases ht : t = typeRRSIG
    · subst ht
      have hr := h.rrsigGood
      rw [hlists] at hr
      exact h.setRrsig ⟨hr.data_nodup.erase rd, hr.sig_nodup, hr.covers,
        fun x hx => hr.disjoint x (mem_of_mem_erase hx),
        fun x hx => hr.placed x (mem_of_mem_erase hx)⟩
    · have hleft := hne.resolve_left ht
      rw [pack_of_ne fun he => hleft (append_eq_nil_iff.1 he).1]
      apply h.update _ (by rw [hV]; nofun) fun he => absurd he ht
      exact ⟨hg.data_nodup.erase rd, hg.sig_nodup, hg.covers, fun _ => hleft,
        fun he => hleft (append_eq_nil_iff.1 he).1, fun he => absurd he ht⟩
  · intro t' rd'
    have hmem := @mem_erase_iff rd a rd' hg.data_nodup
    have hno : t = typeRRSIG → rd ∉ (V.lists (rrsigRdataGetTypeCovered rd)).2 := by
      rintro rfl
      rw [← View.sig_iff]
      exact h.not_sig_of_data ((View.data_of hV).2 hrd)
    simp only [View.has_iff, View.lists_update, getD_pack]
    grind

/-- The last data record of an RRset is removed: its signatures go to the RRSIG RRset. -/
def View.dissolve (V : View) (t : UInt16) (b : List Rdata) : View := fun c =>
  if c = t then none
  else if c = typeRRSIG then pack ((V.lists typeRRSIG).1 ++ b) (V.lists typeRRSIG).2
  else V c

theorem View.dissolve_eq (V : View) (t : UInt16) (b : List Rdata) : V.dissolve t b =
    update (update V typeRRSIG
      (pack ((V.lists typeRRSIG).1 ++ b) (V.lists typeRRSIG).2)) t none := by
  funext c
  rw [update_apply, update_apply]
  rfl

theorem View.Ok.not_placed (h : V.Ok) (ht : t ≠ typeRRSIG) (hV : V t = some (a, b))
    (hrd : rd ∈ b) : rd ∉ (V.lists typeRRSIG).1 ∧ rd ∉ (V.lists typeRRSIG).2 := by
  have hc := (h.good t a b hV).covers rd hrd
  refine ⟨fun hm => ?_, fun hm => ht (hc.symm.trans (h.rrsigGood.covers rd hm))⟩
  rcases h.rrsigGood.placed rd hm with he | hnone
  · exact ht (hc.symm.trans he)
  · cases (hc ▸ hV).symm.trans hnone

theorem View.Ok.dissolve (h : V.Ok) (ht : t ≠ typeRRSIG) (hV : V t = some ([rd], b)) :
    V.Loses t rd (V.dissolve t b) := by
  have hr := h.rrsigGood
  have hg := h.good t [rd] b hV
  have hself : V.dissolve t b t = none := if_pos rfl
  have hother : ∀ c, c ≠ t → c ≠ typeRRSIG → V.dissolve t b c = V c :=
    fun c h1 h2 => (if_neg h1).trans (if_neg h2)
  constructor
  · apply View.ok_of_rrsig _ ((if_neg (Ne.symm ht)).trans (if_pos rfl))
    · refine ⟨?_, hr.sig_nodup, hr.covers, fun x hx => ?_, fun x hx => ?_⟩
      · exact nodup_append.2 ⟨hr.data_nodup, hg.sig_nodup,
          fun x hx y hy he => (h.not_placed ht hV (he ▸ hy)).1 hx⟩
      · rcases mem_append.1 hx with hx | hx
        · exact hr.disjoint x hx
        · exact (h.not_placed ht hV hx).2
      · by_cases hct : rrsigRdataGetTypeCovered x = t
        · exact .inr (hct ▸ hself)
        · rcases mem_append.1 hx with hx | hx
          · by_cases he : rrsigRdataGetTypeCovered x = typeRRSIG
            · exact .inl he
            · rw [hother _ hct he]
              exact hr.placed x hx
          · exact absurd (hg.covers x hx) hct
    · intro c a' b' hc hW
      by_cases hct : c = t
      · subst hct
        cases hself.symm.trans hW
      · rw [hother c hct hc] at hW
        exact h.good c a' b' hW
  · intro t' rd'
    have hcov := hg.covers rd'
    have hlists := View.lists_of hV
    simp only [View.has_iff, View.dissolve_eq, View.lists_update, getD_pack, Option.getD_none]
    grind

theorem View.Ok.removeSig (h : V.Ok) (hV : V (rrsigRdataGetTypeCovered rd) = some (a, b))
    (hrd : rd ∈ b) (ha : a ≠ []) :
    V.Loses typeRRSIG rd
      (Function.update V (rrsigRdataGetTypeCovered rd) (some (a, b.erase rd))) := by
  have hg := h.good _ a b hV
  constructor
  · apply h.update _ (by rw [hV]; nofun) fun he => h.placed a b (he ▸ hV)
    exact ⟨hg.data_nodup, hg.sig_nodup.erase rd, fun x hx => hg.covers x (mem_of_mem_erase hx),
      hg.data_ne, fun he => ha (append_eq_nil_iff.1 he).1,
      fun he x hx hm => hg.disjoint he x hx (mem_of_mem_erase hm)⟩
  · intro t' rd'
    have hlists := View.lists_of hV
    have hmem := @mem_erase_iff rd b rd' hg.sig_nodup
    have hno : rd ∉ (V.lists typeRRSIG).1 := by
      rw [← View.data_iff]
      exact fun hd => h.not_sig_of_data hd ((View.sig_of hV).2 hrd)
    simp only [View.has_iff, View.lists_update, Option.getD_some]
    grind

end view

open List Function

structure Shows (l : List AuthRrset) (V : View) : Prop where
  nodup : (l.map AuthRrset.type).Nodup
  view : ∀ t, (azDomainRrset l t = none ∧ V t = none) ∨
    ∃ s a b, azDomainRrset l t = some s ∧ V t = some (a, b) ∧ Splits s.data a b

variable {l : List AuthRrset} {V : View} {t : UInt16} {s : AuthRrset} {a b : List Rdata}
  {d : PackedRrset}

theorem shows_nil : Shows [] fun _ => none := ⟨List.nodup_nil, fun _ => .inl ⟨rfl, rfl⟩⟩

theorem Shows.of_some (h : Shows l V) (hs : azDomainRrset l t = some s) :
    s.type = t ∧ ∃ a b, V t = some (a, b) ∧ Splits s.data a b := by
  rcases h.view t with ⟨hnone, -⟩ | ⟨s', a, b, hs', hV, hd⟩
  · cases hs.symm.trans hnone
  · cases hs.symm.trans hs'
    exact ⟨(lookupBy_some hs).2, a, b, hV, hd⟩

theorem Shows.of_none (h : Shows l V) (hs : azDomainRrset l t = none) : V t = none := by
  rcases h.view t with ⟨-, hV⟩ | ⟨s, a, b, hs', -, -⟩
  · exact hV
  · cases hs.symm.trans hs'

theorem Shows.of_view (h : Shows l V) (hV : V t = some (a, b)) :
    ∃ s, azDomainRrset l t = some s ∧ Splits s.data a b := by
  rcases h.view t with ⟨-, hnone⟩ | ⟨s, a', b', hs, hV', hd⟩
  · cases hV.symm.trans hnone
  · cases hV.symm.trans hV'
    exact ⟨s, hs, hd⟩

theorem Shows.of_view_none (h : Shows l V) (hV : V t = none) : azDomainRrset l t = none := by
  rcases h.view t with ⟨hs, -⟩ | ⟨s, a, b, -, hV', -⟩
  · exact hs
  · cases hV.symm.trans hV'

theorem Shows.change (h : Shows l V) (hn : (l'.map AuthRrset.type).Nodup)
    (hlook : ∀ c, azDomainRrset l' c = if c = t then x else azDomainRrset l c)
    (hx : (x = none ∧ v = none) ∨ ∃ s a b, x = some s ∧ v = some (a, b) ∧ Splits s.data a b) :
    Shows l' (update V t v) := by
  refine ⟨hn, fun c => ?_⟩
  rw [hlook, update_apply]
  split
  · exact hx
  · exact h.view c

theorem Shows.setData (h : Shows l V) (hs : azDomainRrset l t = some s) (hd : Splits d a b) :
    Shows (setData l t d) (update V t (some (a, b))) := by
  have hkey : ∀ x : AuthRrset, x.type = t → ({ x with data := d } : AuthRrset).type = t :=
    fun _ hx => hx
  refine @Shows.change l V _ _ (some { s with data := d }) _ h
    (nodup_rekey h.nodup hkey (.inl rfl)) (fun c => ?_) (.inr ⟨_, a, b, rfl, rfl, hd⟩)
  refine (lookupBy_rekey h.nodup hkey (.inl rfl)).trans ?_
  rw [show lookupBy AuthRrset.type l t = some s from hs]
  split <;> rfl

theorem Shows.erase (h : Shows l V) (t : UInt16) :
    Shows (domainRemoveRrset l t) (update V t none) :=
  h.change (nodup_eraseBy h.nodup) (fun _ => lookupBy_eraseBy h.nodup) (.inl ⟨rfl, rfl⟩)

theorem Shows.create (h : Shows l V) (hV : V t = none) (rr : PackedRr) :
    Shows (rrsetCreate l t rr) (update V t (some ([rr.rdata], []))) ∧
    azDomainRrset (rrsetCreate l t rr) t = some ⟨t, ⟨rr.ttl, 1, 0, [rr]⟩⟩ := by
  have hsplit := l.takeWhile_append_dropWhile (p := fun p => p.type ≤ t)
  have hnone : lookupBy AuthRrset.type
      (l.takeWhile (fun p => p.type ≤ t) ++ l.dropWhile (fun p => p.type ≤ t))
      (⟨t, ⟨rr.ttl, 1, 0, [rr]⟩⟩ : AuthRrset).type = none := by
    rw [hsplit]
    exact h.of_view_none hV
  have hlook : ∀ c, azDomainRrset (rrsetCreate l t rr) c =
      if c = t then some ⟨t, ⟨rr.ttl, 1, 0, [rr]⟩⟩ else azDomainRrset l c := by
    intro c
    have hins := @lookupBy_insert _ _ _ AuthRrset.type c _ _ _ hnone
    rw [hsplit] at hins
    exact hins
  refine ⟨?_, (hlook t).trans (if_pos rfl)⟩
  apply h.change (nodup_insert (hsplit.symm ▸ h.nodup) hnone) hlook
  exact .inr ⟨_, _, _, rfl, rfl, splits_one⟩

/-- A data record with the rdata of a signature over its RRset, or the other way around. -/
def View.Hidden (V : View) (t : UInt16) (rd : Rdata) : Prop :=
  ¬ V.Has t rd ∧
    (t ≠ typeRRSIG ∧ (∃ x, V.Has t x) ∧ rrsigRdataGetTypeCovered rd = t ∧ V.Has typeRRSIG rd ∨
      t = typeRRSIG ∧ rrsigRdataGetTypeCovered rd ≠ typeRRSIG ∧
        V.Has (rrsigRdataGetTypeCovered rd) rd)

inductive Added (V : View) (t : UInt16) (rd : Rdata) (l : List AuthRrset) :
    Bool × List AuthRrset → Prop
  | duplicate : V.Has t rd ∨ V.Hidden t rd → Added V t rd l (true, l)
  | added {l' : List AuthRrset} {V' : View} : ¬ V.Has t rd → ¬ V.Hidden t rd → Shows l' V' → V'.Ok →
      (∀ t' rd', V'.Has t' rd' ↔ V.Has t' rd' ∨ t' = t ∧ rd' = rd) → Added V t rd l (false, l')

theorem Shows.addUnlessDuplicate (h : Shows l V) (hs : azDomainRrset l t = some s)
    (hd : Splits s.data a b) (hadd : Splits (rrsetAddRr s.data rr insertSig) a' b')
    (hdup : rr.rdata ∈ a ∨ rr.rdata ∈ b ↔ V.Has t' rr.rdata ∨ V.Hidden t' rr.rdata)
    (hnew : rr.rdata ∉ a → rr.rdata ∉ b → V.Gains t' rr.rdata (update V t (some (a', b')))) :
    Added V t' rr.rdata l (addUnlessDuplicate l s rr insertSig) := by
  rw [Authzone.addUnlessDuplicate, (h.of_some hs).1]
  by_cases hm : rdataDuplicate s.data rr.rdata = true
  · rw [if_pos hm]
    exact .duplicate (hdup.1 (hd.duplicate_iff.1 hm))
  · rw [if_neg hm]
    rw [hd.duplicate_iff] at hm
    obtain ⟨hok, hhas⟩ := hnew (fun ha => hm (.inl ha)) fun hb => hm (.inr hb)
    rw [hdup] at hm
    exact .added (fun hh => hm (.inl hh)) (fun hh => hm (.inr hh)) (h.setData hs hadd) hok hhas

theorem map_filter_covers (rrs : List PackedRr) :
    (rrs.filter (covers t)).map (·.rdata) = coveredBy t (rrs.map (·.rdata)) := by
  rw [coveredBy, filter_map]
  rfl

theorem map_filter_not_covers (rrs : List PackedRr) :
    (rrs.filter fun r => ¬ covers t r).map (·.rdata) = notCoveredBy t (rrs.map (·.rdata)) := by
  rw [notCoveredBy, filter_map]
  congr 1
  apply filter_congr
  simp [covers]

theorem length_coveredBy_add (t : UInt16) (a : List Rdata) :
    (coveredBy t a).length + (notCoveredBy t a).length = a.length := by
  induction a with
  | nil => rfl
  | cons rd a ih =>
    rw [coveredBy, notCoveredBy, filter_cons, filter_cons, length_cons, ← ih]
    by_cases h : rrsigRdataGetTypeCovered rd = t
    · simp only [h, decide_true, not_true_eq_false, decide_false, if_true, Bool.false_eq_true,
        if_false, length_cons, coveredBy, notCoveredBy]
      omega
    · simp only [h, decide_false, not_false_eq_true, decide_true, if_true, Bool.false_eq_true,
        if_false, length_cons, coveredBy, notCoveredBy]
      omega

theorem coveredBy_append {t : UInt16} (ht : t ≠ typeRRSIG)
    (hb : ∀ rd ∈ b, rrsigRdataGetTypeCovered rd = typeRRSIG) :
    coveredBy t (a ++ b) = coveredBy t a ∧ notCoveredBy t (a ++ b) = notCoveredBy t a ++ b := by
  constructor
  · rw [coveredBy, coveredBy, filter_append, append_right_eq_self, filter_eq_nil_iff]
    intro rd hrd he
    exact ht ((of_decide_eq_true he).symm.trans (hb rd hrd))
  · rw [notCoveredBy, filter_append]
    congr 1
    rw [filter_eq_self]
    intro rd hrd
    rw [hb rd hrd]
    exact decide_eq_true (Ne.symm ht)

theorem Shows.moveover (ht : t ≠ typeRRSIG) (h : Shows l (update V t (some ([rd], []))))
    (hold : Splits old [rd] []) (hs : azDomainRrset l t = some s) (hV : V typeRRSIG = some (a, b))
    (hsplit : Splits sigold a b) (hg : Good typeRRSIG a b) :
    Shows (rrsetMoveoverRrsigs l t old sigold) (V.create t rd) := by
  obtain ⟨hcov, hnot⟩ := @coveredBy_append a b t ht hg.covers
  have hlists := View.lists_of hV
  have hnum : rrsigNumThatCover sigold t = (coveredBy t a).length := by
    rw [rrsigNumThatCover, countP_eq_length_filter, ← length_map (f := (·.rdata)),
      map_filter_covers, hsplit.all_map, hcov]
  have hlen := length_coveredBy_add t a
  rw [rrsetMoveoverRrsigs, hnum]
  by_cases h0 : (coveredBy t a).length = 0
  · have hnil := length_eq_zero_iff.1 h0
    have hall : notCoveredBy t a = a :=
      filter_eq_self.2 fun x hx => decide_eq_true fun he =>
        not_mem_nil (hnil ▸ mem_coveredBy.2 ⟨hx, he⟩)
    rw [View.create_eq, hlists, hnil, hall, pack_of_ne hg.ne, ← hV, update_eq_self]
    exact h
  · have hd : Splits { old with
        ttl := lowestTtl old.ttl (sigold.all.filter (covers t))
        rrsigCount := old.rrsigCount + (coveredBy t a).length
        rrs := old.all ++ sigold.all.filter (covers t) } [rd] (coveredBy t a) := by
      refine ⟨?_, hold.count, ?_⟩
      · rw [map_append, hold.all_map, map_filter_covers, hsplit.all_map, hcov]
        rfl
      · rw [hold.rrsigCount]
        exact Nat.zero_add _
    have hset := h.setData hs hd
    rw [update_idem] at hset
    rw [if_neg h0]
    by_cases hall : sigold.count + sigold.rrsigCount = (coveredBy t a).length
    · rw [if_pos hall]
      rw [hsplit.count, hsplit.rrsigCount] at hall
      have hnil : notCoveredBy t a ++ b = [] := by
        apply length_eq_zero_iff.1
        rw [length_append]
        omega
      rw [View.create_eq, hlists, pack, if_pos hnil, update_comm (Ne.symm ht)]
      exact hset.erase typeRRSIG
    · rw [if_neg hall]
      rw [hsplit.count, hsplit.rrsigCount] at hall
      have hne : notCoveredBy t a ++ b ≠ [] := by
        intro he
        have hzero := congrArg length he
        rw [length_append, length_nil] at hzero
        omega
      have hd' : Splits { sigold with
          ttl := recalcTtl sigold.ttl (sigold.all.filter fun r => ¬ covers t r)
          count := sigold.count - (coveredBy t a).length
          rrs := sigold.all.filter fun r => ¬ covers t r } (notCoveredBy t a) b := by
        refine ⟨?_, ?_, hsplit.rrsigCount⟩
        · rw [map_filter_not_covers, hsplit.all_map, hnot]
        · change sigold.count - _ = _
          rw [hsplit.count]
          omega
      obtain ⟨rrsig, hlook, -⟩ := hset.of_view ((update_of_ne (Ne.symm ht) _ V).trans hV)
      rw [View.create_eq, hlists, pack_of_ne hne, update_comm (Ne.symm ht)]
      exact hset.setData hlook hd'

theorem Shows.addSig (h : Shows l V) (hok : V.Ok)
    (hs : azDomainRrset l (rrsigRdataGetTypeCovered rr.rdata) = some s) :
    Added V typeRRSIG rr.rdata l (Authzone.addUnlessDuplicate l s rr true) := by
  obtain ⟨-, a, b, hV, hd⟩ := h.of_some hs
  apply h.addUnlessDuplicate hs hd (hd.addSig rr)
  · by_cases hc : rrsigRdataGetTypeCovered rr.rdata = typeRRSIG
    · have hhas : V.Has typeRRSIG rr.rdata ↔ rr.rdata ∈ a ∨ rr.rdata ∈ b := by
        rw [View.Has, View.sig_of hV, View.data_of (hc ▸ hV)]
        simp
      rw [View.Hidden, hhas]
      grind
    · have hsig := hok.has_sig_iff hV hc
      have hdata : V.Has _ rr.rdata ↔ _ := View.has_data_iff hV hc
      rw [View.Hidden, hsig, hdata]
      grind
  · exact fun ha hb => hok.addSig hV hb fun _ => ha

theorem Shows.addRrsig (h : Shows l V) (hok : V.Ok)
    (hc : azDomainRrset l (rrsigRdataGetTypeCovered rr.rdata) = none)
    (hs : azDomainRrset l typeRRSIG = some s) :
    Added V typeRRSIG rr.rdata l (Authzone.addUnlessDuplicate l s rr false) := by
  obtain ⟨-, a, b, hV, hd⟩ := h.of_some hs
  have hnone := h.of_none hc
  have hcov : rrsigRdataGetTypeCovered rr.rdata ≠ typeRRSIG := by
    intro he
    rw [he, hs] at hc
    cases hc
  have hb : rr.rdata ∉ b := fun hm => hcov ((hok.good _ a b hV).covers _ hm)
  apply h.addUnlessDuplicate hs hd (hd.addData rr)
  · have hhas : V.Has typeRRSIG rr.rdata ↔ rr.rdata ∈ a := by
      rw [View.has_rrsig_of_none hnone, View.data_of hV]
    have hno : ¬ V.Has (rrsigRdataGetTypeCovered rr.rdata) rr.rdata := by
      rintro (hd | ⟨he, -⟩)
      · exact View.not_data_of_none hnone hd
      · exact hcov he
    rw [View.Hidden, hhas]
    grind
  · exact fun ha hb => hok.addData hV ha hb fun _ => .inr hnone

theorem Shows.addData (h : Shows l V) (hok : V.Ok) (ht : t ≠ typeRRSIG)
    (hs : azDomainRrset l t = some s) :
    Added V t rr.rdata l (Authzone.addUnlessDuplicate l s rr false) := by
  obtain ⟨-, a, b, hV, hd⟩ := h.of_some hs
  have hg := hok.good t a b hV
  apply h.addUnlessDuplicate hs hd (hd.addData rr)
  · have hhas : ∀ x, V.Has t x ↔ x ∈ a := fun x => View.has_data_iff hV ht
    have hex : ∃ x, x ∈ a := exists_mem_of_ne_nil a (hg.data_ne ht)
    have hsig : rrsigRdataGetTypeCovered rr.rdata = t → (V.Has typeRRSIG rr.rdata ↔ rr.rdata ∈ b) :=
      fun hc => hok.has_sig_iff (hc.symm ▸ hV) (hc.symm ▸ ht)
    have hcov := hg.covers rr.rdata
    simp only [View.Hidden, hhas]
    grind
  · exact fun ha hb => hok.addData hV ha hb fun he => absurd he ht

/-- `az_domain_add_rr` adds a record that is not there, and tells of one that is. -/
theorem azDomainAddRr_added (h : Shows l V) (hok : V.Ok) (t : UInt16) (rr : PackedRr) :
    Added V t rr.rdata l (azDomainAddRr l t rr) := by
  have hnot : ∀ {c}, V c = none → c ≠ typeRRSIG → ∀ x, ¬ V.Has c x := by
    rintro c hc hne x (hd | ⟨he, -⟩)
    · exact View.not_data_of_none hc hd
    · exact hne he
  rw [azDomainAddRr]
  by_cases ht : t = typeRRSIG
  · subst ht
    cases hc : azDomainRrset l (rrsigRdataGetTypeCovered rr.rdata) with
    | some s => exact h.addSig hok hc
    | none =>
      cases hs : azDomainRrset l typeRRSIG with
      | some s => exact h.addRrsig hok hc hs
      | none =>
        have hV := h.of_none hs
        have hVc := h.of_none hc
        obtain ⟨hok', hhas⟩ := hok.newRrsig hV hVc
        refine .added ?_ ?_ (h.create hV rr).1 hok' hhas
        · rw [View.has_rrsig_of_none hVc]
          exact View.not_data_of_none hV
        · rintro ⟨-, ⟨hne, -⟩ | ⟨-, hne, hhas⟩⟩
          · exact hne rfl
          · exact hnot hVc hne _ hhas
  · rw [if_neg ht]
    cases hs : azDomainRrset l t with
    | some s => exact h.addData hok ht hs
    | none =>
      have hV := h.of_none hs
      obtain ⟨hcreate, hlook⟩ := h.create hV rr
      obtain ⟨hok', hhas⟩ := @View.Ok.create V t rr.rdata hok ht hV
      have hhid : ¬ V.Hidden t rr.rdata := by
        rintro ⟨-, ⟨-, ⟨x, hx⟩, -⟩ | ⟨he, -⟩⟩
        · exact hnot hV ht x hx
        · exact ht he
      have hsame : update V t (some ([rr.rdata], [])) typeRRSIG = V typeRRSIG :=
        update_of_ne (Ne.symm ht) _ V
      dsimp only
      cases hr : azDomainRrset (rrsetCreate l t rr) typeRRSIG with
      | some rrsig =>
        obtain ⟨-, a, b, hVr, hd⟩ := hcreate.of_some hr
        rw [hsame] at hVr
        exact .added (hnot hV ht _) hhid
          (hcreate.moveover ht splits_one hlook hVr hd (hok.good _ a b hVr)) hok' hhas
      | none =>
        have hVr := hcreate.of_none hr
        rw [hsame] at hVr
        refine .added (hnot hV ht _) hhid ?_ hok' hhas
        rw [View.create_eq, View.lists_none hVr]
        change Shows _ (update (update V typeRRSIG none) t (some ([rr.rdata], [])))
        rw [← hVr, update_eq_self]
        exact hcreate

theorem findIdx?_rdata (h : (a.findIdx? fun x => x = rd) = some i) :
    i < a.length ∧ rd ∈ a ∧ a.eraseIdx i = a.erase rd := by
  induction a generalizing i with
  | nil => cases h
  | cons x a ih =>
    rw [findIdx?_cons] at h
    by_cases hx : x = rd
    · rw [if_pos (decide_eq_true hx)] at h
      cases h
      rw [hx, erase_cons_head]
      exact ⟨Nat.succ_pos _, mem_cons_self, rfl⟩
    · rw [if_neg (by simpa using hx)] at h
      obtain ⟨j, hj, rfl⟩ := Option.map_eq_some_iff.1 h
      obtain ⟨hlt, hmem, he⟩ := ih hj
      rw [erase_cons_tail (by simpa using hx), eraseIdx_cons_succ, he]
      exact ⟨Nat.succ_lt_succ hlt, mem_cons_of_mem _ hmem, rfl⟩

theorem not_mem_of_findIdx? (h : (a.findIdx? fun x => x = rd) = none) : rd ∉ a := by
  rw [findIdx?_eq_none_iff] at h
  exact fun hm => of_decide_eq_false (h rd hm) rfl

inductive Removed (V : View) (t : UInt16) (rd : Rdata) (l : List AuthRrset) :
    Option (Bool × List AuthRrset) → Prop
  | nonexist : ¬ V.Has t rd → Removed V t rd l (some (true, l))
  | removed {l' : List AuthRrset} {V' : View} : V.Has t rd → Shows l' V' → V'.Ok →
      (∀ t' rd', V'.Has t' rd' ↔ V.Has t' rd' ∧ ¬ (t' = t ∧ rd' = rd)) →
      Removed V t rd l (some (false, l'))

theorem Shows.removeRrsig (h : Shows l V) (hok : V.Ok) (hplain : V.Plain) (hno : ¬ V.Data t rd) :
    Removed V t rd l (removeRrsig l t rd) := by
  rw [Authzone.removeRrsig]
  by_cases ht : t = typeRRSIG
  · subst ht
    cases hs : azDomainRrset l (rrsigRdataGetTypeCovered rd) with
    | none =>
      apply Removed.nonexist
      rw [View.has_rrsig_of_none (h.of_none hs)]
      exact hno
    | some s =>
      obtain ⟨hst, a, b, hV, hd⟩ := h.of_some hs
      have hsig : V.Sig (rrsigRdataGetTypeCovered rd) rd ↔ rd ∈ b := View.sig_of hV
      dsimp only
      rw [hd.findRrsig]
      cases hi : b.findIdx? fun x => x = rd with
      | none =>
        apply Removed.nonexist
        rintro (hdata | ⟨-, hm⟩)
        · exact hno hdata
        · exact not_mem_of_findIdx? hi (hsig.1 hm)
      | some i =>
        obtain ⟨hlt, hmem, he⟩ := findIdx?_rdata hi
        have hhas : V.Has typeRRSIG rd := .inr ⟨rfl, hsig.2 hmem⟩
        obtain ⟨d, hd', hsplit⟩ := hd.removeSig hlt
        obtain ⟨hok', hhas'⟩ := hok.removeSig hV hmem ((hok.good _ a b hV).data_ne (hplain rd hhas))
        rw [he] at hsplit
        rw [Option.map_some]
        dsimp only
        rw [hd', hst]
        exact .removed hhas (h.setData hs hsplit) hok' hhas'
  · rw [if_neg ht]
    apply Removed.nonexist
    rintro (hdata | ⟨he, -⟩)
    · exact hno hdata
    · exact ht he

theorem View.Ok.pack_lists (h : V.Ok) : pack (V.lists t).1 (V.lists t).2 = V t := by
  rw [View.lists]
  cases hV : V t with
  | none => rfl
  | some p => exact pack_of_ne (h.good t p.1 p.2 hV).ne

theorem Shows.removeSet (h : Shows l V) (hok : V.Ok) (hV : V t = some ([rd], [])) :
    ∃ V', Shows (domainRemoveRrset l t) V' ∧ V.Loses t rd V' := by
  have herase := h.erase t
  by_cases ht : t = typeRRSIG
  · have hrem := hok.removeData hV mem_cons_self (.inl ht)
    rw [erase_cons_head] at hrem
    exact ⟨_, herase, hrem⟩
  · refine ⟨_, ?_, hok.dissolve ht hV⟩
    rw [View.dissolve_eq, append_nil, hok.pack_lists, update_eq_self]
    exact herase

theorem Shows.removeLastRr (h : Shows l V) (hok : V.Ok) (ht : t ≠ typeRRSIG)
    (hs : azDomainRrset l t = some s) (hV : V t = some ([rd], b)) (hd : Splits s.data [rd] b)
    (hb : b ≠ []) : ∃ l', removeLastRr l s 0 = some l' ∧ Shows l' (V.dissolve t b) := by
  have hst := (h.of_some hs).1
  have hg := hok.good t [rd] b hV
  rw [Authzone.removeLastRr, hst]
  cases hrr : azDomainRrset l typeRRSIG with
  | some rrsigset =>
    obtain ⟨-, a', b', hV', hd'⟩ := h.of_some hrr
    have hnew : ∀ r ∈ s.data.all.drop s.data.count, r.rdata ∉ a' ∧ r.rdata ∉ b' := by
      intro r hr
      have hplaced := hok.not_placed ht hV (hd.drop_map ▸ mem_map_of_mem hr)
      rwa [View.lists_of hV'] at hplaced
    have hcopy := hd'.copy (hd.drop_map.symm ▸ hg.sig_nodup) (fun r hr => (hnew r hr).1)
      fun r hr => (hnew r hr).2
    rw [hd.drop_map] at hcopy
    refine ⟨_, rfl, ?_⟩
    rw [View.dissolve_eq, View.lists_of hV', pack_of_ne (by simp [hb])]
    exact (h.setData hrr hcopy).erase t
  | none =>
    have hVr := h.of_none hrr
    have hlists := View.lists_none hVr
    obtain ⟨d, hd', hsplit⟩ := hd.removeData (i := 0) (Nat.succ_pos _)
    have hnew : Splits { d with count := d.rrsigCount, rrsigCount := 0 } b [] := by
      refine ⟨?_, hsplit.rrsigCount, rfl⟩
      rw [append_nil]
      exact hsplit.rrs
    have hkey : ∀ x : AuthRrset, x.type = t →
        (⟨typeRRSIG, { d with count := d.rrsigCount, rrsigCount := 0 }⟩ : AuthRrset).type =
          typeRRSIG := fun _ _ => rfl
    refine ⟨_, by rw [hd']; rfl, nodup_rekey h.nodup hkey (.inr hrr), fun c => ?_⟩
    have hlook := @lookupBy_rekey _ _ _ AuthRrset.type l t c _ typeRRSIG h.nodup hkey (.inr hrr)
    have hs : lookupBy AuthRrset.type l t = some s := hs
    rw [hs] at hlook
    rw [View.dissolve, hlists]
    by_cases hc : c = typeRRSIG
    · rw [if_pos hc] at hlook
      rw [if_neg fun he => ht (he.symm.trans hc), if_pos hc]
      exact .inr ⟨_, b, [], hlook, pack_of_ne (by simpa using hb), hnew⟩
    · rw [if_neg hc] at hlook
      rw [if_neg hc]
      by_cases hct : c = t
      · rw [if_pos hct] at hlook
        rw [if_pos hct]
        exact .inl ⟨hlook, rfl⟩
      · rw [if_neg hct] at hlook
        rw [if_neg hct, azDomainRrset, hlook]
        exact h.view c

theorem Shows.removeFound (h : Shows l V) (hok : V.Ok) (hplain : V.Plain)
    (hs : azDomainRrset l t = some s) (hV : V t = some (a, b)) (hd : Splits s.data a b)
    (hi : (a.findIdx? fun x => x = rd) = some i) :
    ∃ l' V', removeFound l s i = some l' ∧ Shows l' V' ∧ V.Loses t rd V' := by
  obtain ⟨hlt, hmem, he⟩ := findIdx?_rdata hi
  have hst := (h.of_some hs).1
  have hone : a.length = 1 → a = [rd] ∧ i = 0 := by
    intro h1
    obtain ⟨x, rfl⟩ := length_eq_one_iff.1 h1
    rw [mem_singleton.1 hmem]
    exact ⟨rfl, Nat.lt_one_iff.1 hlt⟩
  rw [Authzone.removeFound, hd.count, hd.rrsigCount, hst]
  by_cases h1 : a.length = 1
  · obtain ⟨rfl, rfl⟩ := hone h1
    by_cases hb : b = []
    · subst hb
      obtain ⟨V', hshow, hrem⟩ := h.removeSet hok hV
      exact ⟨_, V', rfl, hshow, hrem⟩
    · have hlen : b.length ≠ 0 := fun h0 => hb (length_eq_zero_iff.1 h0)
      have ht : t ≠ typeRRSIG := by
        rintro rfl
        obtain ⟨x, hx⟩ := exists_mem_of_ne_nil b hb
        have hc := (hok.good _ [rd] b hV).covers x hx
        exact hplain x (.inr ⟨rfl, hc.symm ▸ (View.sig_of hV).2 hx⟩) hc
      obtain ⟨l', hl', hshow⟩ := h.removeLastRr hok ht hs hV hd hb
      rw [if_neg fun hh => hlen hh.2, if_pos ⟨rfl, hlen⟩]
      exact ⟨l', _, hl', hshow, hok.dissolve ht hV⟩
  · have hne : a.erase rd ≠ [] := by
      intro h0
      have hlen := congrArg length h0
      rw [← he, length_eraseIdx_of_lt hlt, length_nil] at hlen
      omega
    obtain ⟨d, hd', hsplit⟩ := hd.removeData hlt
    have hrem := hok.removeData hV hmem (.inr hne)
    rw [he] at hsplit
    rw [pack_of_ne fun h0 => hne (append_eq_nil_iff.1 h0).1] at hrem
    rw [if_neg fun hh => h1 hh.1, if_neg fun hh => h1 hh.1, hd']
    exact ⟨_, _, rfl, h.setData hs hsplit, hrem⟩

/-- `az_domain_remove_rr` removes a record that is there, and tells of one that is not. -/
theorem azDomainRemoveRr_removed (h : Shows l V) (hok : V.Ok) (hplain : V.Plain) (t : UInt16)
    (rd : Rdata) : Removed V t rd l (azDomainRemoveRr l t rd) := by
  rw [azDomainRemoveRr]
  cases hs : azDomainRrset l t with
  | none => exact h.removeRrsig hok hplain (View.not_data_of_none (h.of_none hs))
  | some s =>
    obtain ⟨-, a, b, hV, hd⟩ := h.of_some hs
    dsimp only
    rw [hd.findRr]
    cases hi : a.findIdx? fun x => x = rd with
    | none =>
      apply h.removeRrsig hok hplain
      rw [View.data_of hV]
      exact not_mem_of_findIdx? hi
    | some i =>
      obtain ⟨-, hmem, -⟩ := findIdx?_rdata hi
      obtain ⟨l', V', hl', hshow, hok', hhas⟩ := h.removeFound hok hplain hs hV hd hi
      dsimp only
      rw [hl']
      exact .removed (.inl ((View.data_of hV).2 hmem)) hshow hok' hhas

end CwdGate.Authzone
