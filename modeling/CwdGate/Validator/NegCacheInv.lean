import CwdGate.Validator.NegCache

namespace CwdGate.Validator
open Std Lib List Function

theorem sum_map_change {l : List Nat} {f g : Nat → Nat} {z : Nat} (hn : l.Nodup) (hz : z ∈ l)
    (h : ∀ w ∈ l, w ≠ z → f w = g w) : (l.map f).sum + g z = (l.map g).sum + f z := by
  rw [← sum_map_erase f hz, ← sum_map_erase g hz]
  have : (l.erase z).map f = (l.erase z).map g := by
    apply map_congr_left
    intro w hw
    obtain ⟨hwz, hw⟩ := (hn.mem_erase_iff).1 hw
    exact h w hw hwz
  rw [this]
  omega

theorem sum_map_sublist {l l' : List Nat} {g : Nat → Nat} (hs : l'.Sublist l) (hn : l.Nodup)
    (h : ∀ q ∈ l, q ∉ l' → g q = 0) : (l'.map g).sum = (l.map g).sum := by
  induction hs with
  | slnil => rfl
  | @cons l' l a hs ih =>
    obtain ⟨ha, hn⟩ := nodup_cons.1 hn
    rw [map_cons, sum_cons, h a mem_cons_self fun hm => ha (hs.subset hm), Nat.zero_add]
    exact ih hn fun q hq hq' => h q (mem_cons_of_mem _ hq) hq'
  | @cons_cons l' l a hs ih =>
    obtain ⟨ha, hn⟩ := nodup_cons.1 hn
    rw [map_cons, map_cons, sum_cons, sum_cons, ih hn]
    intro q hq hq'
    apply h q (mem_cons_of_mem _ hq)
    intro hm
    rcases mem_cons.1 hm with rfl | hm
    · exact ha hq
    · exact hq' hm

def NegCache.bytes (neg : NegCache) : Nat :=
  (neg.tree.map fun z => neg.zones.len z + sizeofNegZone).sum +
    (neg.tree.map fun z =>
      ((neg.dataTree z).map fun d => neg.datas.len d + sizeofNegData).sum).sum

def NegCache.InUse (neg : NegCache) (d : Nat) : Prop :=
  ∃ z ∈ neg.tree, d ∈ neg.dataTree z ∧ neg.datas.inUse d = true

/-- The invariant, but for data without count. In an operation a zone may be held without data. -/
structure NegBase (hold : Option Nat) (neg : NegCache) : Prop where
  zones : TreeOk neg.zones neg.dclass neg.tree neg.fresh
  zones_pos : ∀ z ∈ neg.tree, 0 < neg.zones.count z
  datas : ∀ z ∈ neg.tree, TreeOk neg.datas (fun _ => ()) (neg.dataTree z) neg.fresh
  zone : ∀ z ∈ neg.tree, ∀ d ∈ neg.dataTree z, neg.zone d = z
  used : ∀ z ∈ neg.tree, (neg.zones.inUse z = true ↔ neg.dataTree z ≠ [] ∨ hold = some z)
  lru : ∃ xs, neg.lru.Reads xs ∧ ∀ d, d ∈ xs ↔ neg.InUse d
  use : neg.use = neg.bytes

structure NegInv (hold : Option Nat) (neg : NegCache) : Prop extends NegBase hold neg where
  datas_pos : ∀ z ∈ neg.tree, ∀ d ∈ neg.dataTree z, 0 < neg.datas.count d

theorem NegInv.create (max maxiter : Nat) : NegInv none (valNegCreate max maxiter) where
  zones := .nil
  zones_pos := nofun
  datas := nofun
  datas_pos := nofun
  zone := nofun
  used := nofun
  lru := ⟨[], ⟨rfl, rfl⟩, fun _ => iff_of_false not_mem_nil fun ⟨_, hz, _⟩ => not_mem_nil hz⟩
  use := rfl

theorem NegBase.release (h : NegBase (some z) neg) (hd : neg.dataTree z ≠ []) : NegBase none neg :=
  { h with
    used := fun w hw => by
      rw [h.used w hw]
      grind }

theorem NegInv.release (h : NegInv (some z) neg) (hd : neg.dataTree z ≠ []) : NegInv none neg :=
  { h.toNegBase.release hd with datas_pos := h.datas_pos }

theorem NegInv.holding (h : NegInv none neg) (hu : neg.zones.inUse z = true) : NegInv (some z) neg :=
  { h with
    used := fun w hw => by
      have := h.used z
      rw [h.used w hw]
      grind }

theorem NegBase.not_mem_other (h : NegBase hold neg) (hz : z ∈ neg.tree)
    (hw : w ∈ neg.tree) (hwz : w ≠ z) (hd : d ∈ neg.dataTree w) : d ∉ neg.dataTree z :=
  fun hd' => hwz ((h.zone w hw d hd).symm.trans (h.zone z hz d hd'))

theorem NegBase.datas_le_use (h : NegBase hold neg) (hz : z ∈ neg.tree) :
    ((neg.dataTree z).map fun d => neg.datas.len d + sizeofNegData).sum ≤ neg.use := by
  have := sum_map_erase
    (fun z => ((neg.dataTree z).map fun d => neg.datas.len d + sizeofNegData).sum) hz
  rw [h.use, NegCache.bytes]
  omega

theorem lru_remove {lru : Links} (h : lru.Reads xs) (hel : el ∈ xs) :
    ∃ ys, (lru.remove el).Reads ys ∧ ∀ d, d ∈ ys ↔ d ∈ xs ∧ d ≠ el := by
  obtain ⟨a, b, rfl⟩ := append_of_mem hel
  refine ⟨a ++ b, h.remove, fun d => ?_⟩
  have hnd := h.nodup
  grind

theorem negDropData_eq (hzone : neg.zone el = z) :
    negDropData neg el =
      { neg with
        datas := neg.datas.mark el false
        lru := neg.lru.remove el
        dataTree := Function.update neg.dataTree z ((neg.datas.mark el false).dropEmpty
          sizeofNegData (neg.dataTree z) neg.use el).1
        use := ((neg.datas.mark el false).dropEmpty
          sizeofNegData (neg.dataTree z) neg.use el).2 } := by
  subst hzone
  rfl

theorem NegInv.dropData (h : NegInv none neg) (hz : z ∈ neg.tree) (hel : el ∈ neg.dataTree z)
    (hu : neg.datas.inUse el = true) :
    NegInv (some z) (negDropData neg el) ∧
      CountTree.Dropped (neg.dataTree z) (neg.datas.path fun _ => ())
        (neg.datas.mark el false).count (fun d => neg.datas.len d + sizeofNegData) neg.use el
        ((negDropData neg el).dataTree z, (negDropData neg el).use) := by
  obtain ⟨htree, hdrop⟩ := (h.datas z hz).release (h.datas_pos z hz) hel hu (h.datas_le_use hz)
  have hother : ∀ w ∈ neg.tree, w ≠ z → ∀ d ∈ neg.dataTree w,
      neg.datas.AgreeAt (neg.datas.mark el false) d := fun w hw hwz d hd =>
    (h.datas z hz).mark_agree hel (h.not_mem_other hz hw hwz hd)
  rw [negDropData_eq (h.zone z hz el hel)]
  generalize hr : (neg.datas.mark el false).dropEmpty sizeofNegData (neg.dataTree z) neg.use el = r
    at htree hdrop
  have hmem : ∀ w ∈ neg.tree, ∀ d, d ∈ update neg.dataTree z r.1 w → d ∈ neg.dataTree w := by
    intro w hw d hd
    by_cases hwz : w = z
    · subst hwz
      rw [update_self] at hd
      exact hdrop.sublist.subset hd
    · rwa [update_of_ne hwz] at hd
  refine ⟨⟨⟨h.zones, h.zones_pos, ?datas, ?zone, ?used, ?lru, ?use⟩, ?pos⟩, ?drop⟩
  case datas =>
    intro w hw
    by_cases hwz : w = z
    · subst hwz
      simp only [update_self]
      exact htree
    · simp only [update_of_ne hwz]
      exact (h.datas w hw).congr (hother w hw hwz) (fun _ _ => rfl) le_rfl
  case pos =>
    intro w hw d hd
    by_cases hwz : w = z
    · subst hwz
      simp only [update_self] at hd
      exact ((hdrop.mem_iff d).1 hd).2
    · simp only [update_of_ne hwz] at hd
      rw [(hother w hw hwz d hd).count]
      exact h.datas_pos w hw d hd
  case zone =>
    exact fun w hw d hd => h.zone w hw d (hmem w hw d hd)
  case used =>
    intro w hw
    by_cases hwz : w = z
    · subst hwz
      simp only [or_true, iff_true]
      exact (h.used w hw).2 (.inl (ne_nil_of_mem hel))
    · simp only [update_of_ne hwz]
      rw [h.used w hw]
      simp [Ne.symm hwz]
  case lru =>
    obtain ⟨xs, hxs, hin⟩ := h.lru
    obtain ⟨ys, hys, hys'⟩ := lru_remove hxs ((hin el).2 ⟨z, hz, hel, hu⟩)
    refine ⟨ys, hys, fun d => ?_⟩
    rw [hys', hin]
    constructor
    · rintro ⟨⟨w, hw, hd, hdu⟩, hne⟩
      have hdu' : (neg.datas.mark el false).inUse d = true := by
        rw [NegElems.mark_inUse, update_of_ne hne]
        exact hdu
      refine ⟨w, hw, ?_, hdu'⟩
      by_cases hwz : w = z
      · subst hwz
        simp only [update_self]
        have hmark := (h.datas w hz).mark hel (b := false) hu
        exact (hdrop.mem_iff d).2 ⟨hd, (hmark.counts.count_pos_iff hd).2 ⟨d, hd, hdu', .refl _⟩⟩
      · simp only [update_of_ne hwz]
        exact hd
    · rintro ⟨w, hw, hd, hdu⟩
      have hne : d ≠ el := by
        rintro rfl
        simp at hdu
      simp only [NegElems.mark_inUse, update_of_ne hne] at hdu
      exact ⟨⟨w, hw, hmem w hw d hd, hdu⟩, hne⟩
  case use =>
    have hsum := @sum_map_change neg.tree
      (fun w => ((update neg.dataTree z r.1 w).map fun d => neg.datas.len d + sizeofNegData).sum)
      (fun w => ((neg.dataTree w).map fun d => neg.datas.len d + sizeofNegData).sum) z
      h.zones.counts.nodup hz fun w _ hwz => by simp only [update_of_ne hwz]
    have huse := hdrop.use
    have hold := h.use
    simp only [update_self] at hsum
    simp only [NegCache.bytes, NegElems.mark_len] at hold ⊢
    omega
  case drop =>
    simp only [update_self]
    exact hdrop

theorem NegInv.deleteZone (h : NegInv (some z) neg) (hz : z ∈ neg.tree) (hd : neg.dataTree z = []) :
    NegInv none (negDeleteZone neg z) ∧ (negDeleteZone neg z).tree.Sublist neg.tree ∧
      ∀ d, (negDeleteZone neg z).InUse d ↔ neg.InUse d := by
  have hu := (h.used z hz).2 (.inr rfl)
  have hsum : (neg.tree.map fun z => neg.zones.len z + sizeofNegZone).sum ≤ neg.use := by
    rw [h.use, NegCache.bytes]
    omega
  obtain ⟨htree, hdrop⟩ := h.zones.release h.zones_pos hz hu hsum
  have heq : negDeleteZone neg z =
      { neg with
        zones := neg.zones.mark z false
        tree := ((neg.zones.mark z false).dropEmpty sizeofNegZone neg.tree neg.use z).1
        use := ((neg.zones.mark z false).dropEmpty sizeofNegZone neg.tree neg.use z).2 } := rfl
  rw [heq]
  generalize hr : (neg.zones.mark z false).dropEmpty sizeofNegZone neg.tree neg.use z = r
    at htree hdrop
  have hsub : ∀ w ∈ r.1, w ∈ neg.tree := fun w hw => hdrop.sublist.subset hw
  have hne : ∀ w ∈ neg.tree, neg.dataTree w ≠ [] → w ≠ z := fun w _ hwd hwz => by
    rw [hwz] at hwd
    exact hwd hd
  -- a zone with data is in use and stays in the tree
  have hstay : ∀ w ∈ neg.tree, neg.dataTree w ≠ [] → w ∈ r.1 := by
    intro w hw hwd
    have hwu : (neg.zones.mark z false).inUse w = true := by
      rw [NegElems.mark_inUse, update_of_ne (hne w hw hwd)]
      exact (h.used w hw).2 (.inl hwd)
    have hmark := h.zones.mark hz (b := false) hu
    exact (hdrop.mem_iff w).2 ⟨hw, (hmark.counts.count_pos_iff hw).2 ⟨w, hw, hwu, .refl _⟩⟩
  have hinuse : ∀ d, (∃ w ∈ r.1, d ∈ neg.dataTree w ∧ neg.datas.inUse d = true) ↔ neg.InUse d := by
    intro d
    constructor
    · rintro ⟨w, hw, hd⟩
      exact ⟨w, hsub w hw, hd⟩
    · rintro ⟨w, hw, hd, hdu⟩
      exact ⟨w, hstay w hw (ne_nil_of_mem hd), hd, hdu⟩
  refine ⟨⟨⟨htree, fun w hw => ((hdrop.mem_iff w).1 hw).2, fun w hw => h.datas w (hsub w hw),
    fun w hw => h.zone w (hsub w hw), ?_, ?_, ?_⟩, fun w hw => h.datas_pos w (hsub w hw)⟩,
    hdrop.sublist, hinuse⟩
  · intro w hw
    rw [NegElems.mark_inUse]
    by_cases hwz : w = z
    · subst hwz
      simp [hd]
    · rw [update_of_ne hwz, h.used w (hsub w hw)]
      simp [Ne.symm hwz]
  · obtain ⟨xs, hxs, hin⟩ := h.lru
    exact ⟨xs, hxs, fun d => (hin d).trans (hinuse d).symm⟩
  have hdata := @sum_map_sublist neg.tree r.1
    (fun w => ((neg.dataTree w).map fun d => neg.datas.len d + sizeofNegData).sum)
    hdrop.sublist h.zones.counts.nodup (fun w hw hwr => by
      have : neg.dataTree w = [] := by
        by_contra hc
        exact hwr (hstay w hw hc)
      simp [this])
  have huse := hdrop.use
  have hold := h.use
  simp only [NegCache.bytes, NegElems.mark_len] at hold ⊢
  omega

/-- What the deletion of a data element keeps and what it takes away. -/
structure Deleted (neg : NegCache) (z el : Nat) (neg' : NegCache) : Prop where
  inv : NegInv none neg'
  inUse : ∀ d, neg'.InUse d ↔ neg.InUse d ∧ d ≠ el
  tree : neg'.tree.Sublist neg.tree
  dataTree : (neg'.dataTree z).Sublist (neg.dataTree z)
  above : ∀ d ∈ neg.dataTree z, d ∉ neg'.dataTree z →
    Above (neg.datas.path (fun _ => ()) d) (neg.datas.path (fun _ => ()) el)
  zones_name : neg'.zones.name = neg.zones.name
  dclass : neg'.dclass = neg.dclass
  name : neg'.datas.name = neg.datas.name
  labs : neg'.datas.labs = neg.datas.labs
  zone : neg'.zone = neg.zone
  max : neg'.max = neg.max

theorem NegInv.deleteData (h : NegInv none neg) (hz : z ∈ neg.tree) (hel : el ∈ neg.dataTree z)
    (hu : neg.datas.inUse el = true) : Deleted neg z el (negDeleteData neg el) := by
  obtain ⟨hi, hdrop⟩ := h.dropData hz hel hu
  have hzone := h.zone z hz el hel
  have heq := negDropData_eq hzone
  have htree : (negDropData neg el).tree = neg.tree := by rw [heq]
  have hinUse : ∀ d, (negDropData neg el).InUse d ↔ neg.InUse d ∧ d ≠ el := by
    intro d
    obtain ⟨xs, hxs, hin⟩ := h.lru
    obtain ⟨ys, hys, hin'⟩ := hi.lru
    obtain ⟨ys', hys', hmem⟩ := lru_remove hxs ((hin el).2 ⟨z, hz, hel, hu⟩)
    rw [← hin', ← hin, ← hmem, hys.fwd.unique hys'.fwd]
  obtain ⟨hzn, hdc, hname, hlabs, hzn', hmax⟩ :
      (negDropData neg el).zones.name = neg.zones.name ∧ (negDropData neg el).dclass = neg.dclass ∧
      (negDropData neg el).datas.name = neg.datas.name ∧
      (negDropData neg el).datas.labs = neg.datas.labs ∧ (negDropData neg el).zone = neg.zone ∧
      (negDropData neg el).max = neg.max := by
    exact ⟨rfl, rfl, rfl, rfl, rfl, rfl⟩
  rw [negDeleteData, hzone]
  split
  next hnil =>
    obtain ⟨hi', hsub, hin⟩ := hi.deleteZone (htree ▸ hz) hnil
    exact ⟨hi', fun d => (hin d).trans (hinUse d), htree ▸ hsub, hdrop.sublist, hdrop.above, hzn,
      hdc, hname, hlabs, hzn', hmax⟩
  next hne =>
    exact ⟨hi.release hne, hinUse, by rw [htree], hdrop.sublist, hdrop.above, hzn, hdc, hname,
      hlabs, hzn', hmax⟩

/-- Elements went out of use and nothing else changed for the rest. -/
structure Shrunk (neg neg' : NegCache) : Prop where
  inUse : ∀ d, neg'.InUse d → neg.InUse d
  zones_name : neg'.zones.name = neg.zones.name
  dclass : neg'.dclass = neg.dclass
  name : neg'.datas.name = neg.datas.name
  zone : neg'.zone = neg.zone
  max : neg'.max = neg.max

theorem Shrunk.refl (neg : NegCache) : Shrunk neg neg := ⟨fun _ => id, rfl, rfl, rfl, rfl, rfl⟩

theorem Shrunk.trans (h : Shrunk a b) (h' : Shrunk b c) : Shrunk a c where
  inUse d hd := h.inUse d (h'.inUse d hd)
  zones_name := h'.zones_name.trans h.zones_name
  dclass := h'.dclass.trans h.dclass
  name := h'.name.trans h.name
  zone := h'.zone.trans h.zone
  max := h'.max.trans h.max

theorem Deleted.shrunk (h : Deleted neg z el neg') : Shrunk neg neg' :=
  ⟨fun d hd => ((h.inUse d).1 hd).1, h.zones_name, h.dclass, h.name, h.zone, h.max⟩

theorem makeSpaceLoop_spec (h : NegInv none neg) (hxs : neg.lru.Reads xs) (hf : xs.length ≤ fuel) :
    NegInv none (makeSpaceLoop need fuel neg) ∧ Shrunk neg (makeSpaceLoop need fuel neg) ∧
      ((makeSpaceLoop need fuel neg).lru.last = none ∨
        (makeSpaceLoop need fuel neg).use + need ≤ neg.max) := by
  induction fuel generalizing neg xs with
  | zero =>
    have hnil : xs = [] := eq_nil_of_length_eq_zero (Nat.le_zero.1 hf)
    refine ⟨h, .refl _, .inl ?_⟩
    rw [makeSpaceLoop, hxs.last_eq, hnil]
    rfl
  | succ fuel ih =>
    rw [makeSpaceLoop]
    cases hl : neg.lru.last with
    | none => exact ⟨h, .refl _, .inl hl⟩
    | some el =>
      by_cases hfull : neg.max < neg.use + need
      · simp only [if_pos hfull]
        have hel : el ∈ xs := by
          rw [hxs.last_eq] at hl
          exact mem_of_getLast? hl
        obtain ⟨xs', hxs', hin⟩ := h.lru
        have hxe : xs' = xs := hxs'.fwd.unique hxs.fwd
        subst hxe
        obtain ⟨z, hz, hd, hu⟩ := (hin el).1 hel
        have hdel := h.deleteData hz hd hu
        obtain ⟨ys, hys, hin'⟩ := hdel.inv.lru
        have hsub : ys ⊆ xs'.erase el := by
          intro d hmem
          have hd' := (hdel.inUse d).1 ((hin' d).1 hmem)
          exact (hxs.nodup.mem_erase_iff).2 ⟨hd'.2, (hin d).2 hd'.1⟩
        have hlen := (List.Nodup.subperm hys.nodup hsub).length_le
        rw [length_erase_of_mem hel] at hlen
        obtain ⟨hi, hs, hend⟩ := ih hdel.inv hys (by omega)
        rw [hdel.max] at hend
        exact ⟨hi, hdel.shrunk.trans hs, hend⟩
      · simp only [if_neg hfull]
        exact ⟨h, .refl _, .inr (le_of_not_gt hfull)⟩

theorem NegInv.makeSpace (h : NegInv none neg) (need : Nat) :
    NegInv none (negMakeSpace neg need) ∧ Shrunk neg (negMakeSpace neg need) ∧
      ((negMakeSpace neg need).lru.last = none ∨ (negMakeSpace neg need).use + need ≤ neg.max) := by
  obtain ⟨xs, hxs, hin⟩ := h.lru
  apply makeSpaceLoop_spec h hxs
  have hsub : xs ⊆ neg.tree.flatMap neg.dataTree := by
    intro d hd
    obtain ⟨z, hz, hdz, -⟩ := (hin d).1 hd
    exact mem_flatMap.2 ⟨z, hz, hdz⟩
  have hlen := (List.Nodup.subperm hxs.nodup hsub).length_le
  rwa [length_flatMap] at hlen

theorem NegInv.tree_nil (h : NegInv none neg) (hl : neg.lru.last = none) : neg.tree = [] := by
  obtain ⟨xs, hxs, hin⟩ := h.lru
  have hnil : xs = [] := by
    rw [hxs.last_eq, getLast?_eq_none_iff] at hl
    exact hl
  apply eq_nil_iff_forall_not_mem.2
  intro z hz
  obtain ⟨w, hw, hwu, -⟩ := (h.zones.counts.count_pos_iff hz).1 (h.zones_pos z hz)
  have hne : neg.dataTree w ≠ [] := by simpa using (h.used w hw).1 hwu
  obtain ⟨d, hd⟩ := exists_mem_of_ne_nil _ hne
  obtain ⟨u, hu, huu, -⟩ := ((h.datas w hw).counts.count_pos_iff hd).1 (h.datas_pos w hw d hd)
  have := (hin u).2 ⟨w, hw, hu, huu⟩
  rw [hnil] at this
  cases this

variable {neg : NegCache}

/-- An owner name, under the class and name of its zone. -/
abbrev ZoneOwner := (UInt16 × List Label) × List Label

/-- What the cache is for: the owners in use. -/
def NegCache.Holds (neg : NegCache) (x : ZoneOwner) : Prop :=
  ∃ d, neg.InUse d ∧ x = (neg.zones.path neg.dclass (neg.zone d), key (neg.datas.name d))

theorem holds_congr {neg' : NegCache} (hin : ∀ d, neg'.InUse d ↔ neg.InUse d)
    (hname : ∀ d, neg.InUse d →
      neg'.zones.path neg'.dclass (neg'.zone d) = neg.zones.path neg.dclass (neg.zone d) ∧
        neg'.datas.name d = neg.datas.name d) (x : ZoneOwner) : neg'.Holds x ↔ neg.Holds x := by
  constructor
  · rintro ⟨d, hd, rfl⟩
    have hd := (hin d).1 hd
    exact ⟨d, hd, by rw [(hname d hd).1, (hname d hd).2]⟩
  · rintro ⟨d, hd, rfl⟩
    exact ⟨d, (hin d).2 hd, by rw [(hname d hd).1, (hname d hd).2]⟩

/-- A zone that is taken in use, and everything else as it was. -/
structure ZoneTaken (neg : NegCache) (k : UInt16 × List Label) (z : Nat) (neg' : NegCache) :
    Prop where
  inv : NegInv (some z) neg'
  mem : z ∈ neg'.tree
  path : neg'.zones.path neg'.dclass z = k
  holds : ∀ x, neg'.Holds x ↔ neg.Holds x
  max : neg'.max = neg.max

theorem NegInv.takeZone (h : NegInv none neg) (hz : z ∈ neg.tree) :
    ZoneTaken neg (neg.zones.path neg.dclass z) z (valNegZoneTakeInuse neg z) := by
  rw [valNegZoneTakeInuse]
  split
  next hu => exact ⟨h.holding hu, hz, rfl, fun _ => Iff.rfl, rfl⟩
  next hu =>
    have hu : neg.zones.inUse z = false := by simpa using hu
    obtain ⟨htree, hpos⟩ := h.zones.take hz hu fun q hq => .inl (h.zones_pos q hq)
    exact
      { inv :=
          { h with
            zones := htree
            zones_pos := hpos
            used := fun w hw => by
              change (update neg.zones.inUse z true) w = true ↔ _
              by_cases hwz : w = z
              · subst hwz
                simp
              · rw [update_of_ne hwz, h.used w hw]
                simp [Ne.symm hwz] }
        mem := hz
        path := rfl
        holds := fun _ => Iff.rfl
        max := rfl }

theorem NegInv.closestZone (h : NegInv none neg) (nm : Name) (c : UInt16) :
    Closest neg.tree (neg.zones.path neg.dclass) (c, key nm)
      (negClosestZoneParent neg nm (dnameCountLabels nm) c) :=
  h.zones.closest rfl _ fun p hp => valNegZoneCompare_eq (h.zones.labs p hp) rfl

theorem NegInv.zoneCreated (h : NegInv none neg) (dt : Nat → List Nat) (ns : Nat → NegNsec3)
    (hn0 : 0 < n) (hcr : Created neg.zones cls neg.tree neg.fresh n sizeofNegZone neg.use k out)
    (hcls : ∀ p < neg.fresh, cls p = neg.dclass p) (hdat : ∀ p < neg.fresh, dt p = neg.dataTree p)
    (hnew : ∀ p ∈ List.range' neg.fresh n, dt p = []) :
    ZoneTaken neg k neg.fresh (valNegZoneTakeInuse
      { neg with
        zones := out.1, tree := out.2.1, dclass := cls, dataTree := dt, nsec3 := ns
        fresh := neg.fresh + n, use := out.2.2 } neg.fresh) := by
  have hel : neg.fresh ∈ range' neg.fresh n := by
    rw [mem_range'_1]
    omega
  have helt := hcr.perm.mem_iff.2 (mem_append_left _ hel)
  have hu := (hcr.new _ hel).1
  have hmem : ∀ w, w ∈ out.2.1 ↔ w ∈ range' neg.fresh n ∨ w ∈ neg.tree := fun w => by
    rw [hcr.perm.mem_iff, mem_append]
  have hpath : ∀ w < neg.fresh, out.1.path cls w = neg.zones.path neg.dclass w := fun w hw =>
    Prod.ext (hcls w hw) (congrArg key (hcr.agree w hw).name)
  obtain ⟨htree, hpos⟩ := hcr.tree.take helt hu (by
    intro q hq
    rcases (hmem q).1 hq with hq | hq
    · rw [hcr.head]
      exact .inr (hcr.new q hq).2
    · rw [(hcr.agree q (h.zones.fresh q hq)).count]
      exact .inl (h.zones_pos q hq))
  have hold : ∀ w ∈ out.2.1, ∀ d ∈ dt w, w ∈ neg.tree ∧ d ∈ neg.dataTree w := by
    intro w hw d hd
    rcases (hmem w).1 hw with hw | hw
    · rw [hnew w hw] at hd
      cases hd
    · exact ⟨hw, hdat w (h.zones.fresh w hw) ▸ hd⟩
  have hinUse : ∀ d, (∃ w ∈ out.2.1, d ∈ dt w ∧ neg.datas.inUse d = true) ↔ neg.InUse d := by
    intro d
    constructor
    · rintro ⟨w, hw, hd, hdu⟩
      obtain ⟨hwt, hd⟩ := hold w hw d hd
      exact ⟨w, hwt, hd, hdu⟩
    · rintro ⟨w, hw, hd, hdu⟩
      exact ⟨w, (hmem w).2 (.inr hw), by rw [hdat w (h.zones.fresh w hw)]; exact hd, hdu⟩
  rw [valNegZoneTakeInuse, if_neg (by simp [hu])]
  refine ⟨⟨⟨htree, hpos, ?datas, ?zone, ?used, ?lru, ?use⟩, ?pos⟩, helt, hcr.head, fun x => ?holds, rfl⟩
  case datas =>
    intro w hw
    rcases (hmem w).1 hw with hw | hw
    · simp only [hnew w hw]
      exact .nil
    · simp only [hdat w (h.zones.fresh w hw)]
      exact (h.datas w hw).congr (fun _ _ => ⟨rfl, rfl, rfl, rfl, rfl, rfl⟩) (fun _ _ => rfl)
        (Nat.le_add_right _ _)
  case pos =>
    intro w hw d hd
    obtain ⟨hwt, hd⟩ := hold w hw d hd
    exact h.datas_pos w hwt d hd
  case zone =>
    intro w hw d hd
    obtain ⟨hwt, hd⟩ := hold w hw d hd
    exact h.zone w hwt d hd
  case used =>
    intro w hw
    change (update out.1.inUse neg.fresh true) w = true ↔ dt w ≠ [] ∨ _
    by_cases hwf : w = neg.fresh
    · subst hwf
      simp
    · rw [update_of_ne hwf]
      have hno : ¬ some neg.fresh = some w := fun he => hwf (Option.some.inj he).symm
      rcases (hmem w).1 hw with hw | hw
      · simp [(hcr.new w hw).1, hnew w hw, hno]
      · have hlt := h.zones.fresh w hw
        rw [(hcr.agree w hlt).inUse, hdat w hlt, h.used w hw]
        simp [hno]
  case lru =>
    obtain ⟨xs, hxs, hin⟩ := h.lru
    exact ⟨xs, hxs, fun d => (hin d).trans (hinUse d).symm⟩
  case use =>
    have hold := h.use
    have hz := hcr.use_sum h.zones.fresh
    have hd : (out.2.1.map fun w =>
          ((dt w).map fun d => neg.datas.len d + sizeofNegData).sum).sum =
        (neg.tree.map fun w =>
          ((neg.dataTree w).map fun d => neg.datas.len d + sizeofNegData).sum).sum := by
      rw [(hcr.perm.map _).sum_eq, map_append, sum_append]
      have h0 : ((range' neg.fresh n).map fun w =>
          ((dt w).map fun d => neg.datas.len d + sizeofNegData).sum).sum = 0 := by
        apply sum_eq_zero
        intro v hv
        obtain ⟨w, hw, rfl⟩ := mem_map.1 hv
        simp [hnew w hw]
      rw [h0, Nat.zero_add]
      congr 1
      apply map_congr_left
      intro w hw
      rw [hdat w (h.zones.fresh w hw)]
    simp only [NegCache.bytes, NegElems.setInUse, NegElems.addCounts] at hold ⊢
    omega
  case holds =>
    refine holds_congr ?_ ?_ x
    · exact hinUse
    · rintro d ⟨w, hw, hdw, -⟩
      rw [h.zone w hw d hdw]
      exact ⟨hpath w (h.zones.fresh w hw), rfl⟩

theorem NegInv.createZone (h : NegInv none neg)
    (hno : ∀ w ∈ neg.tree, neg.zones.path neg.dclass w ≠ (c, key nm)) :
    ∃ neg1, negCreateZone neg nm c = (neg1, some neg.fresh) ∧
      ZoneTaken neg (c, key nm) neg.fresh (valNegZoneTakeInuse neg1 neg.fresh) := by
  have hcl := h.closestZone nm c
  have hne : ∀ p, negClosestZoneParent neg nm (dnameCountLabels nm) c = some p →
      key (neg.zones.name p) ≠ key nm := by
    intro p hp heq
    rw [hp] at hcl
    cases hcl with
    | some hmem hab _ => exact hno p hmem (Prod.ext hab.1 heq)
  rw [negCreateZone]
  generalize negClosestZoneParent neg nm (dnameCountLabels nm) c = r at hcl hne
  have hany : ¬ (r.any fun p => queryDnameCompare (neg.zones.name p) nm = .eq) = true := by
    cases r with
    | none => simp
    | some p =>
      simp only [Option.any_some, decide_eq_true_eq, queryDnameCompare_eq_iff]
      exact fun he => hne p rfl (key_injective_iff.2 he)
  simp only [hany, if_false, Bool.false_eq_true]
  have hmid := h.zones.create (negZoneChain neg nm (dnameCountLabels nm) c r).dclass hcl hne rfl
    (fun p hp => if_neg (by omega)) (fun p h1 h2 => if_pos ⟨h1, h2⟩)
    (negZoneChain neg nm (dnameCountLabels nm) c r).zones rfl
    (fun p q hp hq => valNegZoneCompare_eq hp hq) sizeofNegZone neg.use
  generalize hn : dnameCountLabels nm - r.elim 0 neg.zones.labs = n at hmid
  obtain ⟨hn0, hcr⟩ := hmid
  rw [if_neg (by omega)]
  refine ⟨_, rfl, ?_⟩
  have hfr : (negZoneChain neg nm (dnameCountLabels nm) c r).fresh = neg.fresh + n := by
    rw [← hn]
    rfl
  have := h.zoneCreated (negZoneChain neg nm (dnameCountLabels nm) c r).dataTree
    (negZoneChain neg nm (dnameCountLabels nm) c r).nsec3 hn0 hcr
    (fun p hp => if_neg (by omega)) (fun p hp => if_neg (by omega))
    (fun p hp => if_pos (by rw [hn]; exact mem_range'_1.1 hp))
  rw [← hfr] at this
  exact this

theorem NegInv.findZone_some (h : NegInv none neg) (hf : negFindZone neg nm c = some z) :
    z ∈ neg.tree ∧ neg.zones.path neg.dclass z = (c, key nm) := by
  have hz := mem_of_find?_eq_some hf
  have heq := find?_some hf
  rw [decide_eq_true_eq, valNegZoneCompare_eq (h.zones.labs z hz) rfl, pathCmp_eq_iff] at heq
  exact ⟨hz, heq⟩

theorem NegInv.findZone_none (h : NegInv none neg) (hf : negFindZone neg nm c = none) :
    ∀ w ∈ neg.tree, neg.zones.path neg.dclass w ≠ (c, key nm) := by
  intro w hw heq
  have := find?_eq_none.1 hf w hw
  rw [decide_eq_true_eq, valNegZoneCompare_eq (h.zones.labs w hw) rfl, pathCmp_eq_iff] at this
  exact this heq

/-- A data element that is in use and in front, and everything else as it was. -/
structure DataTaken (neg : NegCache) (z : Nat) (k : List Label) (el : Nat) (neg' : NegCache) :
    Prop where
  inv : NegInv none neg'
  tree : neg'.tree = neg.tree
  zones : neg'.zones = neg.zones
  dclass : neg'.dclass = neg.dclass
  max : neg'.max = neg.max
  mem : el ∈ neg'.dataTree z
  used : neg'.datas.inUse el = true
  name : key (neg'.datas.name el) = k
  holds : ∀ x, neg'.Holds x ↔ neg.Holds x ∨ x = (neg.zones.path neg.dclass z, k)

theorem DataTaken.of_same (h : DataTaken neg₁ z k el neg') (htree : neg₁.tree = neg.tree)
    (hzones : neg₁.zones = neg.zones) (hdclass : neg₁.dclass = neg.dclass)
    (hmax : neg₁.max = neg.max) (hholds : ∀ x, neg₁.Holds x ↔ neg.Holds x) :
    DataTaken neg z k el neg' :=
  { h with
    tree := h.tree.trans htree
    zones := h.zones.trans hzones
    dclass := h.dclass.trans hdclass
    max := h.max.trans hmax
    holds := fun x => by rw [h.holds, hholds, hzones, hdclass] }

theorem lru_touch (h : neg.lru.Reads xs) (hel : el ∈ xs) :
    ∃ ys, (negLruTouch neg el).lru.Reads ys ∧ ∀ d, d ∈ ys ↔ d ∈ xs := by
  rw [negLruTouch]
  split
  · exact ⟨xs, h, fun _ => Iff.rfl⟩
  · obtain ⟨ys, hys, hmem⟩ := lru_remove h hel
    refine ⟨el :: ys, hys.pushFront fun hm => ((hmem el).1 hm).2 rfl, fun d => ?_⟩
    rw [mem_cons, hmem]
    by_cases hde : d = el <;> simp [hde, hel]

theorem negLruTouch_eq : negLruTouch neg el = { neg with lru := (negLruTouch neg el).lru } := by
  unfold negLruTouch
  split <;> rfl

theorem NegInv.touchData (h : NegInv (some z) neg) (hz : z ∈ neg.tree)
    (hel : el ∈ neg.dataTree z) (hu : neg.datas.inUse el = true) :
    DataTaken neg z (key (neg.datas.name el)) el (negLruTouch neg el) := by
  obtain ⟨xs, hxs, hin⟩ := h.lru
  obtain ⟨ys, hys, hmem⟩ := lru_touch hxs ((hin el).2 ⟨z, hz, hel, hu⟩)
  have hi := h.release (ne_nil_of_mem hel)
  rw [negLruTouch_eq]
  exact
    { inv := { hi with lru := ⟨ys, hys, fun d => (hmem d).trans (hin d)⟩ }
      tree := rfl, zones := rfl, dclass := rfl, max := rfl, mem := hel, used := hu, name := rfl
      holds := fun x => by
        constructor
        · exact fun hx => .inl hx
        · rintro (hx | rfl)
          · exact hx
          · refine ⟨el, ⟨z, hz, hel, hu⟩, ?_⟩
            rw [h.zone z hz el hel] }

theorem NegBase.takeData (h : NegBase (some z) neg) (hz : z ∈ neg.tree) (hel : el ∈ neg.dataTree z)
    (hu : neg.datas.inUse el = false) (hk : key (neg.datas.name el) = k)
    (hpos : ∀ w ∈ neg.tree, ∀ d ∈ neg.dataTree w, 0 < neg.datas.count d ∨
      w = z ∧ Above (neg.datas.path (fun _ => ()) d) (neg.datas.path (fun _ => ()) el)) :
    DataTaken neg z k el (negDataTakeInuse neg el) := by
  subst hk
  rw [negDataTakeInuse, if_neg (by rw [hu]; simp)]
  obtain ⟨htree, hcount⟩ := (h.datas z hz).take hel hu fun q hq => (hpos z hz q hq).imp_right And.right
  have hother : ∀ w ∈ neg.tree, w ≠ z → ∀ d ∈ neg.dataTree w,
      neg.datas.AgreeAt (neg.datas.mark el true) d := fun w hw hwz d hd =>
    (h.datas z hz).mark_agree hel (h.not_mem_other hz hw hwz hd)
  have hinUse : ∀ d, NegCache.InUse { neg with datas := neg.datas.mark el true } d ↔
      neg.InUse d ∨ d = el := by
    intro d
    constructor
    · rintro ⟨w, hw, hd, hdu⟩
      by_cases hde : d = el
      · exact .inr hde
      · simp only [NegElems.mark_inUse, update_of_ne hde] at hdu
        exact .inl ⟨w, hw, hd, hdu⟩
    · rintro (⟨w, hw, hd, hdu⟩ | rfl)
      · refine ⟨w, hw, hd, ?_⟩
        rw [NegElems.mark_inUse, update_apply]
        split
        · rfl
        · exact hdu
      · exact ⟨z, hz, hel, update_self ..⟩
  have hnot : ¬ neg.InUse el := by
    rintro ⟨w, -, -, hdu⟩
    rw [hu] at hdu
    cases hdu
  refine
    { inv := ⟨⟨h.zones, h.zones_pos, ?datas, h.zone, (h.release (ne_nil_of_mem hel)).used, ?lru,
        h.use⟩, ?pos⟩
      tree := rfl, zones := rfl, dclass := rfl, max := rfl, mem := hel
      used := update_self .., name := rfl, holds := ?holds }
  case datas =>
    intro w hw
    by_cases hwz : w = z
    · subst hwz
      exact htree
    · exact (h.datas w hw).congr (hother w hw hwz) (fun _ _ => rfl) le_rfl
  case lru =>
    obtain ⟨xs, hxs, hin⟩ := h.lru
    refine ⟨el :: xs, hxs.pushFront fun hm => hnot ((hin el).1 hm), fun d => ?_⟩
    refine Iff.trans ?_ (hinUse d).symm
    rw [mem_cons, hin, or_comm]
  case pos =>
    intro w hw d hd
    by_cases hwz : w = z
    · subst hwz
      exact hcount d hd
    · change 0 < (neg.datas.mark el true).count d
      rw [(hother w hw hwz d hd).count]
      exact (hpos w hw d hd).resolve_right fun hc => hwz hc.1
  case holds =>
    intro x
    constructor
    · rintro ⟨d, hd, rfl⟩
      rcases (hinUse d).1 hd with hd | rfl
      · exact .inl ⟨d, hd, rfl⟩
      · right
        change (neg.zones.path neg.dclass (neg.zone d), _) = _
        rw [h.zone z hz d hel]
        rfl
    · rintro (⟨d, hd, rfl⟩ | rfl)
      · exact ⟨d, (hinUse d).2 (.inl hd), rfl⟩
      · refine ⟨el, (hinUse el).2 (.inr rfl), ?_⟩
        change _ = (neg.zones.path neg.dclass (neg.zone el), _)
        rw [h.zone z hz el hel]
        rfl

theorem NegBase.closestData (h : NegBase hold neg) (hz : z ∈ neg.tree) (nm : Name) :
    Closest (neg.dataTree z) (neg.datas.path fun _ => ()) ((), key nm)
      (negClosestDataParent neg z nm (dnameCountLabels nm)) := by
  have := (h.datas z hz).closest rfl
    (fun d => valNegDataCompare neg.datas d nm (dnameCountLabels nm))
    fun p hp => valNegDataCompare_eq ((h.datas z hz).labs p hp) rfl
  rw [negClosestDataParent]
  generalize findLE _ _ = r at this ⊢
  cases r with
  | none => exact this
  | some p => simpa only [ne_eq, not_true_eq_false, if_false] using this

theorem NegInv.dataCreated (h : NegInv (some z) neg) (hz : z ∈ neg.tree)
    {out : NegElems × List Nat × Nat} (hn0 : 0 < n)
    (hcr : Created neg.datas (fun _ => ()) (neg.dataTree z) neg.fresh n sizeofNegData neg.use
      ((), k) out) (hold : ∀ p < neg.fresh, zn p = neg.zone p)
    (hnew : ∀ p, neg.fresh ≤ p → p < neg.fresh + n → zn p = z) :
    DataTaken neg z k neg.fresh (negDataTakeInuse { neg with
        datas := out.1, dataTree := Function.update neg.dataTree z out.2.1, zone := zn
        fresh := neg.fresh + n, use := out.2.2 } neg.fresh) := by
  have hel : neg.fresh ∈ range' neg.fresh n := by
    rw [mem_range'_1]
    omega
  have hu := (hcr.new _ hel).1
  have hmem : ∀ d, d ∈ out.2.1 ↔ d ∈ range' neg.fresh n ∨ d ∈ neg.dataTree z := fun d => by
    rw [hcr.perm.mem_iff, mem_append]
  have hagree : ∀ w ∈ neg.tree, ∀ d ∈ neg.dataTree w, neg.datas.AgreeAt out.1 d :=
    fun w hw d hd => hcr.agree d ((h.datas w hw).fresh d hd)
  have hcases : ∀ w d, d ∈ update neg.dataTree z out.2.1 w ↔
      w = z ∧ d ∈ range' neg.fresh n ∨ d ∈ neg.dataTree w := by
    intro w d
    by_cases hwz : w = z
    · rw [hwz, update_self, hmem]
      simp
    · simp [hwz]
  have hinUse : ∀ d, (∃ w ∈ neg.tree, d ∈ update neg.dataTree z out.2.1 w ∧
      out.1.inUse d = true) ↔ neg.InUse d := by
    intro d
    constructor
    · rintro ⟨w, hw, hd, hdu⟩
      rcases (hcases w d).1 hd with ⟨-, hd⟩ | hd
      · rw [(hcr.new d hd).1] at hdu
        cases hdu
      · rw [(hagree w hw d hd).inUse] at hdu
        exact ⟨w, hw, hd, hdu⟩
    · rintro ⟨w, hw, hd, hdu⟩
      exact ⟨w, hw, (hcases w d).2 (.inr hd), by rw [(hagree w hw d hd).inUse]; exact hdu⟩
  refine DataTaken.of_same (NegBase.takeData ?base hz ((hcases z _).2 (.inl ⟨rfl, hel⟩)) hu
    (congrArg Prod.snd hcr.head) ?pos) rfl rfl rfl rfl (holds_congr hinUse ?name)
  case base =>
    refine ⟨h.zones.congr (fun _ _ => ⟨rfl, rfl, rfl, rfl, rfl, rfl⟩) (fun _ _ => rfl)
      (Nat.le_add_right _ _), h.zones_pos, fun w hw => ?datas, fun w hw d hd => ?zone,
      fun w hw => ?used, ?lru, ?use⟩
    case datas =>
      by_cases hwz : w = z
      · subst hwz
        simp only [update_self]
        exact hcr.tree
      · simp only [update_of_ne hwz]
        exact (h.datas w hw).congr (hagree w hw) (fun _ _ => rfl) (Nat.le_add_right _ _)
    case zone =>
      rcases (hcases w d).1 hd with ⟨rfl, hr⟩ | hd
      · exact hnew d (mem_range'_1.1 hr).1 (mem_range'_1.1 hr).2
      · exact (hold d ((h.datas w hw).fresh d hd)).trans (h.zone w hw d hd)
    case used =>
      refine (h.used w hw).trans ?_
      by_cases hwz : w = z
      · subst hwz
        simp
      · simp only [update_of_ne hwz]
    case lru =>
      obtain ⟨xs, hxs, hin⟩ := h.lru
      exact ⟨xs, hxs, fun d => (hin d).trans (hinUse d).symm⟩
    case use =>
      have hsum := @sum_map_change neg.tree
        (fun w => ((update neg.dataTree z out.2.1 w).map fun d => out.1.len d + sizeofNegData).sum)
        (fun w => ((neg.dataTree w).map fun d => neg.datas.len d + sizeofNegData).sum) z
        h.zones.counts.nodup hz fun w hw hwz => by
          simp only [update_of_ne hwz]
          congr 1
          apply map_congr_left
          intro d hd
          rw [(hagree w hw d hd).len]
      have hadd := hcr.use_sum (h.datas z hz).fresh
      have hold := h.use
      simp only [update_self] at hsum
      simp only [NegCache.bytes] at hold ⊢
      omega
  case pos =>
    intro w hw d hd
    rcases (hcases w d).1 hd with ⟨hwz, hd⟩ | hd
    · simp only [hcr.head]
      exact .inr ⟨hwz, (hcr.new d hd).2⟩
    · simp only [(hagree w hw d hd).count]
      exact .inl (h.datas_pos w hw d hd)
  case name =>
    rintro d ⟨w, hw, hd, -⟩
    exact ⟨congrArg _ (hold d ((h.datas w hw).fresh d hd)), (hagree w hw d hd).name⟩

theorem NegInv.createData (h : NegInv (some z) neg) (hz : z ∈ neg.tree)
    (hcl : Closest (neg.dataTree z) (neg.datas.path fun _ => ()) ((), key nm) r)
    (hne : ∀ p, r = some p → key (neg.datas.name p) ≠ key nm) :
    ∃ neg1, negCreateData neg z nm r = (neg1, some neg.fresh) ∧
      DataTaken neg z (key nm) neg.fresh (negDataTakeInuse neg1 neg.fresh) := by
  have hmid := (h.datas z hz).create (fun _ => ()) hcl hne rfl (fun _ _ => rfl)
    (fun _ _ _ => rfl) _ rfl (fun p q hp hq => valNegDataCompare_eq hp hq) sizeofNegData neg.use
  rw [negCreateData]
  obtain ⟨hn0, hcr⟩ := hmid
  simp only [if_neg (Nat.ne_of_gt hn0)]
  exact ⟨_, rfl, h.dataCreated hz hn0 hcr (fun p hp => if_neg (by omega))
    fun p h1 h2 => if_pos ⟨h1, h2⟩⟩

theorem NegInv.findOrCreateData (h : NegInv (some z) neg) (hz : z ∈ neg.tree) (nm : Name) :
    ∃ neg1 el, negFindOrCreateData neg z nm = (neg1, some el) ∧
      DataTaken neg z (key nm) el (negDataTakeInuse neg1 el) := by
  have hcl := h.closestData hz nm
  rw [negFindOrCreateData]
  generalize negClosestDataParent neg z nm (dnameCountLabels nm) = r at hcl
  by_cases hany : (r.any fun p => queryDnameCompare (neg.datas.name p) nm = .eq) = true
  · simp only [if_pos hany]
    cases hcl with
    | none => cases hany
    | @some p hp _ _ =>
      simp only [Option.any_some, decide_eq_true_eq, queryDnameCompare_eq_iff] at hany
      have hkey := key_injective_iff.2 hany
      refine ⟨neg, p, rfl, ?_⟩
      rw [← hkey]
      by_cases hu : neg.datas.inUse p = true
      · rw [negDataTakeInuse, if_pos hu]
        exact h.touchData hz hp hu
      · exact h.takeData hz hp (by simpa using hu) rfl fun w hw d hd =>
          .inl (h.datas_pos w hw d hd)
  · simp only [if_neg hany]
    obtain ⟨neg1, heq, ht⟩ := h.createData hz hcl (by
      rintro p rfl heq
      simp only [Option.any_some, decide_eq_true_eq, queryDnameCompare_eq_iff] at hany
      exact hany (key_injective_iff.1 heq))
    exact ⟨neg1, neg.fresh, heq, ht⟩

end CwdGate.Validator
