import CwdGate.Authzone.Zone

namespace CwdGate.Authzone
open Std Lib List

abbrev Record := Name × UInt16 × Rdata

def Rr.record (rr : Rr) : Record := (lowerName rr.dname, rr.type, rr.rdata)

def Holds (rrsets : List AuthRrset) (t : UInt16) (rd : Rdata) : Prop :=
  (∃ s ∈ rrsets, s.type = t ∧ rd ∈ s.data.dataRdatas) ∨
    t = typeRRSIG ∧ ∃ s ∈ rrsets, rd ∈ s.data.sigRdatas

def AuthZone.records (z : AuthZone) : Set Record :=
  { x | ∃ n ∈ z.data, lowerName n.name = x.1 ∧ Holds n.rrsets x.2.1 x.2.2 }

def AuthZone.Sorted (z : AuthZone) : Prop := z.data.Pairwise fun a b => authDataCmp a b = .lt

/-- The tree is in order, and every node has RRsets that are in order. -/
structure ZoneOk (z : AuthZone) : Prop where
  sorted : z.Sorted
  nonempty : ∀ n ∈ z.data, n.rrsets ≠ []
  nodes : ∀ n ∈ z.data, ∃ V, Shows n.rrsets V ∧ V.Ok

def AuthZone.rrsetsAt (z : AuthZone) (o : Name) : List AuthRrset :=
  ((azFindName z o).map AuthData.rrsets).getD []

theorem Shows.holds_iff (h : Shows l V) (hok : V.Ok) : Holds l t rd ↔ V.Has t rd := by
  have hmem : ∀ s ∈ l, ∃ a b, V s.type = some (a, b) ∧ Splits s.data a b := fun s hs =>
    (h.of_some (lookupBy_of_mem h.nodup hs)).2
  constructor
  · rintro (⟨s, hs, rfl, hrd⟩ | ⟨rfl, s, hs, hrd⟩)
    · obtain ⟨a, b, hV, hd⟩ := hmem s hs
      exact .inl ⟨a, b, hV, hd.dataRdatas ▸ hrd⟩
    · obtain ⟨a, b, hV, hd⟩ := hmem s hs
      rw [hd.sigRdatas] at hrd
      have hc := (hok.good _ a b hV).covers rd hrd
      exact .inr ⟨rfl, a, b, hc ▸ hV, hrd⟩
  · rintro (⟨a, b, hV, hrd⟩ | ⟨rfl, a, b, hV, hrd⟩)
    · obtain ⟨s, hs, hd⟩ := h.of_view hV
      obtain ⟨hsl, hst⟩ := lookupBy_some hs
      exact .inl ⟨s, hsl, hst, hd.dataRdatas.symm ▸ hrd⟩
    · obtain ⟨s, hs, hd⟩ := h.of_view hV
      exact .inr ⟨rfl, s, (lookupBy_some hs).1, hd.sigRdatas.symm ▸ hrd⟩

section zone
variable {z : AuthZone} {o nm : Name}

theorem compare_eq_iff : dnameCanonicalCompare a b = .eq ↔ key b = key a := by
  rw [dnameCanonicalCompare_spec]
  exact LawfulEqCmp.compare_eq_iff_eq.trans eq_comm

theorem authDataCmp_eq :
    authDataCmp = fun a b : AuthData => (key a.name).compareLex canonOrd (key b.name) := by
  funext a b
  exact dnameCanonicalCompare_spec _ _

theorem azFindName_eq :
    azFindName z o = lookupBy (fun n : AuthData => key n.name) z.data (key o) := by
  rw [azFindName, lookupBy]
  congr 1
  funext n
  simp only [compare_eq_iff]

theorem AuthZone.Sorted.nodup (h : z.Sorted) : (z.data.map fun n => key n.name).Nodup := by
  rw [AuthZone.Sorted, authDataCmp_eq] at h
  exact nodup_of_pairwise_lt (c := List.compareLex canonOrd) h

theorem rrsetsAt_some (h : azFindName z o = some n) : z.rrsetsAt o = n.rrsets := by
  rw [AuthZone.rrsetsAt, h]
  rfl

theorem rrsetsAt_none (h : azFindName z o = none) : z.rrsetsAt o = [] := by
  rw [AuthZone.rrsetsAt, h]
  rfl

theorem rrsetsAt_congr (h : lowerName o = lowerName nm) : z.rrsetsAt o = z.rrsetsAt nm := by
  rw [AuthZone.rrsetsAt, AuthZone.rrsetsAt, azFindName_eq, azFindName_eq, key_injective_iff.2 h]

theorem not_holds_nil : ¬ Holds [] t rd := by
  rintro (⟨s, hs, -⟩ | ⟨-, s, hs, -⟩)
  · cases hs
  · cases hs

theorem ZoneOk.mem_records_iff (h : ZoneOk z) :
    (o, t, rd) ∈ z.records ↔ lowerName o = o ∧ Holds (z.rrsetsAt o) t rd := by
  constructor
  · rintro ⟨n, hn, rfl, hh⟩
    have hlow := lowerName_lowerName n.name
    have hfind : azFindName z (lowerName n.name) = some n := by
      rw [azFindName_eq, key_injective_iff.2 hlow]
      exact lookupBy_of_mem h.sorted.nodup hn
    rw [rrsetsAt_some hfind]
    exact ⟨hlow, hh⟩
  · rintro ⟨hlow, hh⟩
    cases hfind : azFindName z o with
    | none =>
      rw [rrsetsAt_none hfind] at hh
      exact absurd hh not_holds_nil
    | some n =>
      rw [rrsetsAt_some hfind] at hh
      rw [azFindName_eq] at hfind
      obtain ⟨hn, hkey⟩ := lookupBy_some hfind
      exact ⟨n, hn, (key_injective_iff.1 hkey).trans hlow, hh⟩

theorem ZoneOk.view_at (h : ZoneOk z) :
    ∃ V, Shows (z.rrsetsAt o) V ∧ V.Ok ∧ ∀ t rd, V.Has t rd ↔ (lowerName o, t, rd) ∈ z.records := by
  obtain ⟨V, hshow, hok⟩ : ∃ V, Shows (z.rrsetsAt o) V ∧ V.Ok := by
    rw [AuthZone.rrsetsAt]
    cases hfind : azFindName z o with
    | none => exact ⟨_, shows_nil, ⟨(fun _ _ _ hV => nomatch hV), fun _ _ hV => nomatch hV⟩⟩
    | some n =>
      exact h.nodes n (lookupBy_some hfind).1
  refine ⟨V, hshow, hok, fun t rd => ?_⟩
  rw [h.mem_records_iff, ← hshow.holds_iff hok, rrsetsAt_congr (lowerName_lowerName o)]
  exact (and_iff_right (lowerName_lowerName o)).symm

theorem AuthZone.Sorted.setRrsets (h : z.Sorted) (nm : Name) (l : List AuthRrset) :
    (z.setRrsets nm l).Sorted := by
  rw [AuthZone.Sorted, AuthZone.setRrsets, pairwise_map]
  apply List.Pairwise.imp _ h
  intro a b hlt
  have hname : ∀ n : AuthData, (if dnameCanonicalCompare nm n.name = .eq then
      { n with rrsets := l } else n).name = n.name := fun n => by split <;> rfl
  rw [authDataCmp, hname, hname]
  exact hlt

theorem azFindName_setRrsets :
    azFindName (z.setRrsets nm l) o =
      if key o = key nm then (azFindName z o).map fun n => { n with rrsets := l }
      else azFindName z o := by
  rw [azFindName_eq, azFindName_eq, AuthZone.setRrsets]
  induction z.data with
  | nil =>
    split <;> rfl
  | cons n data ih =>
    have hname : (if dnameCanonicalCompare nm n.name = .eq then
        { n with rrsets := l } else n).name = n.name := by split <;> rfl
    rw [map_cons, lookupBy_cons, lookupBy_cons, hname, ih]
    by_cases hn : key n.name = key o
    · rw [if_pos hn, if_pos hn]
      by_cases ho : key o = key nm
      · rw [if_pos ho, if_pos (compare_eq_iff.2 (hn.trans ho))]
        rfl
      · rw [if_neg ho, if_neg fun he => ho (hn.symm.trans (compare_eq_iff.1 he))]
    · rw [if_neg hn, if_neg hn]

theorem AuthZone.Sorted.create (h : z.Sorted) (nm : Name) : (azDomainCreate z nm).Sorted := by
  rw [AuthZone.Sorted, authDataCmp_eq] at h ⊢
  rw [azDomainCreate, authDataCmp_eq]
  exact pairwise_insertOrd (c := List.compareLex canonOrd) (f := fun n : AuthData => key n.name) h

theorem azFindName_create (hnone : azFindName z nm = none) :
    azFindName (azDomainCreate z nm) o =
      if key o = key nm then some ⟨nm, []⟩ else azFindName z o := by
  rw [azFindName_eq] at hnone
  obtain ⟨a, b, hl, hi⟩ := @exists_insertOrd _ authDataCmp ⟨nm, []⟩ z.data fun y hy he =>
    lookupBy_none_iff.1 hnone y hy (compare_eq_iff.1 he)
  rw [hl] at hnone
  rw [azFindName_eq, azFindName_eq, azDomainCreate]
  rw [hi, hl]
  exact @lookupBy_insert _ _ _ (fun n : AuthData => key n.name) (key o) ⟨nm, []⟩ a b hnone

theorem azFindName_filter (nm o : Name) :
    azFindName { z with data := z.data.filter fun n => dnameCanonicalCompare nm n.name ≠ .eq } o =
      if key o = key nm then none else azFindName z o := by
  rw [azFindName_eq, azFindName_eq]
  induction z.data with
  | nil =>
    split <;> rfl
  | cons n data ih =>
    rw [filter_cons]
    by_cases hn : key n.name = key nm
    · rw [if_neg (by simp [compare_eq_iff, hn]), ih, lookupBy_cons]
      by_cases ho : key o = key nm
      · rw [if_pos ho, if_pos ho]
      · rw [if_neg ho, if_neg ho, if_neg fun he => ho (he.symm.trans hn)]
    · rw [if_pos (by simp [compare_eq_iff, hn]), lookupBy_cons, lookupBy_cons, ih]
      by_cases ho : key o = key nm
      · rw [if_pos ho, if_pos ho, if_neg fun he => hn (he.trans ho)]
      · rw [if_neg ho, if_neg ho]

theorem zoneOk_of_find (h : z.Sorted) (hn : ∀ o n, azFindName z o = some n →
    n.rrsets ≠ [] ∧ ∃ V, Shows n.rrsets V ∧ V.Ok) : ZoneOk z := by
  have hfind : ∀ n ∈ z.data, azFindName z n.name = some n := fun n hm => by
    rw [azFindName_eq]
    exact lookupBy_of_mem h.nodup hm
  exact ⟨h, fun n hm => (hn _ n (hfind n hm)).1, fun n hm => (hn _ n (hfind n hm)).2⟩

theorem ZoneOk.of_find (h : ZoneOk z) (hf : azFindName z o = some n) :
    n.rrsets ≠ [] ∧ ∃ V, Shows n.rrsets V ∧ V.Ok := by
  have hm := (lookupBy_some hf).1
  exact ⟨h.nonempty n hm, h.nodes n hm⟩

/-- The zone with other RRsets at one name. -/
structure Rewrites (z : AuthZone) (nm : Name) (l : List AuthRrset) (z' : AuthZone) : Prop where
  ok : ZoneOk z'
  name : z'.name = z.name
  dclass : z'.dclass = z.dclass
  at_name : ∀ o, lowerName o = lowerName nm → z'.rrsetsAt o = l
  other : ∀ o, lowerName o ≠ lowerName nm → z'.rrsetsAt o = z.rrsetsAt o

theorem ZoneOk.rewrites (h : ZoneOk z) (hz : z'.Sorted) (hname : z'.name = z.name)
    (hclass : z'.dclass = z.dclass)
    (hfind : ∀ o, azFindName z' o = if key o = key nm then x else azFindName z o)
    (hx : ∀ n, x = some n → n.rrsets ≠ [] ∧ ∃ V, Shows n.rrsets V ∧ V.Ok) :
    Rewrites z nm ((x.map AuthData.rrsets).getD []) z' := by
  refine ⟨zoneOk_of_find hz fun o n hn => ?_, hname, hclass, fun o ho => ?_, fun o ho => ?_⟩
  · rw [hfind] at hn
    split at hn
    · exact hx n hn
    · exact h.of_find hn
  · rw [AuthZone.rrsetsAt, hfind, if_pos (key_injective_iff.2 ho)]
  · rw [AuthZone.rrsetsAt, hfind, if_neg fun he => ho (key_injective_iff.1 he)]
    rfl

theorem ZoneOk.setRrsets (h : ZoneOk z) (hf : azFindName z nm = some n) (hne : l ≠ [])
    (hV : ∃ V, Shows l V ∧ V.Ok) : Rewrites z nm l (z.setRrsets nm l) := by
  refine @ZoneOk.rewrites _ _ _ (some { n with rrsets := l }) h (h.sorted.setRrsets nm l) rfl rfl
    (fun o => ?_) (by rintro _ ⟨⟩; exact ⟨hne, hV⟩)
  rw [azFindName_setRrsets]
  split
  next ho =>
    rw [azFindName_eq, ho, ← azFindName_eq, hf]
    rfl
  next => rfl

theorem ZoneOk.create (h : ZoneOk z) (hf : azFindName z nm = none) {l : List AuthRrset}
    (hne : l ≠ []) (hV : ∃ V, Shows l V ∧ V.Ok) :
    Rewrites z nm l ((azDomainCreate z nm).setRrsets nm l) := by
  refine @ZoneOk.rewrites _ _ _ (some ⟨nm, l⟩) h ((h.sorted.create nm).setRrsets nm l) rfl rfl
    (fun o => ?_) (by rintro _ ⟨⟩; exact ⟨hne, hV⟩)
  rw [azFindName_setRrsets, azFindName_create hf]
  split <;> rfl

theorem ZoneOk.filter (h : ZoneOk z) (nm : Name) :
    Rewrites z nm []
      { z with data := z.data.filter fun n => dnameCanonicalCompare nm n.name ≠ .eq } := by
  refine @ZoneOk.rewrites _ _ _ none h ?_ rfl rfl ?_ nofun
  · exact List.Pairwise.filter _ h.sorted
  · exact azFindName_filter nm

theorem Rewrites.mem_records_iff (hr : Rewrites z nm l z') (h : ZoneOk z) :
    (o, t, rd) ∈ z'.records ↔
      o = lowerName nm ∧ Holds l t rd ∨ o ≠ lowerName nm ∧ (o, t, rd) ∈ z.records := by
  rw [hr.ok.mem_records_iff, h.mem_records_iff]
  by_cases ho : o = lowerName nm
  · have hlow : lowerName o = o := by rw [ho, lowerName_lowerName]
    rw [hr.at_name o (hlow.trans ho)]
    simp [ho, lowerName_lowerName]
  · by_cases hlow : lowerName o = o
    · rw [hr.other o fun he => ho (hlow.symm.trans he)]
      simp [ho]
    · simp [ho, hlow]

def HiddenIn (S : Set Record) (x : Record) : Prop :=
  x ∉ S ∧
    (x.2.1 ≠ typeRRSIG ∧ (∃ rd, (x.1, x.2.1, rd) ∈ S) ∧ rrsigRdataGetTypeCovered x.2.2 = x.2.1 ∧
        (x.1, typeRRSIG, x.2.2) ∈ S ∨
      x.2.1 = typeRRSIG ∧ rrsigRdataGetTypeCovered x.2.2 ≠ typeRRSIG ∧
        (x.1, rrsigRdataGetTypeCovered x.2.2, x.2.2) ∈ S)

def PlainIn (S : Set Record) : Prop :=
  ∀ o rd, (o, typeRRSIG, rd) ∈ S → rrsigRdataGetTypeCovered rd ≠ typeRRSIG

structure Stands (z : AuthZone) (S : Set Record) (z' : AuthZone) : Prop where
  ok : ZoneOk z'
  name : z'.name = z.name
  dclass : z'.dclass = z.dclass
  records : z'.records = S

theorem Rewrites.stands_same (hr : Rewrites z nm l z') (h : ZoneOk z) (hl : l = z.rrsetsAt nm) :
    Stands z z.records z' := by
  subst hl
  refine ⟨hr.ok, hr.name, hr.dclass, Set.ext fun ⟨o, t, rd⟩ => ?_⟩
  rw [hr.mem_records_iff h]
  by_cases ho : o = lowerName nm
  · have hlow : lowerName o = o := by rw [ho, lowerName_lowerName]
    rw [h.mem_records_iff, rrsetsAt_congr (hlow.trans ho)]
    simp [ho, lowerName_lowerName]
  · simp [ho]

theorem Rewrites.stands (hr : Rewrites z nm l z') (h : ZoneOk z) (hs : Shows l V') (hok : V'.Ok)
    (hother : ∀ o t rd, o ≠ lowerName nm → ((o, t, rd) ∈ S ↔ (o, t, rd) ∈ z.records))
    (hnm : ∀ t rd, (lowerName nm, t, rd) ∈ S ↔ V'.Has t rd) : Stands z S z' := by
  refine ⟨hr.ok, hr.name, hr.dclass, Set.ext fun ⟨o, t, rd⟩ => ?_⟩
  rw [hr.mem_records_iff h, hs.holds_iff hok]
  by_cases ho : o = lowerName nm
  · rw [ho, hnm]
    simp
  · rw [hother o t rd ho]
    simp [ho]

theorem ZoneOk.azInsertRr_rewrites (h : ZoneOk z) (hc : rr.rrClass = z.dclass)
    (hadd : azDomainAddRr (z.rrsetsAt rr.dname) rr.type ⟨rr.ttl, rr.rdata⟩ = (duplicate, l))
    (hne : l ≠ []) (hV : ∃ V, Shows l V ∧ V.Ok) :
    ∃ z', azInsertRr z rr = some (duplicate, z') ∧ Rewrites z rr.dname l z' := by
  rw [azInsertRr, if_neg (not_not_intro hc)]
  cases hf : azFindName z rr.dname with
  | some n =>
    rw [rrsetsAt_some hf] at hadd
    refine ⟨_, ?_, h.setRrsets hf hne hV⟩
    dsimp only
    rw [hadd]
  | none =>
    rw [rrsetsAt_none hf] at hadd
    refine ⟨_, ?_, h.create hf hne hV⟩
    rw [hadd]

theorem Shows.ne_nil (h : Shows l V) (hok : V.Ok) (hhas : V.Has t rd) : l ≠ [] := by
  rintro rfl
  exact not_holds_nil ((h.holds_iff hok).2 hhas)

theorem azInsertRr_stands (h : ZoneOk z) (hc : rr.rrClass = z.dclass) :
    ∃ duplicate z', azInsertRr z rr = some (duplicate, z') ∧
      (duplicate = true ∧ (rr.record ∈ z.records ∨ HiddenIn z.records rr.record) ∧
          Stands z z.records z' ∨
        duplicate = false ∧ rr.record ∉ z.records ∧ ¬ HiddenIn z.records rr.record ∧
          Stands z (insert rr.record z.records) z') := by
  obtain ⟨V, hshow, hok, hV⟩ := h.view_at
  have hhas : V.Has rr.type rr.rdata ↔ rr.record ∈ z.records := hV _ _
  have hhid : V.Hidden rr.type rr.rdata ↔ HiddenIn z.records rr.record := by
    simp only [View.Hidden, hV]
    rfl
  have hadd := azDomainAddRr_added hshow hok rr.type ⟨rr.ttl, rr.rdata⟩
  generalize hr : azDomainAddRr (z.rrsetsAt rr.dname) rr.type ⟨rr.ttl, rr.rdata⟩ = r at hadd
  cases hadd with
  | duplicate hdup =>
    have hne : z.rrsetsAt rr.dname ≠ [] := by
      rcases hdup with hd | ⟨-, ⟨-, ⟨x, hx⟩, -⟩ | ⟨-, -, hx⟩⟩
      · exact hshow.ne_nil hok hd
      · exact hshow.ne_nil hok hx
      · exact hshow.ne_nil hok hx
    obtain ⟨z', hz', hrw⟩ := h.azInsertRr_rewrites hc hr hne ⟨V, hshow, hok⟩
    rw [hhas, hhid] at hdup
    exact ⟨true, z', hz', .inl ⟨rfl, hdup, hrw.stands_same h rfl⟩⟩
  | added hnot hnh hshow' hok' hhas' =>
    obtain ⟨z', hz', hrw⟩ := h.azInsertRr_rewrites hc hr
      (hshow'.ne_nil hok' ((hhas' _ _).2 (.inr ⟨rfl, rfl⟩))) ⟨_, hshow', hok'⟩
    rw [hhas] at hnot
    rw [hhid] at hnh
    refine ⟨false, z', hz', .inr ⟨rfl, hnot, hnh, hrw.stands h hshow' hok' ?_ ?_⟩⟩
    · intro o t rd ho
      exact or_iff_right fun he => ho (congrArg Prod.fst he)
    · intro t rd
      rw [Set.mem_insert_iff, hhas', hV, or_comm, Rr.record, Prod.mk.injEq, Prod.mk.injEq]
      simp

theorem azRemoveRr_stands (h : ZoneOk z) (hplain : PlainIn z.records) (hc : rr.rrClass = z.dclass) :
    ∃ nonexist z', azRemoveRr z rr = some (nonexist, z') ∧
      (nonexist = true ∧ rr.record ∉ z.records ∧ Stands z z.records z' ∨
        nonexist = false ∧ rr.record ∈ z.records ∧ Stands z (z.records \ {rr.record}) z') := by
  obtain ⟨V, hshow, hok, hV⟩ := h.view_at
  have hhas : V.Has rr.type rr.rdata ↔ rr.record ∈ z.records := hV _ _
  have hp : V.Plain := fun rd hrd => hplain _ rd ((hV _ _).1 hrd)
  have hrem := azDomainRemoveRr_removed hshow hok hp rr.type rr.rdata
  rw [azRemoveRr, if_neg (not_not_intro hc)]
  cases hf : azFindName z rr.dname with
  | none =>
    refine ⟨true, z, rfl, .inl ⟨rfl, ?_, h, rfl, rfl, rfl⟩⟩
    rw [← hhas]
    exact fun hh => hshow.ne_nil hok hh (rrsetsAt_none hf)
  | some n =>
    have hat := rrsetsAt_some hf
    have hset : ∀ l : List AuthRrset, (∃ V, Shows l V ∧ V.Ok) → Rewrites z rr.dname l
        (if l = [] then
          { z with data := z.data.filter fun n => dnameCanonicalCompare rr.dname n.name ≠ .eq }
        else z.setRrsets rr.dname l) := by
      intro l hl
      split
      next hnil => exact hnil ▸ h.filter rr.dname
      next hne => exact h.setRrsets hf hne hl
    rw [hat] at hrem hshow
    dsimp only
    generalize azDomainRemoveRr n.rrsets rr.type rr.rdata = r at hrem
    cases hrem with
    | nonexist hnot =>
      have hrw := hset n.rrsets ⟨V, hshow, hok⟩
      rw [hhas] at hnot
      exact ⟨true, _, rfl, .inl ⟨rfl, hnot, hrw.stands_same h hat.symm⟩⟩
    | @removed l' V' hh hshow' hok' hhas' =>
      have hrw := hset l' ⟨V', hshow', hok'⟩
      refine ⟨false, _, rfl, .inr ⟨rfl, hhas.1 hh, hrw.stands h hshow' hok' ?_ ?_⟩⟩
      · intro o t rd ho
        exact and_iff_left fun he => ho (congrArg Prod.fst he)
      · intro t rd
        rw [Set.mem_sdiff, Set.mem_singleton_iff, hhas', hV, Rr.record, Prod.mk.injEq, Prod.mk.injEq]
        simp

end zone

inductive Call
  | insert (rr : Rr)
  | remove (rr : Rr)
  deriving DecidableEq

/-- What a call reports (a duplicate, or a record that does not exist), nothing when it is
refused. -/
def Call.run (z : AuthZone) (call : Call) : Option Bool × AuthZone :=
  match (match call with | .insert rr => azInsertRr z rr | .remove rr => azRemoveRr z rr) with
  | some (flag, z') => (some flag, z')
  | none => (none, z)

def runCalls (z : AuthZone) : List Call → List (Option Bool) × AuthZone
  | [] => ([], z)
  | call :: calls =>
    let r := call.run z
    let rest := runCalls r.2 calls
    (r.1 :: rest.1, rest.2)

open Classical in
/-- A call as an insertion into a set of records, or a deletion. -/
noncomputable def Call.onSet (dclass : UInt16) (S : Set Record) : Call → Option Bool × Set Record
  | .insert rr =>
    if rr.rrClass ≠ dclass then (none, S) else (some (rr.record ∈ S), Insert.insert rr.record S)
  | .remove rr =>
    if rr.rrClass ≠ dclass then (none, S) else (some (rr.record ∉ S), S \ {rr.record})

noncomputable def callsOnSet (dclass : UInt16) (S : Set Record) :
    List Call → List (Option Bool) × Set Record
  | [] => ([], S)
  | call :: calls =>
    let r := call.onSet dclass S
    let rest := callsOnSet dclass r.2 calls
    (r.1 :: rest.1, rest.2)

/-- No signature covers RRSIG, and no data record has the rdata of a signature over its RRset. -/
structure Fine (S : Set Record) : Prop where
  plain : PlainIn S
  distinct : ∀ o t rd, t ≠ typeRRSIG → (o, t, rd) ∈ S → (o, typeRRSIG, rd) ∈ S →
    rrsigRdataGetTypeCovered rd ≠ t

def FineCalls (dclass : UInt16) (S : Set Record) : List Call → Prop
  | [] => Fine S
  | call :: calls => Fine S ∧ FineCalls dclass (call.onSet dclass S).2 calls

/-- Every signature is with the RRset that it covers, or in the RRSIG RRset if there is none. -/
structure Placed (rrsets : List AuthRrset) : Prop where
  with_type : ∀ s ∈ rrsets, ∀ rd ∈ s.data.sigRdatas,
    s.type ≠ typeRRSIG ∧ rrsigRdataGetTypeCovered rd = s.type
  has_data : ∀ s ∈ rrsets, s.type ≠ typeRRSIG → s.data.dataRdatas ≠ []
  alone : ∀ s ∈ rrsets, s.type = typeRRSIG → ∀ rd ∈ s.data.dataRdatas, ∀ s' ∈ rrsets,
    s'.type ≠ rrsigRdataGetTypeCovered rd

theorem not_hiddenIn (h : Fine (insert x S)) : ¬ HiddenIn S x := by
  rintro ⟨-, ⟨ht, -, hc, hm⟩ | ⟨ht, hc, hm⟩⟩
  · exact h.distinct x.1 x.2.1 x.2.2 ht (Set.mem_insert _ _) (Set.mem_insert_of_mem _ hm) hc
  · exact h.distinct x.1 _ x.2.2 hc (Set.mem_insert_of_mem _ hm) (ht ▸ Set.mem_insert _ _) rfl

open Classical in
theorem Call.run_onSet (h : ZoneOk z) (call : Call) (hf : Fine z.records)
    (hf' : Fine (call.onSet z.dclass z.records).2) :
    (call.run z).1 = (call.onSet z.dclass z.records).1 ∧
    Stands z (call.onSet z.dclass z.records).2 (call.run z).2 := by
  have hsame : Stands z z.records z := ⟨h, rfl, rfl, rfl⟩
  cases call with
  | insert rr =>
    by_cases hc : rr.rrClass = z.dclass
    · have hset : Call.onSet z.dclass z.records (.insert rr) = (_, _) := if_neg (not_not_intro hc)
      rw [hset] at hf' ⊢
      obtain ⟨duplicate, z', hz', ⟨rfl, hdup, hs⟩ | ⟨rfl, hnot, -, hs⟩⟩ := azInsertRr_stands h hc
      · have hmem := hdup.resolve_right (not_hiddenIn hf')
        rw [Call.run]
        rw [hz', decide_eq_true hmem, Set.insert_eq_of_mem hmem]
        exact ⟨rfl, hs⟩
      · rw [Call.run]
        rw [hz', decide_eq_false hnot]
        exact ⟨rfl, hs⟩
    · simp only [Call.onSet, Call.run, azInsertRr, if_pos hc]
      exact ⟨trivial, hsame⟩
  | remove rr =>
    by_cases hc : rr.rrClass = z.dclass
    · have hset : Call.onSet z.dclass z.records (.remove rr) = (_, _) := if_neg (not_not_intro hc)
      rw [hset, Call.run]
      obtain ⟨nonexist, z', hz', ⟨rfl, hnot, hs⟩ | ⟨rfl, hmem, hs⟩⟩ :=
        azRemoveRr_stands h hf.plain hc
      · rw [hz', decide_eq_true hnot, Set.sdiff_singleton_eq_self hnot]
        exact ⟨rfl, hs⟩
      · rw [hz', decide_eq_false (not_not_intro hmem)]
        exact ⟨rfl, hs⟩
    · simp only [Call.onSet, Call.run, azRemoveRr, if_pos hc]
      exact ⟨trivial, hsame⟩

theorem ZoneOk.placed (h : ZoneOk z) (hp : PlainIn z.records) (hn : n ∈ z.data) :
    Placed n.rrsets := by
  obtain ⟨V, hshow, hok⟩ := h.nodes n hn
  have hmem : ∀ s ∈ n.rrsets, ∃ a b, V s.type = some (a, b) ∧ Splits s.data a b := fun s hs =>
    (hshow.of_some (lookupBy_of_mem hshow.nodup hs)).2
  have hplain : ∀ rd, Holds n.rrsets typeRRSIG rd → rrsigRdataGetTypeCovered rd ≠ typeRRSIG :=
    fun rd hh => hp (lowerName n.name) rd ⟨n, hn, rfl, hh⟩
  refine ⟨fun s hs rd hrd => ?_, fun s hs ht => ?_, fun s hs ht rd hrd s' hs' he => ?_⟩
  · obtain ⟨a, b, hV, hd⟩ := hmem s hs
    have hc := (hok.good _ a b hV).covers rd (hd.sigRdatas ▸ hrd)
    exact ⟨hc ▸ hplain rd (.inr ⟨rfl, s, hs, hrd⟩), hc⟩
  · obtain ⟨a, b, hV, hd⟩ := hmem s hs
    rw [hd.dataRdatas]
    exact (hok.good _ a b hV).data_ne ht
  · obtain ⟨a, b, hV, hd⟩ := hmem s hs
    obtain ⟨a', b', hV', -⟩ := hmem s' hs'
    rw [ht] at hV
    rcases hok.placed a b hV rd (hd.dataRdatas ▸ hrd) with hc | hnone
    · exact hplain rd (.inl ⟨s, hs, ht, hrd⟩) hc
    · rw [← he, hV'] at hnone
      cases hnone

theorem FineCalls.head {dclass : UInt16} {S : Set Record} {calls : List Call}
    (h : FineCalls dclass S calls) : Fine S := by
  cases calls with
  | nil => exact h
  | cons => exact h.1

theorem runCalls_onSet (hz : ZoneOk z) (hf : FineCalls z.dclass z.records calls) :
    (runCalls z calls).1 = (callsOnSet z.dclass z.records calls).1 ∧
    Stands z (callsOnSet z.dclass z.records calls).2 (runCalls z calls).2 := by
  induction calls generalizing z with
  | nil => exact ⟨rfl, hz, rfl, rfl, rfl⟩
  | cons call calls ih =>
    obtain ⟨hfine, hrest⟩ := hf
    obtain ⟨hflag, hs⟩ := call.run_onSet hz hfine hrest.head
    obtain ⟨hflags, hstands⟩ := ih hs.ok (by
      rw [hs.dclass, hs.records]
      exact hrest)
    rw [hs.dclass, hs.records] at hflags hstands
    constructor
    · rw [runCalls, callsOnSet]
      rw [hflag, hflags]
    · exact ⟨hstands.ok, hstands.name.trans hs.name, hstands.dclass.trans hs.dclass,
        hstands.records⟩

theorem FineCalls.of_append {before after : List Call} (h : FineCalls dclass S (before ++ after)) :
    FineCalls dclass S before := by
  induction before generalizing S with
  | nil => exact h.head
  | cons call before ih => exact ⟨h.1, ih h.2⟩

theorem FineCalls.last (h : FineCalls dclass S calls) : Fine (callsOnSet dclass S calls).2 := by
  induction calls generalizing S with
  | nil => exact h
  | cons call calls ih => exact ih h.2

/-- A sequence of calls does to the records of a zone what it does to a set, with the same
reports. -/
theorem runCalls_refines_set (z : AuthZone) (calls : List Call) (hz : ZoneOk z)
    (hf : FineCalls z.dclass z.records calls) :
    (runCalls z calls).1 = (callsOnSet z.dclass z.records calls).1 ∧
    (runCalls z calls).2.records = (callsOnSet z.dclass z.records calls).2 ∧
    ∀ before, before <+: calls → ∀ n ∈ (runCalls z before).2.data, Placed n.rrsets := by
  obtain ⟨hflags, hs⟩ := runCalls_onSet hz hf
  refine ⟨hflags, hs.records, ?_⟩
  rintro before ⟨after, rfl⟩ n hn
  have hbefore := hf.of_append
  obtain ⟨-, hs⟩ := runCalls_onSet hz hbefore
  apply hs.ok.placed _ hn
  rw [hs.records]
  exact hbefore.last.plain

def sampleA : Rr := ⟨[[97]], 1, 1, 3600, [0, 4, 1, 2, 3, 4]⟩

def sampleRrsig : Rr := ⟨[[97]], typeRRSIG, 1, 3600, [0, 2, 0, 1]⟩

def emptyZone : AuthZone := ⟨[], 1, []⟩

theorem emptyZone_ok : ZoneOk emptyZone := ⟨.nil, nofun, nofun⟩

theorem records_emptyZone : emptyZone.records = ∅ :=
  Set.eq_empty_of_forall_notMem fun _ ⟨_, hn, _⟩ => absurd hn not_mem_nil

theorem fine_samples (hS : ∀ x ∈ S, x = sampleA.record ∨ x = sampleRrsig.record) : Fine S := by
  constructor
  · intro o rd hm
    rcases hS _ hm with he | he
    · have ht : typeRRSIG = 1 := congrArg (·.2.1) he
      exact absurd ht (by decide)
    · rw [show rd = [0, 2, 0, 1] from congrArg (·.2.2) he]
      decide
  · intro o t rd ht hm hm'
    rcases hS _ hm with he | he
    · rcases hS _ hm' with he' | he'
      · have ht : typeRRSIG = 1 := congrArg (·.2.1) he'
        exact absurd ht (by decide)
      · have hrd : rd = [0, 4, 1, 2, 3, 4] := congrArg (·.2.2) he
        have hrd' : rd = [0, 2, 0, 1] := congrArg (·.2.2) he'
        exact absurd (hrd.symm.trans hrd') (by decide)
    · exact absurd (congrArg (·.2.1) he) ht

theorem runCalls_refines_set_signed :
    (runCalls emptyZone [.insert sampleRrsig, .insert sampleA]).2.records =
      insert sampleA.record (insert sampleRrsig.record ∅) := by
  have hset : ∀ S rr, rr.rrClass = emptyZone.dclass →
      (Call.onSet emptyZone.dclass S (.insert rr)).2 = insert rr.record S := by
    intro S rr hc
    rw [Call.onSet, if_neg (not_not_intro hc)]
  have hfine : FineCalls emptyZone.dclass ∅ [.insert sampleRrsig, .insert sampleA] := by
    rw [FineCalls, FineCalls, FineCalls, hset _ _ rfl, hset _ _ rfl]
    refine ⟨fine_samples (by simp), fine_samples (by simp), fine_samples (by simp)⟩
  have h := runCalls_refines_set emptyZone [.insert sampleRrsig, .insert sampleA] emptyZone_ok
    (records_emptyZone ▸ hfine)
  rw [h.2.1, records_emptyZone, callsOnSet, callsOnSet, callsOnSet]
  rw [hset _ _ rfl, hset _ _ rfl]

/-- How far a call got: it is in its loop, it has read through a NULL pointer, or it is over. -/
inductive Walk (α : Type) where
  | running
  | nullRead
  | ended (a : α)
  deriving DecidableEq

/-- `rbtree_next` of the node at an index, or `rbtree_first` without one. -/
def AuthZone.nextNode (z : AuthZone) : Option Nat → Option AuthData
  | none => z.data.head?
  | some i => z.data[i + 1]?

/-- The loop of `az_empty_nonterminal`. It goes on from `node` each time, and not from `next`. -/
def nextNonempty (z : AuthZone) (node : Option Nat) : Nat → Option AuthData → Walk (Option AuthData)
  | 0, _ => .running
  | _ + 1, none => .ended none
  | fuel + 1, some next =>
    if next.rrsets ≠ [] then .ended (some next)
    else if node.isNone then .nullRead
    else nextNonempty z node fuel (z.nextNode node)

/-- `az_empty_nonterminal`; `node` is the index of a node of the tree. -/
def azEmptyNonterminal (z : AuthZone) (qname : Name) (node : Option Nat) (fuel : Nat) : Walk Bool :=
  match nextNonempty z node fuel (z.nextNode node) with
  | .running => .running
  | .nullRead => .nullRead
  | .ended none => .ended false
  | .ended (some next) => .ended (dnameStrictSubdomainC next.name qname)

/-- The query name is between two parts of the tree, and `node` is the last of the first part. -/
structure AuthZone.Around (z : AuthZone) (qname : Name) (node : Option Nat)
    (before behind : List AuthData) : Prop where
  data : z.data = before ++ behind
  sorted : z.Sorted
  node : node = if before = [] then none else some (before.length - 1)
  lt : ∀ n ∈ before, dnameCanonicalCompare n.name qname = .lt
  gt : ∀ n ∈ behind, dnameCanonicalCompare n.name qname = .gt

variable {z : AuthZone} {qname : Name} {node : Option Nat}

theorem strictSub_gt (h : dnameStrictSubdomainC d qname = true) :
    dnameCanonicalCompare d qname = .gt := by
  obtain ⟨hp, hl⟩ := (dnameStrictSubdomainC_iff d qname).1 h
  rw [dnameCanonicalCompare_spec]
  exact OrientedCmp.gt_of_lt (prefix_lt hp (by simpa using hl))

theorem strictSub_of_between (h : dnameStrictSubdomainC d qname = true)
    (hlt : dnameCanonicalCompare n qname = .gt) (hle : (dnameCanonicalCompare n d).isLE) :
    dnameStrictSubdomainC n qname = true := by
  rw [dnameCanonicalCompare_spec] at hlt hle
  have hq := OrientedCmp.lt_of_gt hlt
  have hp := prefix_of_between (prefix_refl _) ((dnameStrictSubdomainC_iff d qname).1 h).1
    (Ordering.isLE_of_eq_lt hq) hle
  apply (dnameStrictSubdomainC_iff n qname).2
  refine ⟨hp, Nat.lt_of_le_of_ne (by simpa using hp.length_le) fun hlen => ?_⟩
  rw [hp.eq_of_length (by simpa using hlen)] at hq
  cases hq.symm.trans ReflCmp.compare_self

theorem AuthZone.Around.next (h : z.Around qname node before behind) :
    z.nextNode node = behind.head? := by
  rw [h.node]
  split
  case isTrue hnil =>
    rw [AuthZone.nextNode, h.data, hnil]
    rfl
  case isFalse hne =>
    have hpos := length_pos_iff.2 hne
    rw [AuthZone.nextNode, h.data, Nat.sub_add_cancel hpos, getElem?_append_right le_rfl,
      Nat.sub_self, head?_eq_getElem?]

theorem AuthZone.Around.below (h : z.Around qname node before behind) (hn : n ∈ z.data)
    (hsub : dnameStrictSubdomainC n.name qname = true) : n ∈ behind := by
  rw [h.data] at hn
  rcases mem_append.1 hn with hn | hn
  · cases (strictSub_gt hsub).symm.trans (h.lt n hn)
  · exact hn

theorem nextNonempty_stays (hn : z.nextNode node = some n) (hempty : n.rrsets = []) (fuel : Nat)
    (a : Option AuthData) : nextNonempty z node fuel (some n) ≠ .ended a := by
  induction fuel with
  | zero => nofun
  | succ fuel ih =>
    rw [nextNonempty, if_neg (not_not_intro hempty)]
    split
    · nofun
    · rw [hn]
      exact ih

/-- The answer is right just if the name behind the query name, if any, has an RRset. -/
theorem azEmptyNonterminal_right_iff (z : AuthZone) (qname : Name) (node : Option Nat)
    (before behind : List AuthData) (h : z.Around qname node before behind) :
    (∃ fuel b, azEmptyNonterminal z qname node fuel = .ended b ∧
      (b = true ↔ ∃ n ∈ z.data, n.rrsets ≠ [] ∧ dnameStrictSubdomainC n.name qname = true)) ↔
    ∀ n ∈ behind.head?, n.rrsets ≠ [] := by
  have hnext := h.next
  constructor
  · rintro ⟨fuel, b, hrun, -⟩ n hn hempty
    have hstays := nextNonempty_stays (hnext.trans hn) hempty fuel
    rw [azEmptyNonterminal, hnext.trans hn] at hrun
    split at hrun
    · cases hrun
    · cases hrun
    · exact hstays _ ‹_›
    · exact hstays _ ‹_›
  · intro hfull
    cases behind with
    | nil =>
      refine ⟨1, false, by rw [azEmptyNonterminal, hnext]; rfl, nofun, ?_⟩
      rintro ⟨n, hn, -, hsub⟩
      cases h.below hn hsub
    | cons next behind =>
      have hne := hfull next rfl
      refine ⟨1, _, by rw [azEmptyNonterminal, hnext, head?_cons, nextNonempty, if_pos hne], ?_⟩
      constructor
      · intro hsub
        exact ⟨next, h.data ▸ mem_append_right _ mem_cons_self, hne, hsub⟩
      · rintro ⟨n, hn, -, hsub⟩
        apply strictSub_of_between hsub (h.gt next mem_cons_self)
        rcases mem_cons.1 (h.below hn hsub) with rfl | hmem
        · rw [dnameCanonicalCompare_spec]
          exact Ordering.isLE_of_eq_eq ReflCmp.compare_self
        · have hsorted := h.sorted
          rw [AuthZone.Sorted, h.data, pairwise_append] at hsorted
          exact Ordering.isLE_of_eq_lt ((pairwise_cons.1 hsorted.2.1).1 n hmem)

def sampleRrset : AuthRrset := ⟨1, ⟨3600, 1, 0, [⟨3600, [0, 4, 10, 0, 0, 1]⟩]⟩⟩

/-- The names a., c.b.a. and d.c.b.a., where c.b.a. may be without RRsets. -/
def sampleZone (rrsets : List AuthRrset) : AuthZone :=
  ⟨[[97]], 1, [⟨[[97]], [sampleRrset]⟩, ⟨[[99], [98], [97]], rrsets⟩,
    ⟨[[100], [99], [98], [97]], [sampleRrset]⟩]⟩

theorem sampleZone_around : (sampleZone rrsets).Around [[98], [97]]
    (some 0) ((sampleZone rrsets).data.take 1) ((sampleZone rrsets).data.drop 1) where
  data := rfl
  sorted := by
    simp only [AuthZone.Sorted, sampleZone, authDataCmp, pairwise_cons, mem_cons, forall_eq_or_imp]
    simp +decide
  node := rfl
  lt := by simp +decide [sampleZone]
  gt := by simp +decide [sampleZone]

theorem azEmptyNonterminal_right_iff_below :
    ∃ fuel b, azEmptyNonterminal (sampleZone [sampleRrset]) [[98], [97]] (some 0) fuel = .ended b ∧
      (b = true ↔ ∃ n ∈ (sampleZone [sampleRrset]).data, n.rrsets ≠ [] ∧
        dnameStrictSubdomainC n.name [[98], [97]] = true) :=
  (azEmptyNonterminal_right_iff (sampleZone [sampleRrset]) [[98], [97]] (some 0) _ _
    sampleZone_around).2 (by decide)

theorem azEmptyNonterminal_never_ends :
    (sampleZone []).Around [[98], [97]] (some 0) ((sampleZone []).data.take 1)
      ((sampleZone []).data.drop 1) ∧
    ∀ fuel, azEmptyNonterminal (sampleZone []) [[98], [97]] (some 0) fuel = .running := by
  refine ⟨sampleZone_around, fun fuel => ?_⟩
  have hloop : ∀ fuel, nextNonempty (sampleZone []) (some 0) fuel
      ((sampleZone []).nextNode (some 0)) = .running := by
    intro fuel
    induction fuel with
    | zero => rfl
    | succ fuel ih => exact ih
  rw [azEmptyNonterminal, hloop]

end CwdGate.Authzone
