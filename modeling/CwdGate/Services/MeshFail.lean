import CwdGate.Services.Mesh

namespace CwdGate.Services
open Lib List

section

variable {C : Type} {m m' : MeshArea C} {s : Nat} {e : Int}

variable {b : Nat} {l : List Nat}

/-- The mesh in the loop of `mesh_detach_subs`, as if the subs that are done were off the list. -/
def withSubs (m : MeshArea C) (s : Nat) (l : List Nat) : MeshArea C :=
  m.modify s fun x => { x with subSet := l }

theorem withSubs_st :
    (withSubs m s l).st t = { m.st t with subSet := if t = s then l else (m.st t).subSet } := by
  rw [withSubs, modify_st]
  split <;> rfl

theorem withSubs_self : withSubs m s (m.st s).subSet = m := by
  rw [withSubs, MeshArea.modify, Function.update_eq_self]

structure Detached (m m' : MeshArea C) : Prop where
  all : m'.all = m.all
  key : ∀ t, (m'.st t).key = (m.st t).key
  replyList : ∀ t, (m'.st t).replyList = (m.st t).replyList
  cbList : ∀ t, (m'.st t).cbList = (m.st t).cbList
  repliesSent : ∀ t, (m'.st t).repliesSent = (m.st t).repliesSent

theorem Detached.refl (m : MeshArea C) : Detached m m :=
  ⟨rfl, fun _ => rfl, fun _ => rfl, fun _ => rfl, fun _ => rfl⟩

theorem Detached.trans (h : Detached m₁ m₂) (h' : Detached m₂ m₃) : Detached m₁ m₃ where
  all := h'.all.trans h.all
  key t := (h'.key t).trans (h.key t)
  replyList t := (h'.replyList t).trans (h.replyList t)
  cbList t := (h'.cbList t).trans (h.cbList t)
  repliesSent t := (h'.repliesSent t).trans (h.repliesSent t)

/-- The entries of a state that `mesh_state_cleanup` does not account for. -/
def keptReplies (x : MeshState C) : Nat :=
  if x.repliesSent then x.replyList.length + x.cbList.length else 0

theorem Counts.remove (h : Counts m e) (hs : s ∈ m.all) (hall : m'.all = m.all.erase s)
    (hst : ∀ t, SameCounts (m.st t) (m'.st t))
    (haddrs : m'.numReplyAddrs = m.numReplyAddrs - addrsOf (m.st s) + keptReplies (m.st s))
    (hreply : m'.numReplyStates = m.numReplyStates - replyOf (m.st s))
    (hdetached : m'.numDetachedStates = m.numDetachedStates - detachedOf (m.st s))
    (hforever : m'.forever = m.forever.erase s) (hmax : m'.maxForeverStates = m.maxForeverStates)
    (hnum : m'.numForeverStates = m.numForeverStates - (if s ∈ m.forever then 1 else 0)) :
    Counts m' (e + keptReplies (m.st s)) := by
  have hlen : ((m.forever.erase s).length : Int) =
      m.forever.length - (if s ∈ m.forever then 1 else 0) := by
    split
    case isTrue hmem =>
      have hpos := length_pos_of_mem hmem
      rw [length_erase_of_mem hmem]
      omega
    case isFalse hmem => rw [erase_of_not_mem hmem, Int.sub_zero]
  constructor
  case addrs =>
    rw [haddrs, hall, total_congr fun t _ => (hst t).weights.1, total_erase hs, h.addrs]
    omega
  case states =>
    rw [hreply, hall, total_congr fun t _ => (hst t).weights.2.1, total_erase hs, h.states]
  case detached =>
    rw [hdetached, hall, total_congr fun t _ => (hst t).weights.2.2, total_erase hs, h.detached]
  case forever => rw [hnum, hforever, hlen, h.forever]
  case foreverMax =>
    have hle := h.foreverMax
    rw [hnum, hmax]
    split <;> omega

theorem meshStateCleanup_eq : meshStateCleanup m x = { m with
      numReplyAddrs := m.numReplyAddrs - addrsOf x + keptReplies x } := by
  rw [meshStateCleanup, addrsOf, keptReplies]
  split
  · rw [Int.natCast_add, Int.sub_add_cancel]
  · rw [Int.natCast_zero, Int.add_zero, Int.sub_sub]

theorem jostleVictim_select (hv : jostleVictim m now = some s) :
    s ∈ m.jostle ∧ (m.st s).listSelect = .jostleList := by
  rw [jostleVictim] at hv
  split at hv
  · cases hv
  split at hv
  · cases hv
  case h_2 t rest hjostle =>
    split at hv
    · cases hv
    split at hv
    case isTrue hage =>
      cases hv
      rw [hjostle]
      exact ⟨mem_cons_self, hage.1⟩
    case isFalse => cases hv

/-- The entries that are not accounted for when a state is jostled out. -/
def jostledReplies (m : MeshArea C) (now : Int) : Nat :=
  match jostleVictim m now with
  | none => 0
  | some s => keptReplies (m.st s)

variable [DecidableEq C]

theorem detachSub_eq :
    detachSub s m ref =
      { m.modify ref fun x => { x with superSet := m.deleteRef x.superSet s } with
        numDetachedStates := m.numDetachedStates +
          detachedOf { m.st ref with superSet := m.deleteRef (m.st ref).superSet s } } := by
  rw [detachSub, detachedOf]
  simp only [modify_st_self]
  split
  · rfl
  · rw [Int.add_zero]
    rfl

theorem detachSub_st :
    (detachSub s m ref).st t = { m.st t with
      superSet := if t = ref then m.deleteRef (m.st t).superSet s else (m.st t).superSet } := by
  rw [detachSub_eq]
  simp only [modify_st]
  split <;> rfl

theorem detachStep_st : (withSubs (detachSub s m b) s l).st t = { (withSubs m s l).st t with
      superSet := if t = b then m.deleteRef (m.st t).superSet s else (m.st t).superSet } := by
  rw [withSubs_st, withSubs_st, detachSub_st]

theorem Wf.detachStep (h : Wf (withSubs m s (b :: l))) (hs : s ∈ m.all) :
    Wf (withSubs (detachSub s m b) s l) := by
  have hkey : ∀ t, ((withSubs m s (b :: l)).st t).key = (m.st t).key := by
    intro t
    rw [withSubs_st]
  have hdelete : ∀ t ∈ m.all, ∀ a,
      a ∈ m.deleteRef (m.st t).superSet s ↔ a ∈ (m.st t).superSet ∧ a ≠ s := by
    intro t ht a
    have hsupers := h.superSet_subset ht
    rw [withSubs_st] at hsupers
    rw [← deleteRef_congr hkey]
    exact h.mem_deleteRef hsupers hs
  have hn := h.subsNodup s hs
  rw [withSubs_st] at hn
  simp only [if_true, nodup_cons] at hn
  refine h.relink (R := fun a t => Linked (withSubs m s (b :: l)) a t ∧ ¬ (a = s ∧ t = b))
    ?_ ?_ ?_ ?_ ?_ ?_ ?_ ?_
  · rw [detachSub_eq]
    rfl
  · rw [detachSub_eq]
    rfl
  · intro t
    rw [detachStep_st, withSubs_st, withSubs_st]
  · intro a t hR
    exact ⟨hR.1.1, hR.1.2.1⟩
  · intro t ht a
    rw [detachStep_st, ← h.mem_superSet ht, withSubs_st, withSubs_st]
    by_cases heq : t = b
    · subst heq
      simpa using hdelete t ht a
    · simp [heq]
  · intro a ha t
    rw [detachStep_st, ← h.mem_subSet ha, withSubs_st, withSubs_st]
    by_cases heq : a = s
    · grind
    · simp [heq]
  · intro a ha
    have hna := h.subsNodup a ha
    rw [withSubs_st] at hna
    rw [detachStep_st, withSubs_st]
    by_cases heq : a = s
    · simpa [heq] using hn.2
    · simpa [heq] using hna
  · rw [detachSub_eq]
    refine h.toListsOk.congr ⟨rfl, rfl, rfl, rfl, rfl, rfl⟩ ?_
    intro t
    rw [← detachSub_eq, detachStep_st, withSubs_st, withSubs_st]

theorem Inv.detachStep (h : Inv (withSubs m s (b :: l)) e) (hs : s ∈ m.all) :
    Inv (withSubs (detachSub s m b) s l) e where
  wf := h.wf.detachStep hs
  counts := by
    have hmem : b ∈ ((withSubs m s (b :: l)).st s).subSet := by
      rw [withSubs_st]
      simp
    obtain ⟨hb, hsuper⟩ := h.wf.subs s hs b hmem
    have hzero : detachedOf ((withSubs m s (b :: l)).st b) = 0 := by
      have hne := isEmpty_eq_false_iff.2 (ne_nil_of_mem hsuper)
      simp [detachedOf, MeshState.detached, hne]
    have hcounts : Counts { (withSubs m s (b :: l)).modify b
          fun x => { x with superSet := m.deleteRef x.superSet s } with
        numDetachedStates := m.numDetachedStates +
          detachedOf { m.st b with superSet := m.deleteRef (m.st b).superSet s } } (e + 0) := by
      refine h.counts.update h.wf.nodup hb rfl ⟨rfl, rfl, rfl, rfl, rfl, rfl⟩ ?_ ?_ ?_
      · rw [Int.add_zero]
        exact (Int.sub_add_cancel _ _).symm
      · exact (Int.sub_add_cancel _ _).symm
      · rw [hzero, Int.sub_zero, withSubs_st]
        rfl
    rw [Int.add_zero] at hcounts
    have hsame : ∀ t, SameCounts
        (((withSubs m s (b :: l)).modify b
          fun x => { x with superSet := m.deleteRef x.superSet s }).st t)
        ((withSubs (detachSub s m b) s l).st t) := by
      intro t
      rw [detachStep_st, withSubs_st, modify_st, withSubs_st]
      split <;> exact ⟨rfl, rfl, rfl⟩
    rw [detachSub_eq] at hsame ⊢
    exact hcounts.congr rfl hsame ⟨rfl, rfl, rfl⟩ ⟨hcounts.forever, hcounts.foreverMax⟩

theorem detachSub_all : (detachSub s m ref).all = m.all := by
  rw [detachSub_eq]
  rfl

theorem meshDetachSubs_rule {P : MeshArea C → Prop}
    (hstep : ∀ m b l, P (withSubs m s (b :: l)) → s ∈ m.all → P (withSubs (detachSub s m b) s l))
    (h : P m) (hs : s ∈ m.all) : P (meshDetachSubs m s) := by
  have hloop : ∀ l m, P (withSubs m s l) → s ∈ m.all →
      P (withSubs (l.foldl (detachSub s) m) s []) := by
    intro l
    induction l with
    | nil => exact fun _ h _ => h
    | cons b l ih =>
      intro m h hs
      apply ih _ (hstep m b l h hs)
      rw [detachSub_all]
      exact hs
  apply hloop _ _ _ hs
  rwa [withSubs_self]

theorem Wf.subsDetached (h : Wf m) (hs : s ∈ m.all) : Wf (meshDetachSubs m s) :=
  meshDetachSubs_rule (fun _ _ _ h => h.detachStep) h hs

theorem Inv.subsDetached (h : Inv m e) (hs : s ∈ m.all) : Inv (meshDetachSubs m s) e :=
  meshDetachSubs_rule (P := (Inv · e)) (fun _ _ _ h => h.detachStep) h hs

theorem detachSub_detached : Detached m (detachSub s m ref) where
  all := detachSub_all
  key t := by rw [detachSub_st]
  replyList t := by rw [detachSub_st]
  cbList t := by rw [detachSub_st]
  repliesSent t := by rw [detachSub_st]

theorem detachLoop_detached (m : MeshArea C) : Detached m (l.foldl (detachSub s) m) := by
  induction l generalizing m with
  | nil => exact .refl m
  | cons b l ih => exact detachSub_detached.trans (ih _)

theorem meshDetachSubs_detached (m : MeshArea C) (s : Nat) : Detached m (meshDetachSubs m s) := by
  apply (detachLoop_detached m).trans
  refine ⟨rfl, ?_, ?_, ?_, ?_⟩
  · exact modify_congr MeshState.key (by intro _; rfl) s
  · exact modify_congr MeshState.replyList (by intro _; rfl) s
  · exact modify_congr MeshState.cbList (by intro _; rfl) s
  · exact modify_congr MeshState.repliesSent (by intro _; rfl) s

theorem meshDetachSubs_subSet :
    ((meshDetachSubs m s).st s).subSet = [] := by
  rw [meshDetachSubs, modify_st_self]

theorem leaveSupersLoop_eq (s : Nat) :
    l.foldl (fun m super => m.modify super fun x => { x with subSet := m.deleteRef x.subSet s }) m =
      { m with st := fun t => { m.st t with
        subSet := if t ∈ l then m.deleteRef (m.st t).subSet s else (m.st t).subSet } } := by
  induction l generalizing m with
  | nil => rfl
  | cons a l ih =>
    rw [foldl_cons, ih]
    have hdelete : ∀ tree, (m.modify a fun x => { x with subSet := m.deleteRef x.subSet s }).deleteRef
        tree s = m.deleteRef tree s :=
      fun tree => deleteRef_congr (modify_congr MeshState.key (by intro _; rfl) a)
    have hidem : ∀ tree, m.deleteRef (m.deleteRef tree s) s = m.deleteRef tree s := by
      intro tree
      rw [MeshArea.deleteRef, MeshArea.deleteRef, filter_filter]
      simp
    simp only [hdelete]
    congr 1
    funext t
    by_cases ht : t = a <;> simp [modify_st, ht, hidem]

theorem leaveSupers_eq :
    leaveSupers m s = { m with st := fun t => { m.st t with
      subSet := if t ∈ (m.st s).superSet then m.deleteRef (m.st t).subSet s
        else (m.st t).subSet } } :=
  leaveSupersLoop_eq s

theorem leaveList_eq (h : Wf m) (hs : s ∈ m.all) : leaveList m s = { m with
      forever := m.forever.erase s
      jostle := m.jostle.erase s
      numForeverStates := m.numForeverStates - (if s ∈ m.forever then 1 else 0) } := by
  have hforever := h.foreverMem s
  have hjostle := h.jostleMem s
  rw [leaveList]
  cases hlist : (m.st s).listSelect <;>
    simp [hlist, hs] at hforever hjostle <;> simp [erase_of_not_mem, hforever, hjostle]

theorem Wf.remove (h : Wf m) (hs : s ∈ m.all) (hsubs : (m.st s).subSet = [])
    (hall : m'.all = m.all.erase s) (hfresh : m'.fresh = m.fresh)
    (hforever : m'.forever = m.forever.erase s) (hjostle : m'.jostle = m.jostle.erase s)
    (hst : ∀ t, m'.st t = { m.st t with
      subSet := if t ∈ (m.st s).superSet then m.deleteRef (m.st t).subSet s
        else (m.st t).subSet }) : Wf m' := by
  have hmem : ∀ t, t ∈ m'.all ↔ t ≠ s ∧ t ∈ m.all := by
    intro t
    rw [hall, h.nodup.mem_erase_iff]
  have hsub : ∀ a ∈ m.all, ∀ b, b ∈ (m'.st a).subSet ↔ b ∈ (m.st a).subSet ∧ b ≠ s := by
    intro a ha b
    rw [hst]
    by_cases hsuper : a ∈ (m.st s).superSet
    · rw [if_pos hsuper]
      exact h.mem_deleteRef (h.subSet_subset ha) hs
    · rw [if_neg hsuper]
      refine (and_iff_left_of_imp ?_).symm
      rintro hb rfl
      exact hsuper (h.subs a ha b hb).2
  constructor
  case toListsOk =>
    constructor
    case forever =>
      rw [hforever]
      exact h.forever.erase s
    case foreverMem =>
      intro t
      rw [hforever, h.forever.mem_erase_iff, h.foreverMem, hmem, hst, and_assoc]
    case jostle =>
      rw [hjostle]
      exact h.jostle.erase s
    case jostleMem =>
      intro t
      rw [hjostle, h.jostle.mem_erase_iff, h.jostleMem, hmem, hst, and_assoc]
  case nodup =>
    rw [hall]
    exact h.nodup.erase s
  case fresh =>
    intro t ht
    rw [hfresh]
    exact h.fresh t ((hmem t).1 ht).2
  case unique =>
    intro t ht
    rw [hst]
    exact h.unique t ((hmem t).1 ht).2
  case keys =>
    intro a ha b hb
    rw [hst, hst]
    exact h.keys a ((hmem a).1 ha).2 b ((hmem b).1 hb).2
  case supers =>
    intro b hb a ha
    obtain ⟨hne, hb⟩ := (hmem b).1 hb
    rw [hst] at ha
    obtain ⟨ha', hlink⟩ := h.supers b hb a ha
    -- a super of another state has a sub, so it is not the one that leaves
    have hne' : a ≠ s := by
      rintro rfl
      rw [hsubs] at hlink
      cases hlink
    exact ⟨(hmem a).2 ⟨hne', ha'⟩, (hsub a ha' b).2 ⟨hlink, hne⟩⟩
  case subs =>
    intro a ha b hb
    have ha := ((hmem a).1 ha).2
    obtain ⟨hlink, hne⟩ := (hsub a ha b).1 hb
    obtain ⟨hb, hsuper⟩ := h.subs a ha b hlink
    rw [hst]
    exact ⟨(hmem b).2 ⟨hne, hb⟩, hsuper⟩
  case subsNodup =>
    intro a ha
    have hn := h.subsNodup a ((hmem a).1 ha).2
    rw [hst]
    split
    · exact hn.filter _
    · exact hn

/-- The rest of `mesh_state_delete`, once the subs are detached. -/
def removeState (m : MeshArea C) (s : Nat) : MeshArea C :=
  let m' := leaveSupers (uncount (leaveList m s) (m.st s)) s
  meshStateCleanup { m' with run := m'.deleteRef m'.run s, all := m'.deleteRef m'.all s } (m.st s)

theorem removeState_eq (h : Wf m) (hs : s ∈ m.all) : removeState m s = { m with
      run := m.deleteRef m.run s
      all := m.all.erase s
      st := fun t => { m.st t with
        subSet := if t ∈ (m.st s).superSet then m.deleteRef (m.st t).subSet s else (m.st t).subSet }
      numReplyAddrs := m.numReplyAddrs - addrsOf (m.st s) + keptReplies (m.st s)
      numReplyStates := m.numReplyStates - replyOf (m.st s)
      numDetachedStates := m.numDetachedStates - detachedOf (m.st s)
      forever := m.forever.erase s
      jostle := m.jostle.erase s
      numForeverStates := m.numForeverStates - (if s ∈ m.forever then 1 else 0) } := by
  have hall := h.deleteRef_eq_erase (fun _ ht => ht) hs h.nodup
  have hreply : (if (m.st s).hasReply then m.numReplyStates - 1 else m.numReplyStates) =
      m.numReplyStates - replyOf (m.st s) := by
    rw [replyOf]
    split <;> simp
  have hdetached : (if (m.st s).detached then m.numDetachedStates - 1 else m.numDetachedStates) =
      m.numDetachedStates - detachedOf (m.st s) := by
    rw [detachedOf]
    split <;> simp
  rw [← hall, ← hreply, ← hdetached, removeState, meshStateCleanup_eq, leaveSupers_eq,
    leaveList_eq h hs]
  rfl

theorem Wf.removed (h : Wf m) (hs : s ∈ m.all) (hsubs : (m.st s).subSet = []) :
    Wf (removeState m s) := by
  rw [removeState_eq h hs]
  exact h.remove hs hsubs rfl rfl rfl rfl fun _ => rfl

theorem Inv.removed (h : Inv m e) (hs : s ∈ m.all) (hsubs : (m.st s).subSet = []) :
    Inv (removeState m s) (e + keptReplies (m.st s)) where
  wf := h.wf.removed hs hsubs
  counts := by
    rw [removeState_eq h.wf hs]
    refine h.counts.remove hs rfl ?_ rfl rfl rfl rfl rfl rfl
    exact fun _ => ⟨rfl, rfl, rfl⟩

theorem Inv.stateDeleted (h : Inv m e) (hs : s ∈ m.all) :
    Inv (meshStateDelete m s) (e + keptReplies (m.st s)) := by
  have hkeep := meshDetachSubs_detached m s
  have hkept : keptReplies ((meshDetachSubs m s).st s) = keptReplies (m.st s) := by
    rw [keptReplies, keptReplies, hkeep.replyList, hkeep.cbList, hkeep.repliesSent]
  rw [← hkept]
  apply (h.subsDetached hs).removed _ meshDetachSubs_subSet
  rw [hkeep.all]
  exact hs

theorem Inv.stateJostled (h : Inv m e) (hs : s ∈ m.all) :
    Inv (meshStateDelete { meshWalkSupers m s with statsJostled := m.statsJostled + 1 } s)
      (e + keptReplies (m.st s)) :=
  (h.rerun _ _ _).stateDeleted hs

theorem meshStateDelete_all (h : Wf m) (hs : s ∈ m.all) :
    (meshStateDelete m s).all = m.all.erase s := by
  have hall := (meshDetachSubs_detached m s).all
  have hs' : s ∈ (meshDetachSubs m s).all := by rwa [hall]
  have heq : (meshStateDelete m s).all = (removeState (meshDetachSubs m s) s).all := rfl
  rw [heq, removeState_eq (h.subsDetached hs) hs', hall]

theorem meshStateDelete_key (h : Wf m) (hs : s ∈ m.all) (t : Nat) :
    ((meshStateDelete m s).st t).key = (m.st t).key := by
  have hkeep := meshDetachSubs_detached m s
  have hs' : s ∈ (meshDetachSubs m s).all := by rwa [hkeep.all]
  have heq : (meshStateDelete m s).st t = (removeState (meshDetachSubs m s) s).st t := rfl
  rw [heq, removeState_eq (h.subsDetached hs) hs', ← hkeep.key]

structure Spaced (m m' : MeshArea C) : Prop where
  subset : ∀ t ∈ m'.all, t ∈ m.all
  other : ∀ t ∈ m.all, (m.st t).listSelect = .noList → t ∈ m'.all
  key : ∀ t, (m'.st t).key = (m.st t).key

theorem Spaced.find (h : Spaced m m') {key : MeshKey C} (hfind : meshAreaFind m key = none) :
    meshAreaFind m' key = none := by
  apply find?_eq_none.2
  intro t ht
  rw [h.key]
  exact meshAreaFind_none hfind t (h.subset t ht)

theorem Inv.spaceMade (h : Inv m e) (hspace : meshMakeNewSpace m now = some m') :
    Inv m' (e + jostledReplies m now) ∧ Spaced m m' := by
  rw [meshMakeNewSpace] at hspace
  split at hspace
  case isTrue hroom =>
    cases hspace
    have hvictim : jostleVictim m now = none := by rw [jostleVictim, if_pos hroom]
    rw [jostledReplies, hvictim, Int.natCast_zero, Int.add_zero]
    exact ⟨h, fun _ ht => ht, fun _ ht _ => ht, fun _ => rfl⟩
  case isFalse =>
    split at hspace
    case h_1 => cases hspace
    case h_2 s hvictim =>
      cases hspace
      obtain ⟨hjostle, hselect⟩ := jostleVictim_select hvictim
      have hs := ((h.wf.jostleMem s).1 hjostle).1
      have hwalk := h.wf.rerun (meshWalkSupers m s).run (m.statsJostled + 1) m.statsDropped
      have hall : (meshStateDelete
          { meshWalkSupers m s with statsJostled := m.statsJostled + 1 } s).all = m.all.erase s :=
        meshStateDelete_all hwalk hs
      refine ⟨?_, ?_, ?_, meshStateDelete_key hwalk hs⟩
      · rw [jostledReplies, hvictim]
        exact h.stateJostled hs
      · intro t ht
        rw [hall] at ht
        exact mem_of_mem_erase ht
      · intro t ht hno
        rw [hall, h.wf.nodup.mem_erase_iff]
        refine ⟨?_, ht⟩
        rintro rfl
        rw [hselect] at hno
        cases hno

end

variable {C : Type} [DecidableEq C] {m : MeshArea C} {s : Nat}

section Model

/-- Whether `mesh_state_create`, the copy of the options, the add of a reply or callback,
`tcp_req_info_add_meshstate` and the parts of `mesh_serve_expired_init` succeed. -/
structure MeshMem where
  create : Bool
  ednsCopy : Bool
  addEntry : Bool
  addTcp : Bool
  serveData : Bool
  serveTimer : Bool
  deriving DecidableEq, Repr

variable (mem : MeshMem) (m : MeshArea C) (s : Nat) (q : MeshQuery)

/-- `mesh_serve_expired_init`: the state after it. -/
def serveExpiredInit (timeout : Bool) : MeshArea C :=
  m.modify s fun x => { x with
    serveExpiredData := (timeout && mem.serveData) || x.serveExpiredData }

def serveExpiredFails (timeout : Bool) : Bool :=
  timeout && !(mem.serveData && mem.serveTimer)

/-- The clean-up of a call that fails: the state goes if the call has added it. -/
def failCall (added : Bool) : MeshArea C :=
  if added then meshStateDelete m s else m

/-- The edns options of a new state are copied before the state is put into the tree. -/
def ednsFails (key : MeshKey C) (unique : Bool) : MeshArea C :=
  let m' := meshStateCreate m key unique
  meshStateDelete { m' with numDetachedStates := m'.numDetachedStates + 1 } m.fresh

def linkReply (rep : MeshReply) : MeshArea C :=
  m.modify s fun x => { x with replyList := rep :: x.replyList }

def linkCallback (cb : MeshCb) : MeshArea C :=
  m.modify s fun x => { x with cbList := cb :: x.cbList }

def addClientMem (rep : MeshReply) (timeout added : Bool) : MeshArea C :=
  if !mem.addEntry then failCall m s added
  else if !mem.addTcp then failCall (linkReply m s rep) s added
  else
    let m' := serveExpiredInit mem (linkReply m s rep) s timeout
    if serveExpiredFails mem timeout then failCall m' s added
    else joinList (countReply m' (m.st s)) s

def meshNewClientMem (cinfo : Option C) (unique : Bool) (rep : MeshReply) (timeout : Bool) :
    MeshArea C :=
  let key := meshKey q cinfo false false
  let drop (m : MeshArea C) : MeshArea C := { m with statsDropped := m.statsDropped + 1 }
  match if unique then none else meshAreaFind m key with
  | none =>
    match meshMakeNewSpace m rep.startTime with
    | none => drop m
    | some m' =>
      if !mem.create then m'
      else if !mem.ednsCopy then ednsFails m' key unique
      else addClientMem mem (addDetached m' key unique) m'.fresh rep timeout true
  | some s =>
    if (m.st s).listSelect = .noList then
      match meshMakeNewSpace m rep.startTime with
      | none => drop m
      | some m' => addClientMem mem m' s rep timeout false
    else if m.numReplyAddrs > m.maxReplyStates * 16 then drop m
    else addClientMem mem m s rep timeout false

def addCallbackMem (cb : MeshCb) (timeout added : Bool) : MeshArea C :=
  if !mem.addEntry then failCall m s added
  else
    let m' := serveExpiredInit mem (linkCallback m s cb) s timeout
    if serveExpiredFails mem timeout then failCall m' s added
    else countReply m' (m.st s)

def meshNewCallbackMem (unique : Bool) (cb : MeshCb) (timeout : Bool) : MeshArea C :=
  let key := meshKey q none false false
  match if unique then none else meshAreaFind m key with
  | none =>
    if !mem.create then m
    else if !mem.ednsCopy then ednsFails m key unique
    else addCallbackMem mem (addDetached m key unique) m.fresh cb timeout true
  | some s => addCallbackMem mem m s cb timeout false

def MeshMem.ok : MeshMem := ⟨true, true, true, true, true, true⟩

omit [DecidableEq C] in
theorem modify_modify (f g : MeshState C → MeshState C) :
    (m.modify s f).modify s g = m.modify s fun x => g (f x) := by
  simp [MeshArea.modify]

theorem addClientMem_ok : addClientMem .ok m s rep timeout added = addClient m s rep timeout := by
  simp [addClientMem, addClient, MeshMem.ok, serveExpiredFails, serveExpiredInit, linkReply,
    modify_modify]

theorem addCallbackMem_ok :
    addCallbackMem .ok m s cb timeout added = addCallback m s cb timeout := by
  simp [addCallbackMem, addCallback, MeshMem.ok, serveExpiredFails, serveExpiredInit,
    linkCallback, modify_modify]

theorem meshNewClientMem_ok :
    meshNewClientMem .ok m q cinfo unique rep timeout =
      meshNewClient m q cinfo unique rep timeout := by
  have hcreate : MeshMem.ok.create = true := rfl
  have hcopy : MeshMem.ok.ednsCopy = true := rfl
  conv_lhs => simp only [meshNewClientMem, addClientMem_ok, hcreate, hcopy, Bool.not_true,
    Bool.false_eq_true, if_false]
  rfl

theorem meshNewCallbackMem_ok :
    meshNewCallbackMem .ok m q unique cb timeout = meshNewCallback m q unique cb timeout := by
  have hcreate : MeshMem.ok.create = true := rfl
  have hcopy : MeshMem.ok.ednsCopy = true := rfl
  conv_lhs => simp only [meshNewCallbackMem, addCallbackMem_ok, hcreate, hcopy, Bool.not_true,
    Bool.false_eq_true, if_false]
  rfl

end Model

section Shift
variable {l : List Nat} {a r d : Int}

variable (m : MeshArea C) (s : Nat)

def shift (l : List Nat) (a r d : Int) : MeshArea C :=
  { m with
    all := l
    numReplyAddrs := m.numReplyAddrs + a
    numReplyStates := m.numReplyStates + r
    numDetachedStates := m.numDetachedStates + d }

theorem detachSub_shift :
    detachSub s (shift m l a r d) ref = shift (detachSub s m ref) l a r d := by
  rw [detachSub_eq, detachSub_eq]
  simp only [shift, MeshArea.modify, Int.add_right_comm]
  rfl

theorem detachLoop_shift (subs : List Nat) (m : MeshArea C) :
    subs.foldl (detachSub s) (shift m l a r d) = shift (subs.foldl (detachSub s) m) l a r d := by
  induction subs generalizing m with
  | nil => rfl
  | cons b subs ih => rw [List.foldl_cons, List.foldl_cons, detachSub_shift, ih]

theorem meshDetachSubs_shift :
    meshDetachSubs (shift m l a r d) s = shift (meshDetachSubs m s) l a r d := by
  have hloop := @detachLoop_shift C _ l a r d s (m.st s).subSet m
  exact congrArg (fun m => m.modify s fun x => { x with subSet := [] }) hloop

omit [DecidableEq C] in
theorem uncount_leaveList_shift :
    uncount (leaveList (shift m l a r d) s) x = shift (uncount (leaveList m s) x) l a r d := by
  have hleave : leaveList (shift m l a r d) s = shift (leaveList m s) l a r d := by
    rw [leaveList, leaveList]
    cases hlist : (m.st s).listSelect <;> simp [shift, hlist]
  rw [hleave]
  cases hd : x.detached <;> cases hr : x.hasReply <;>
    simp [uncount, shift, hd, hr, Int.sub_eq_add_neg, Int.add_right_comm]

theorem removeState_shift :
    removeState (shift m l a r d) s = shift (removeState m s) (m.deleteRef l s) a r d := by
  have hkey : ∀ t, ((uncount (leaveList m s) (m.st s)).st t).key = (m.st t).key := by
    intro t
    rw [uncount, leaveList]
    split <;> rfl
  have hst : (shift m l a r d).st s = m.st s := rfl
  rw [← deleteRef_congr hkey, removeState, removeState, meshStateCleanup_eq, meshStateCleanup_eq,
    hst, uncount_leaveList_shift, leaveSupers_eq, leaveSupers_eq]
  simp only [shift, Int.sub_eq_add_neg, Int.add_right_comm _ a]
  rfl

theorem meshStateDelete_shift :
    meshStateDelete (shift m l a r d) s = shift (meshStateDelete m s) (m.deleteRef l s) a r d := by
  have hkey := (meshDetachSubs_detached m s).key
  have hremove := @removeState_shift C _ l a r d (meshDetachSubs m s) s
  rw [← meshDetachSubs_shift, deleteRef_congr hkey] at hremove
  exact hremove

end Shift

section Calls
theorem Inv.newState (h : Inv m e) {key : MeshKey C} (hkey : key.unique = none)
    (hfind : (if unique then none else meshAreaFind m key) = none) :
    Inv (addDetached m key unique) e ∧ m.fresh ∈ (addDetached m key unique).all := by
  refine ⟨h.detachedAdded hkey hfind, ?_⟩
  rw [addDetached_all h.wf hkey hfind]
  exact mem_cons_self

theorem Spaced.lookup (h : Spaced m m') {key : MeshKey C} {unique : Bool}
    (hfind : (if unique then none else meshAreaFind m key) = none) :
    (if unique then none else meshAreaFind m' key) = none := by
  cases unique with
  | true => rfl
  | false => exact h.find hfind

theorem lookup_mem {key : MeshKey C} {unique : Bool}
    (hfind : (if unique then none else meshAreaFind m key) = some s) : s ∈ m.all := by
  cases unique with
  | true => cases hfind
  | false => exact meshAreaFind_mem hfind

def needsSpace (m : MeshArea C) : Option Nat → Bool
  | none => true
  | some s => (m.st s).listSelect = .noList

/-- The entries that an event leaves in `num_reply_addrs` after they are gone. -/
def leak (m : MeshArea C) : MeshEvent C → Nat
  | .newClient q cinfo unique rep _ =>
    if needsSpace m (if unique then none else meshAreaFind m (meshKey q cinfo false false)) then
      jostledReplies m rep.startTime
    else 0
  | .newPrefetch q subnet now =>
    match if subnet then none else meshAreaFind m (meshKey q none false false) with
    | none => jostledReplies m now
    | some _ => 0
  | .queryDone s a => droppedReplies (m.st s) a
  | .stateDelete s => keptReplies (m.st s)
  | .newCallback .. => 0
  | .addSub .. => 0
  | .attachSub .. => 0
  | .detachSubs .. => 0
  | .removeReply .. => 0
  | .serveExpired .. => 0

theorem jostledReplies_of_none (hspace : meshMakeNewSpace m now = none) :
    jostledReplies m now = 0 := by
  rw [meshMakeNewSpace] at hspace
  split at hspace
  case isTrue => cases hspace
  case isFalse =>
    split at hspace
    case h_1 hvictim => rw [jostledReplies, hvictim]
    case h_2 => cases hspace

/-- The counters are those of a sound mesh, but `num_reply_addrs` is one too low. -/
def Short (m : MeshArea C) (e : Int) : Prop :=
  ∃ m' r d, Inv m' e ∧ m = shift m' m'.all (-1) r d

omit [DecidableEq C] in
theorem countReply_shift (m : MeshArea C) (x : MeshState C) :
    m = shift (countReply m x) (countReply m x).all (-1) (if x.hasReply then 0 else -1)
      (if x.detached then 1 else 0) := by
  cases hd : x.detached <;> cases hr : x.hasReply <;> simp [countReply, shift, hd, hr]

theorem Inv.unsentDeleted (h : Inv m e) (hs : s ∈ m.all) (hsent : (m.st s).repliesSent = false) :
    Inv (meshStateDelete m s) e := by
  have hdeleted := h.stateDeleted hs
  rw [keptReplies, hsent] at hdeleted
  simpa using hdeleted

theorem Short.failCall (h : Inv (countReply m x) e) (hs : s ∈ m.all)
    (hsent : added = true → (m.st s).repliesSent = false) : Short (failCall m s added) e := by
  rw [Services.failCall]
  split
  case isFalse => exact ⟨countReply m x, _, _, h, countReply_shift m x⟩
  case isTrue hadded =>
    have hall := meshStateDelete_all h.wf hs
    have hshift := countReply_shift m x
    have href : (countReply m x).deleteRef (countReply m x).all s =
        (meshStateDelete (countReply m x) s).all := by
      rw [hall]
      exact h.wf.deleteRef_eq_erase (fun _ ht => ht) hs h.wf.nodup
    refine ⟨meshStateDelete (countReply m x) s, if x.hasReply then 0 else -1,
      if x.detached then 1 else 0, h.unsentDeleted hs (hsent hadded), ?_⟩
    rw [← href, ← meshStateDelete_shift, ← hshift]

theorem Inv.failCall (h : Inv m e) (hs : s ∈ m.all)
    (hsent : added = true → (m.st s).repliesSent = false) : Inv (failCall m s added) e := by
  rw [Services.failCall]
  split
  case isFalse => exact h
  case isTrue hadded => exact h.unsentDeleted hs (hsent hadded)

/-- A sound mesh, or one that is short if the entry was linked and a later step failed. -/
def Outcome (m : MeshArea C) (e : Int) (lost : Bool) : Prop :=
  if lost then Short m e else Inv m e

def clientLost (mem : MeshMem) (timeout : Bool) : Bool :=
  mem.addEntry && (!mem.addTcp || serveExpiredFails mem timeout)

def callbackLost (mem : MeshMem) (timeout : Bool) : Bool :=
  mem.addEntry && serveExpiredFails mem timeout

theorem clientLost_ok : clientLost .ok timeout = false := by
  simp [clientLost, serveExpiredFails, MeshMem.ok]

theorem callbackLost_ok : callbackLost .ok timeout = false := by
  simp [callbackLost, serveExpiredFails, MeshMem.ok]

theorem Inv.addClientMem (h : Inv m e) (hs : s ∈ m.all)
    (hsent : added = true → (m.st s).repliesSent = false) (rep : MeshReply) :
    Outcome (addClientMem mem m s rep timeout added) e (clientLost mem timeout) := by
  have hsent' : ∀ t, added = true → ((m.modify s fun x => { x with
      replyList := rep :: x.replyList
      serveExpiredData := t || x.serveExpiredData }).st s).repliesSent = false := by
    intro t hadded
    rw [modify_st_self]
    exact hsent hadded
  have hlink : linkReply m s rep = m.modify s fun x => { x with
      replyList := rep :: x.replyList
      serveExpiredData := false || x.serveExpiredData } := rfl
  have hserve : serveExpiredInit mem (linkReply m s rep) s timeout = m.modify s fun x => { x with
      replyList := rep :: x.replyList
      serveExpiredData := (timeout && mem.serveData) || x.serveExpiredData } :=
    modify_modify m s _ _
  rw [Services.addClientMem, hserve, clientLost]
  cases hentry : mem.addEntry with
  | false => exact h.failCall hs hsent
  | true =>
    cases htcp : mem.addTcp with
    | false =>
      exact .failCall (h.replyAdded hs rep false) hs (hsent' false)
    | true =>
      cases hfails : serveExpiredFails mem timeout with
      | false => exact (h.replyAdded hs rep _).listJoined hs
      | true => exact .failCall (h.replyAdded hs rep _) hs (hsent' _)

theorem Inv.addCallbackMem (h : Inv m e) (hs : s ∈ m.all)
    (hsent : added = true → (m.st s).repliesSent = false) (cb : MeshCb) :
    Outcome (addCallbackMem mem m s cb timeout added) e (callbackLost mem timeout) := by
  have hserve : serveExpiredInit mem (linkCallback m s cb) s timeout = m.modify s fun x => { x with
      cbList := cb :: x.cbList
      serveExpiredData := (timeout && mem.serveData) || x.serveExpiredData } :=
    modify_modify m s _ _
  rw [Services.addCallbackMem, hserve, callbackLost]
  cases hentry : mem.addEntry with
  | false => exact h.failCall hs hsent
  | true =>
    cases hfails : serveExpiredFails mem timeout with
    | false => exact h.callbackAdded hs cb _
    | true =>
      apply Short.failCall (h.callbackAdded hs cb _) hs
      intro hadded
      rw [modify_st_self]
      exact hsent hadded

theorem addDetached_fresh_sent (key : MeshKey C) :
    ((addDetached m key unique).st m.fresh).repliesSent = false := by
  simp [addDetached, meshStateCreate]

theorem ednsFails_eq (h : Inv m e) {key : MeshKey C} (hkey : key.unique = none)
    (hfind : (if unique then none else meshAreaFind m key) = none) :
    ednsFails m key unique = meshStateDelete (addDetached m key unique) m.fresh := by
  obtain ⟨hinv, hmem⟩ := h.newState hkey hfind
  have hall := addDetached_all h.wf hkey hfind
  have hshift : ednsFails m key unique =
      meshStateDelete (shift (addDetached m key unique) m.all 0 0 0) m.fresh := by
    simp only [ednsFails, shift, addDetached, Int.add_zero]
    rfl
  have hdelete : (addDetached m key unique).deleteRef m.all m.fresh =
      (meshStateDelete (addDetached m key unique) m.fresh).all := by
    rw [meshStateDelete_all hinv.wf hmem,
      ← hinv.wf.deleteRef_eq_erase (fun _ ht => ht) hmem hinv.wf.nodup, hall,
      MeshArea.deleteRef, MeshArea.deleteRef, List.filter_cons, MeshKey.same_self]
    rfl
  rw [hshift, meshStateDelete_shift, hdelete]
  simp [shift]

theorem Inv.ednsFailed (h : Inv m e) {key : MeshKey C} (hkey : key.unique = none)
    (hfind : (if unique then none else meshAreaFind m key) = none) :
    Inv (ednsFails m key unique) e := by
  obtain ⟨hinv, hmem⟩ := h.newState hkey hfind
  rw [ednsFails_eq h hkey hfind]
  exact hinv.unsentDeleted hmem (addDetached_fresh_sent key)

inductive MeshCall (C : Type) where
  | newClient (q : MeshQuery) (cinfo : Option C) (unique : Bool) (rep : MeshReply) (timeout : Bool)
  | newCallback (q : MeshQuery) (unique : Bool) (cb : MeshCb) (timeout : Bool)

def meshCallMem (mem : MeshMem) (m : MeshArea C) : MeshCall C → MeshArea C
  | .newClient q cinfo unique rep timeout => meshNewClientMem mem m q cinfo unique rep timeout
  | .newCallback q unique cb timeout => meshNewCallbackMem mem m q unique cb timeout

def MeshCall.event : MeshCall C → MeshEvent C
  | .newClient q cinfo unique rep timeout => .newClient q cinfo unique rep timeout
  | .newCallback q unique cb timeout => .newCallback q unique cb timeout

def clientReaches (mem : MeshMem) (m : MeshArea C) (now : Int) : Option Nat → Bool
  | none => (meshMakeNewSpace m now).isSome && mem.create && mem.ednsCopy
  | some s =>
    if (m.st s).listSelect = .noList then (meshMakeNewSpace m now).isSome
    else !decide (m.numReplyAddrs > m.maxReplyStates * 16)

def callbackReaches (mem : MeshMem) : Option Nat → Bool
  | none => mem.create && mem.ednsCopy
  | some _ => true

/-- The call links its entry to a state, and fails in a step after that. -/
def MeshCall.lost (mem : MeshMem) (m : MeshArea C) : MeshCall C → Bool
  | .newClient q cinfo unique rep timeout =>
    clientReaches mem m rep.startTime
      (if unique then none else meshAreaFind m (meshKey q cinfo false false)) &&
    clientLost mem timeout
  | .newCallback q unique _ timeout =>
    callbackReaches mem (if unique then none else meshAreaFind m (meshKey q none false false)) &&
    callbackLost mem timeout

theorem Inv.newCallbackMem (h : Inv m e) (mem : MeshMem) (q : MeshQuery) (unique : Bool)
    (cb : MeshCb) (timeout : Bool) :
    Outcome (meshNewCallbackMem mem m q unique cb timeout) e
      (MeshCall.lost mem m (.newCallback q unique cb timeout)) := by
  rw [meshNewCallbackMem, MeshCall.lost]
  split
  case h_1 hfind =>
    rw [hfind, callbackReaches]
    cases mem.create with
    | false => exact h
    | true =>
      cases mem.ednsCopy with
      | false => exact h.ednsFailed rfl hfind
      | true =>
        obtain ⟨hinv, hmem⟩ := h.newState rfl hfind
        exact hinv.addCallbackMem hmem (fun _ => addDetached_fresh_sent _) cb
  case h_2 s hfind =>
    rw [hfind, callbackReaches]
    exact h.addCallbackMem (lookup_mem hfind) (by simp) cb

theorem Inv.newClientMem (h : Inv m e) (mem : MeshMem) (q : MeshQuery) (cinfo : Option C)
    (unique : Bool) (rep : MeshReply) (timeout : Bool) :
    Outcome (meshNewClientMem mem m q cinfo unique rep timeout)
      (e + leak m (.newClient q cinfo unique rep timeout))
      (MeshCall.lost mem m (.newClient q cinfo unique rep timeout)) := by
  rw [meshNewClientMem, MeshCall.lost, leak]
  split
  case h_1 hfind =>
    rw [hfind, clientReaches, needsSpace, if_pos rfl]
    split
    case h_1 hspace =>
      rw [jostledReplies_of_none hspace, hspace, Int.natCast_zero, Int.add_zero]
      exact h.rerun _ _ _
    case h_2 m' hspace =>
      obtain ⟨hinv, hspaced⟩ := h.spaceMade hspace
      have hfind' := hspaced.lookup hfind
      rw [hspace]
      cases mem.create with
      | false => exact hinv
      | true =>
        cases mem.ednsCopy with
        | false => exact hinv.ednsFailed rfl hfind'
        | true =>
          obtain ⟨hnew, hmem⟩ := hinv.newState rfl hfind'
          exact hnew.addClientMem hmem (fun _ => addDetached_fresh_sent _) rep
  case h_2 s hfind =>
    have hs := lookup_mem hfind
    rw [hfind, clientReaches, needsSpace]
    split
    case isTrue hno =>
      rw [if_pos (decide_eq_true hno)]
      split
      case h_1 hspace =>
        rw [jostledReplies_of_none hspace, hspace, Int.natCast_zero, Int.add_zero]
        exact h.rerun _ _ _
      case h_2 m' hspace =>
        obtain ⟨hinv, hspaced⟩ := h.spaceMade hspace
        rw [hspace]
        exact hinv.addClientMem (hspaced.other s hs hno) (by simp) rep
    case isFalse hlist =>
      have hfalse : ¬ decide ((m.st s).listSelect = .noList) = true := by simpa using hlist
      rw [if_neg hfalse, Int.natCast_zero, Int.add_zero]
      split
      case isTrue hmany =>
        rw [decide_eq_true hmany]
        exact h.rerun _ _ _
      case isFalse hmany =>
        rw [decide_eq_false hmany]
        exact h.addClientMem hs (by simp) rep

end Calls

end CwdGate.Services
