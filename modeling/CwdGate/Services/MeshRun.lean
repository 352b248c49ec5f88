import CwdGate.Services.MeshFail
import CwdGate.Lib.Chain

namespace CwdGate.Services
open Lib List

section

variable {C : Type} [DecidableEq C] {m : MeshArea C}

theorem Inv.newClient (h : Inv m e) (q : MeshQuery) (cinfo : Option C) (unique : Bool)
    (rep : MeshReply) (timeout : Bool) :
    Inv (meshNewClient m q cinfo unique rep timeout)
      (e + leak m (.newClient q cinfo unique rep timeout)) := by
  have hcall := h.newClientMem .ok q cinfo unique rep timeout
  rw [meshNewClientMem_ok, MeshCall.lost, clientLost_ok, Bool.and_false] at hcall
  exact hcall

theorem Inv.newCallback (h : Inv m e) (q : MeshQuery) (unique : Bool) (cb : MeshCb)
    (timeout : Bool) : Inv (meshNewCallback m q unique cb timeout) e := by
  have hcall := h.newCallbackMem .ok q unique cb timeout
  rw [meshNewCallbackMem_ok, MeshCall.lost, callbackLost_ok, Bool.and_false] at hcall
  exact hcall

theorem Inv.newPrefetch (h : Inv m e) (q : MeshQuery) (subnet : Bool) (now : Int) :
    Inv (meshNewPrefetch m q subnet now) (e + leak m (.newPrefetch q subnet now)) := by
  rw [meshNewPrefetch, leak]
  split
  case h_1 s hfind =>
    rw [hfind, Int.natCast_zero, Int.add_zero]
    exact h
  case h_2 hfind =>
    rw [hfind]
    split
    case h_1 hspace =>
      rw [jostledReplies_of_none hspace, Int.natCast_zero, Int.add_zero]
      exact h.rerun _ _ _
    case h_2 m' hspace =>
      obtain ⟨hinv, hspaced⟩ := h.spaceMade hspace
      obtain ⟨hnew, hmem⟩ := hinv.newState rfl (hspaced.lookup hfind)
      exact hnew.listJoined hmem

section Run

theorem Inv.event (h : Inv m e) (hv : ev.Valid m) : Inv (meshEvent m ev) (e + leak m ev) := by
  have hzero : e + ((0 : Nat) : Int) = e := Int.add_zero e
  cases ev with
  | newClient q cinfo unique rep timeout => exact h.newClient q cinfo unique rep timeout
  | newCallback q unique cb timeout =>
    rw [leak, hzero]
    exact h.newCallback q unique cb timeout
  | newPrefetch q subnet now => exact h.newPrefetch q subnet now
  | addSub s q prime valrec =>
    rw [leak, hzero, meshEvent]
    cases hadd : meshAddSub m s q prime valrec with
    | none => exact h
    | some r => exact h.subAdded hadd
  | attachSub s q prime valrec =>
    rw [leak, hzero]
    exact h.subAttached hv
  | detachSubs s =>
    rw [leak, hzero]
    exact h.subsDetached hv
  | queryDone s a => exact h.done hv a
  | removeReply s comm =>
    rw [leak, hzero]
    exact h.replyRemoved hv comm
  | serveExpired s allowed answer =>
    rw [leak, hzero]
    exact h.staleServed hv
  | stateDelete s => exact h.stateDeleted hv

/-- The counters of the mesh describe its states and lists. -/
structure Consistent (m : MeshArea C) : Prop where
  addrs : m.numReplyAddrs = total m.all m.st fun x => x.replyList.length + x.cbList.length
  states : m.numReplyStates = m.all.countP fun s => (m.st s).hasReply
  detached : m.numDetachedStates = m.all.countP fun s => (m.st s).detached
  forever : m.numForeverStates = m.forever.length
  foreverMax : m.numForeverStates ≤ m.maxForeverStates

omit [DecidableEq C] in
theorem consistent_iff_counts : Consistent m ↔ Counts m 0 := by
  have hreply : total m.all m.st replyOf = m.all.countP fun s => (m.st s).hasReply := total_ite _
  have hdetached : total m.all m.st detachedOf = m.all.countP fun s => (m.st s).detached :=
    total_ite _
  have haddrs : (total m.all m.st fun x => x.replyList.length + x.cbList.length) =
      total m.all m.st addrsOf + 0 := (Int.add_zero _).symm
  constructor
  · intro h
    exact ⟨h.addrs.trans haddrs, h.states.trans hreply.symm, h.detached.trans hdetached.symm,
      h.forever, h.foreverMax⟩
  · intro h
    exact ⟨h.addrs.trans haddrs.symm, h.states.trans hreply, h.detached.trans hdetached,
      h.forever, h.foreverMax⟩

omit [DecidableEq C] in
theorem Counts.consistent_iff (h : Counts m e) : Consistent m ↔ e = 0 := by
  constructor
  · intro hc
    have hzero := (consistent_iff_counts.1 hc).addrs
    have hcount := h.addrs
    omega
  · rintro rfl
    exact consistent_iff_counts.2 h

def meshTrace (m : MeshArea C) : List (MeshEvent C) → List (MeshArea C)
  | [] => [m]
  | ev :: evs => m :: meshTrace (meshEvent m ev) evs

/-- Every event is for states that are in the mesh at that time. -/
def ValidRun (m : MeshArea C) : List (MeshEvent C) → Prop
  | [] => True
  | ev :: evs => ev.Valid m ∧ ValidRun (meshEvent m ev) evs

/-- No event drops replies of a query that is done, or deletes a state with replies not sent. -/
def LeakFree (m : MeshArea C) : List (MeshEvent C) → Prop
  | [] => True
  | ev :: evs => leak m ev = 0 ∧ LeakFree (meshEvent m ev) evs

theorem Inv.trace_consistent_iff (h : Inv m e) (hpos : 0 ≤ e) (hv : ValidRun m evs) :
    (∀ m' ∈ meshTrace m evs, Consistent m') ↔ e = 0 ∧ LeakFree m evs := by
  induction evs generalizing m e with
  | nil => simp [meshTrace, LeakFree, h.counts.consistent_iff]
  | cons ev evs ih =>
    obtain ⟨hev, hv⟩ := hv
    rw [meshTrace, forall_mem_cons, h.counts.consistent_iff, ih (h.event hev) (by omega) hv,
      LeakFree]
    constructor
    · rintro ⟨hzero, hleak, hfree⟩
      exact ⟨hzero, by omega, hfree⟩
    · rintro ⟨hzero, hleak, hfree⟩
      exact ⟨hzero, by omega, hfree⟩

theorem Wf.create (n : Nat) (jostleTime : Int) (st : Nat → MeshState C) :
    Wf (meshCreate n jostleTime st) := by
  constructor
  case toListsOk => constructor <;> simp [meshCreate]
  all_goals simp [meshCreate]

theorem Inv.create (n : Nat) (jostleTime : Int) (st : Nat → MeshState C) :
    Inv (meshCreate n jostleTime st) 0 where
  wf := Wf.create n jostleTime st
  counts := by
    constructor
    case foreverMax => exact Int.natCast_nonneg _
    all_goals simp [meshCreate]

def smallMesh : MeshArea Unit :=
  meshCreate 4 200 fun _ =>
    { key := meshKey ⟨true, false, [], 1, 1⟩ none false false
      replyList := []
      cbList := []
      superSet := []
      subSet := []
      listSelect := .noList
      repliesSent := false
      serveExpiredData := false }

def clientRun (isDrop : Bool) : List (MeshEvent Unit) :=
  [.newClient ⟨true, false, [[119]], 1, 1⟩ none false ⟨7, 0⟩ false,
    .attachSub 0 ⟨true, false, [], 2, 1⟩ false false,
    .queryDone 0 ⟨false, isDrop, false, false⟩,
    .stateDelete 0]

theorem clientRun_valid (isDrop : Bool) : ValidRun smallMesh (clientRun isDrop) := by
  cases isDrop with
  | false => exact ⟨trivial, by decide, by decide, by decide, trivial⟩
  | true => exact ⟨trivial, by decide, by decide, by decide, trivial⟩

theorem Short.not_consistent (h : Short m 0) : ¬ Consistent m := by
  obtain ⟨m', r, d, hinv, rfl⟩ := h
  intro hc
  have haddrs : m'.numReplyAddrs + -1 = total m'.all m'.st addrsOf := hc.addrs
  have hcount := hinv.counts.addrs
  omega

theorem Outcome.consistent_iff (h : Outcome m 0 lost) : Consistent m ↔ lost = false := by
  cases lost with
  | false => exact iff_of_true (h.counts.consistent_iff.2 rfl) rfl
  | true => exact iff_of_false h.not_consistent (by decide)

theorem smallMesh_inv : Inv smallMesh 0 := Inv.create 4 200 _

def wwwCall : MeshCall Unit :=
  .newClient ⟨true, false, [[119, 119, 119]], 1, 1⟩ none false ⟨7, 0⟩ false

end Run

end

open Relation

variable {C : Type} {m m' : MeshArea C} {s : Nat}

section Search
variable {c : Nat}

def InSubSet (m : MeshArea C) (a b : Nat) : Prop := b ∈ (m.st a).subSet

theorem findLoop_found (m : MeshArea C) (subs : List Nat) (r : Bool × Nat) (hr : r.1 = true) :
    subs.foldl
      (fun r sub =>
        if r.1 then r
        else if sub = tofind then (true, r.2)
        else findInSubsub m tofind fuel sub r.2) r = r := by
  induction subs with
  | nil => rfl
  | cons sub subs ih => rw [foldl_cons, if_pos hr, ih]

theorem findLoop_none (subs : List Nat) (r : Bool × Nat) (h : (subs.foldl (fun r sub =>
        if r.1 then r
        else if sub = tofind then (true, r.2)
        else findInSubsub m tofind fuel sub r.2) r).1 = false) :
    ∀ sub ∈ subs, sub ≠ tofind ∧ ∃ c, (findInSubsub m tofind fuel sub c).1 = false := by
  induction subs generalizing r with
  | nil => exact fun _ hmem => nomatch hmem
  | cons sub subs ih =>
    rw [foldl_cons] at h
    by_cases hr : r.1 = true
    · rw [if_pos hr, findLoop_found m subs r hr, hr] at h
      cases h
    rw [if_neg hr] at h
    by_cases heq : sub = tofind
    · rw [if_pos heq, findLoop_found m subs _ rfl] at h
      cases h
    · rw [if_neg heq] at h
      have hsub : (findInSubsub m tofind fuel sub r.2).1 = false := by
        by_contra hfound
        rw [findLoop_found m subs _ (by simpa using hfound)] at h
        exact hfound h
      exact forall_mem_cons.2 ⟨⟨heq, r.2, hsub⟩, ih _ h⟩

/-- The search errs on the safe side: if it does not find the state, there is no path to it. -/
theorem findInSubsub_none (h : (findInSubsub m tofind fuel s c).1 = false) :
    ¬ TransGen (InSubSet m) s tofind := by
  induction fuel generalizing s c with
  | zero => cases h
  | succ fuel ih =>
    rw [findInSubsub] at h
    split at h
    · cases h
    · have htried := findLoop_none _ _ h
      intro hpath
      rcases TransGen.head'_iff.1 hpath with ⟨sub, hsub, hrest⟩
      obtain ⟨hne, c', hnone⟩ := htried sub hsub
      rcases hrest.cases_head with heq | ⟨t, hstep, htail⟩
      · exact hne heq
      · exact ih hnone (TransGen.head' hstep htail)

theorem meshDetectCycleFound_none (h : meshDetectCycleFound m s (some dep) = false) :
    ¬ ReflTransGen (InSubSet m) dep s := by
  rw [meshDetectCycleFound, Bool.or_eq_false_iff, decide_eq_false_iff_not] at h
  intro hpath
  rcases reflTransGen_iff_eq_or_transGen.1 hpath with heq | hpath
  · exact h.1 heq.symm
  · exact findInSubsub_none h.2 hpath

end Search

section Run
variable [DecidableEq C]

/-- Events that change the links; `newState` is for clients, callbacks and prefetches. -/
inductive LinkEvent (C : Type) where
  | newState (q : MeshQuery) (cinfo : Option C) (unique : Bool)
  | attachSub (s : Nat) (q : MeshQuery) (prime valrec : Bool)
  | addAttached (s : Nat) (q : MeshQuery) (prime valrec : Bool)
  | detachSubs (s : Nat)
  | walkSupers (s : Nat)
  | stateDelete (s : Nat)

def LinkEvent.Valid (m : MeshArea C) : LinkEvent C → Prop
  | .newState .. => True
  | .attachSub s .. => s ∈ m.all
  | .addAttached s .. => s ∈ m.all
  | .detachSubs s => s ∈ m.all
  | .walkSupers s => s ∈ m.all
  | .stateDelete s => s ∈ m.all

instance (m : MeshArea C) : (ev : LinkEvent C) → Decidable (ev.Valid m)
  | .newState .. => inferInstanceAs (Decidable True)
  | .attachSub s .. => inferInstanceAs (Decidable (s ∈ m.all))
  | .addAttached s .. => inferInstanceAs (Decidable (s ∈ m.all))
  | .detachSubs s => inferInstanceAs (Decidable (s ∈ m.all))
  | .walkSupers s => inferInstanceAs (Decidable (s ∈ m.all))
  | .stateDelete s => inferInstanceAs (Decidable (s ∈ m.all))

def linkEvent (m : MeshArea C) : LinkEvent C → MeshArea C
  | .newState q cinfo unique =>
    let key := meshKey q cinfo false false
    match if unique then none else meshAreaFind m key with
    | none => addDetached m key unique
    | some _ => m
  | .attachSub s q prime valrec => meshAttachSub m s q prime valrec
  | .addAttached s q prime valrec =>
    match meshAddSub m s q prime valrec with
    | none => m
    | some (m', sub) => meshStateAttachment m' s sub
  | .detachSubs s => meshDetachSubs m s
  | .walkSupers s => meshWalkSupers m s
  | .stateDelete s => meshStateDelete m s

inductive LinkRun (m₀ : MeshArea C) : MeshArea C → Prop where
  | start : LinkRun m₀ m₀
  | step {m : MeshArea C} {ev : LinkEvent C} (h : LinkRun m₀ m) (hv : ev.Valid m) :
      LinkRun m₀ (linkEvent m ev)

/-- The links are sound, and the subs of the states in the mesh form no cycle. -/
structure LinkInv (m : MeshArea C) : Prop where
  wf : Wf m
  acyclic : Acyclic (Linked m)

theorem LinkInv.of_subset (h : LinkInv m) (hwf : Wf m')
    (hsub : ∀ a b, Linked m' a b → Linked m a b) : LinkInv m' :=
  ⟨hwf, h.acyclic.mono hsub⟩

theorem linked_of_addDetached (h : Wf m) {key : MeshKey C} (hkey : key.unique = none)
    (hfind : (if unique then none else meshAreaFind m key) = none)
    (hlink : Linked (addDetached m key unique) a b) : Linked m a b := by
  obtain ⟨ha, _, hsub⟩ := hlink
  rw [addDetached_all h hkey hfind] at ha
  rcases mem_cons.1 ha with rfl | ha
  · simp [addDetached, meshStateCreate] at hsub
  · have hne : a ≠ m.fresh := (h.fresh a ha).ne
    have hst : (addDetached m key unique).st a = m.st a := Function.update_of_ne hne _ _
    rw [hst] at hsub
    exact (h.mem_subSet ha).1 hsub

theorem LinkInv.detachedAdded (h : LinkInv m) {key : MeshKey C} (hkey : key.unique = none)
    (hfind : (if unique then none else meshAreaFind m key) = none) :
    LinkInv (addDetached m key unique) :=
  h.of_subset (h.wf.detachedAdded hkey hfind) fun _ _ => linked_of_addDetached h.wf hkey hfind

theorem LinkInv.congr (h : LinkInv m) (hall : m'.all = m.all) (hst : m'.st = m.st) (hwf : Wf m') :
    LinkInv m' := by
  apply h.of_subset hwf
  rintro a b ⟨ha, hb, hsub⟩
  rw [hall] at ha hb
  rw [hst] at hsub
  exact ⟨ha, hb, hsub⟩

section
variable (h : LinkInv m) (hs : s ∈ m.all)
include h hs

theorem LinkInv.attached (hsub : sub ∈ m.all) (hnot : ¬ ReflTransGen (Linked m) sub s) :
    LinkInv (meshStateAttachment m s sub) := by
  rw [meshStateAttachment_eq h.wf hs hsub]
  split
  case isTrue => exact h
  case isFalse hmem =>
    refine ⟨h.wf.linked hs hsub hmem, h.acyclic.addEdge ?_ hnot⟩
    rintro a b ⟨ha, hb, hlink⟩
    rw [link_st] at hlink
    by_cases heq : a = s
    · rw [if_pos heq] at hlink
      rcases mem_cons.1 hlink with hlink | hlink
      · exact .inr ⟨heq, hlink⟩
      · exact .inl ⟨ha, hb, hlink⟩
    · rw [if_neg heq] at hlink
      exact .inl ⟨ha, hb, hlink⟩

theorem LinkInv.subAdded (hadd : meshAddSub m s q prime valrec = some (m', sub)) :
    LinkInv m' ∧ ¬ ReflTransGen (Linked m') sub s := by
  have hwf := (h.wf.subAdded hs hadd).1
  rcases meshAddSub_cases hadd with ⟨rfl, _, hcycle⟩ | ⟨hfind, rfl, run, rfl⟩
  · refine ⟨h, ?_⟩
    intro hpath
    apply meshDetectCycleFound_none hcycle
    exact ReflTransGen.mono (fun _ _ hlink => hlink.2.2) _ _ hpath
  · refine ⟨(h.detachedAdded rfl hfind).congr rfl rfl hwf, ?_⟩
    intro hpath
    rcases hpath.cases_head with heq | ⟨t, hlink, _⟩
    · exact (h.wf.fresh s hs).ne heq.symm
    · have hold := linked_of_addDetached h.wf rfl hfind hlink
      exact (h.wf.fresh _ hold.1).ne rfl

theorem LinkInv.addAttached (hadd : meshAddSub m s q prime valrec = some (m', sub)) :
    LinkInv (meshStateAttachment m' s sub) := by
  obtain ⟨hinv, hnot⟩ := h.subAdded hs hadd
  obtain ⟨_, hs, hsub⟩ := h.wf.subAdded hs hadd
  exact hinv.attached hs hsub hnot

theorem LinkInv.subAttached : LinkInv (meshAttachSub m s q prime valrec) := by
  rw [meshAttachSub]
  split
  case h_1 => exact h
  case h_2 m₁ sub hadd =>
    have hinv := h.addAttached hs hadd
    dsimp only
    split
    · exact hinv.congr rfl rfl (hinv.wf.congr ⟨rfl, rfl, rfl, rfl, rfl, rfl⟩
        fun _ => ⟨rfl, rfl, rfl, rfl⟩)
    · exact hinv

end

theorem detachLoop_subSet (subs : List Nat) :
    ((subs.foldl (detachSub s) m).st t).subSet = (m.st t).subSet := by
  induction subs generalizing m with
  | nil => rfl
  | cons b subs ih => rw [foldl_cons, ih, detachSub_st]

theorem linked_of_meshDetachSubs (hlink : Linked (meshDetachSubs m s) a b) : Linked m a b := by
  obtain ⟨ha, hb, hsub⟩ := hlink
  rw [(meshDetachSubs_detached m s).all] at ha hb
  refine ⟨ha, hb, ?_⟩
  rw [meshDetachSubs, modify_st] at hsub
  split at hsub
  · cases hsub
  · rwa [detachLoop_subSet] at hsub

theorem LinkInv.subsDetached (h : LinkInv m) (hs : s ∈ m.all) : LinkInv (meshDetachSubs m s) :=
  h.of_subset (h.wf.subsDetached hs) fun _ _ => linked_of_meshDetachSubs

theorem LinkInv.removed (h : LinkInv m) (hs : s ∈ m.all) (hsubs : (m.st s).subSet = []) :
    LinkInv (removeState m s) := by
  apply h.of_subset (h.wf.removed hs hsubs)
  rintro a b ⟨ha, hb, hsub⟩
  rw [removeState_eq h.wf hs] at ha hb hsub
  refine ⟨mem_of_mem_erase ha, mem_of_mem_erase hb, ?_⟩
  dsimp only at hsub
  split at hsub
  · exact mem_of_mem_filter hsub
  · exact hsub

theorem LinkInv.stateDeleted (h : LinkInv m) (hs : s ∈ m.all) : LinkInv (meshStateDelete m s) := by
  apply (h.subsDetached hs).removed _ meshDetachSubs_subSet
  rw [(meshDetachSubs_detached m s).all]
  exact hs

theorem LinkInv.event (h : LinkInv m) (hv : ev.Valid m) : LinkInv (linkEvent m ev) := by
  cases ev with
  | newState q cinfo unique =>
    rw [linkEvent]
    split
    case h_1 hfind => exact h.detachedAdded rfl hfind
    case h_2 => exact h
  | attachSub s q prime valrec => exact h.subAttached hv
  | addAttached s q prime valrec =>
    rw [linkEvent]
    split
    case h_1 => exact h
    case h_2 m' sub hadd => exact h.addAttached hv hadd
  | detachSubs s => exact h.subsDetached hv
  | walkSupers s => exact h.congr rfl rfl (h.wf.rerun _ _ _)
  | stateDelete s => exact h.stateDeleted hv

theorem LinkInv.create (n : Nat) (jostleTime : Int) (st : Nat → MeshState C) :
    LinkInv (meshCreate n jostleTime st) where
  wf := Wf.create n jostleTime st
  acyclic := by
    intro a hcycle
    rcases TransGen.head'_iff.1 hcycle with ⟨b, hlink, _⟩
    exact nomatch hlink.1

theorem LinkInv.run (h : LinkInv m₀) (hrun : LinkRun m₀ m) : LinkInv m := by
  induction hrun with
  | start => exact h
  | step _ hv ih => exact ih.event hv

/-- Along every run the two directions of the links agree and there is no cycle. -/
theorem mesh_links_symmetric_acyclic (n : Nat) (jostleTime : Int) (st : Nat → MeshState C)
    (hrun : LinkRun (meshCreate n jostleTime st) m) :
    (∀ a ∈ m.all, ∀ b, a ∈ (m.st b).subSet ∧ b ∈ m.all ↔ b ∈ (m.st a).superSet) ∧
      ∀ a, ¬ TransGen (fun b c => b ∈ m.all ∧ c ∈ (m.st b).subSet) a a := by
  have h := (LinkInv.create n jostleTime st).run hrun
  constructor
  · intro a ha b
    rw [h.wf.mem_superSet ha]
    constructor
    · rintro ⟨hsub, hb⟩
      exact ⟨hb, ha, hsub⟩
    · rintro ⟨hb, _, hsub⟩
      exact ⟨hsub, hb⟩
  · apply h.acyclic.mono
    rintro b c ⟨hb, hc⟩
    exact (h.wf.mem_subSet hb).1 hc

def pairMesh : MeshArea Unit :=
  linkEvent (linkEvent (linkEvent smallMesh
    (.newState ⟨true, false, [[97]], 1, 1⟩ none false))
    (.attachSub 0 ⟨true, false, [[98]], 1, 1⟩ false false))
    (.attachSub 1 ⟨true, false, [[97]], 1, 1⟩ false false)

theorem mesh_links_symmetric_acyclic_pair :
    LinkRun smallMesh pairMesh ∧ 1 ∈ (pairMesh.st 0).subSet ∧ 0 ∉ (pairMesh.st 1).subSet ∧
      ∀ a, ¬ TransGen (fun b c => b ∈ pairMesh.all ∧ c ∈ (pairMesh.st b).subSet) a a := by
  have hrun : LinkRun smallMesh pairMesh := by
    apply LinkRun.step
    · apply LinkRun.step
      · apply LinkRun.step
        · exact .start
        · exact trivial
      · decide
    · decide
  exact ⟨hrun, by decide, by decide, (mesh_links_symmetric_acyclic 4 200 _ hrun).2⟩

end Run

end CwdGate.Services
