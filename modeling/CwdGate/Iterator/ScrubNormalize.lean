import CwdGate.Iterator.Scrub

namespace CwdGate.Iterator
open Lib List Function

variable {m m' : MsgParse} {id : Nat} {nx : List Nat}

/-- The results of a turn of the loop over the answer section, at the RRset `id`. -/
inductive AnswerTurn (qinfo : QueryInfo) (m : MsgParse) (sname : Name) (id : Nat) (nx : List Nat) :
    MsgParse × Name → Prop where
  | given {aliasName t : Name} {c : Nat} {rest : List Nat}
      (htype : (m.heap id).type = RrType.dname)
      (hsub : pktStrictSub sname (m.heap id).dname = true)
      (hsynth : synthCname sname (m.heap id) = some aliasName) (hnx : nx = c :: rest)
      (hcname : (m.heap c).type = RrType.cname)
      (howner : sameName sname (m.heap c).dname = true)
      (htarget : cnameTarget (m.heap c) = some t) (hsame : sameName aliasName t = true) :
      AnswerTurn qinfo m sname id nx ((m.modify c useFirst).advance, sname)
  | made {aliasName : Name} {m' : MsgParse} (htype : (m.heap id).type = RrType.dname)
      (hsub : pktStrictSub sname (m.heap id).dname = true)
      (hsynth : synthCname sname (m.heap id) = some aliasName) (halters : Alters m m')
      (hmarks : ∀ j, (m'.heap j).flags = (m.heap j).flags) :
      AnswerTurn qinfo m sname id nx (synthCnameRrset m' sname aliasName id nx, aliasName)
  | removed (hdname : ¬ ((m.heap id).type = RrType.dname ∧
        pktStrictSub sname (m.heap id).dname = true))
      (hcname : ¬ ((m.heap id).type = RrType.cname ∧ sameName sname (m.heap id).dname = true)) :
      AnswerTurn qinfo m sname id nx (removeRrset m, sname)
  | cname {target : Name} (htype : (m.heap id).type = RrType.cname)
      (howner : sameName sname (m.heap id).dname = true)
      (htarget : cnameTarget (m.heap id) = some target) :
      AnswerTurn qinfo m sname id nx
        (if qinfo.qtype = RrType.any then
          skipOwner ((passCname m sname id nx).modify id useFirst) sname
        else (passCname m sname id nx).modify id useFirst, target)
  | marked (hdname : ¬ ((m.heap id).type = RrType.dname ∧
        pktStrictSub sname (m.heap id).dname = true)) (hcname : (m.heap id).type ≠ RrType.cname) :
      AnswerTurn qinfo m sname id nx ((markAdditionalRrset m (m.heap id)).advance, sname)
  | kept (hdname : ¬ ((m.heap id).type = RrType.dname ∧
        pktStrictSub sname (m.heap id).dname = true)) (hcname : (m.heap id).type ≠ RrType.cname) :
      AnswerTurn qinfo m sname id nx (m.advance, sname)

theorem hasAdditional_cname : hasAdditional RrType.cname = false := by decide

theorem useFirst_flags : (useFirst r).flags = r.flags := by
  rw [useFirst]
  split
  case isTrue => rfl
  case isFalse => rfl

theorem modify_useFirst_flags (m : MsgParse) (id j : Nat) :
    ((m.modify id useFirst).heap j).flags = (m.heap j).flags := by
  rw [m.modify_heap]
  split
  · exact useFirst_flags
  · rfl

theorem Alters.useFirst (h : (m.heap id).type = RrType.cname) :
    Alters m (m.modify id useFirst) := by
  apply Alters.modify
  apply Same.useFirst
  rw [h]
  exact hasAdditional_cname

theorem normalizeDname_does (htype : (m.heap id).type = RrType.dname)
    (hsub : pktStrictSub sname (m.heap id).dname = true) (stop : Prop) :
    (normalizeDname env m sname id nx).Does (AnswerTurn qinfo m sname id nx) stop := by
  rw [normalizeDname]
  split
  case isTrue => trivial
  split
  case h_1 => trivial
  case h_2 aliasName hsynth =>
    have hmade : ∀ m', Alters m m' → (∀ j, (m'.heap j).flags = (m.heap j).flags) →
        (if env.mem m'.fresh then Turn.next (synthCnameRrset m' sname aliasName id nx, aliasName)
          else .fail).Does (AnswerTurn qinfo m sname id nx) stop := by
      intro m' halters hmarks
      split
      · exact .made htype hsub hsynth halters hmarks
      · trivial
    cases nx with
    | nil => exact hmade m (.refl m) fun _ => rfl
    | cons c rest =>
      rw [checkNextCname]
      by_cases hc : (m.heap c).type = RrType.cname ∧ sameName sname (m.heap c).dname = true
      · rw [if_pos hc]
        cases htarget : cnameTarget (m.heap c) with
        | none => trivial
        | some t =>
          dsimp only
          cases hsame : sameName aliasName t with
          | true => exact .given htype hsub hsynth rfl hc.1 hc.2 htarget hsame
          | false => exact hmade _ (.useFirst hc.1) (modify_useFirst_flags m c)
      · rw [if_neg hc]
        exact hmade m (.refl m) fun _ => rfl

theorem normalizeAnswer_does :
    (normalizeAnswer env qinfo s).Does
      (fun s' => ∃ id nx, s.1.rest = id :: nx ∧ (s.1.heap id).sect = .answer ∧
        AnswerTurn qinfo s.1 s.2 id nx s')
      (∀ id nx, s.1.rest = id :: nx → (s.1.heap id).sect ≠ .answer) := by
  rw [normalizeAnswer]
  cases hrest : s.1.rest with
  | nil => exact nofun
  | cons id nx =>
    dsimp only
    by_cases hsect : (s.1.heap id).sect = .answer
    case neg =>
      rw [if_pos hsect]
      rintro _ _ ⟨⟩
      exact hsect
    have hdoes : ∀ s', AnswerTurn qinfo s.1 s.2 id nx s' → ∃ id' nx', id :: nx = id' :: nx' ∧
        (s.1.heap id').sect = .answer ∧ AnswerTurn qinfo s.1 s.2 id' nx' s' :=
      fun s' hturn => ⟨id, nx, rfl, hsect, hturn⟩
    rw [if_neg (not_not.2 hsect)]
    split
    case isTrue hdname =>
      exact (normalizeDname_does hdname.1 hdname.2 _).mono hdoes
    case isFalse hdname =>
    split
    case isTrue howner => exact hdoes _ (.removed hdname fun hcname => howner hcname.2)
    case isFalse howner =>
    split
    case isTrue hcname =>
      rw [normalizeCname]
      split
      · trivial
      · exact hdoes _ (.cname hcname (not_not.1 howner) ‹_›)
    case isFalse hcname =>
    split
    · exact hdoes _ (.removed hdname fun hboth => hcname hboth.1)
    split
    · exact hdoes _ (.marked hdname hcname)
    · exact hdoes _ (.kept hdname hcname)

theorem MsgOk.id_lt (h : MsgOk m) (hrest : m.rest = id :: nx) : id < m.fresh :=
  h.fresh id (mem_rrsets (mem_rest hrest))

theorem MsgOk.swap (h : MsgOk m) (hrest : m.rest = id :: c :: nx) (hrank : m.rank id = m.rank c) :
    MsgOk { m with done := id :: c :: m.done, rest := nx } := by
  have hrrsets : MsgParse.rrsets { m with done := id :: c :: m.done, rest := nx } =
      m.done.reverse ++ c :: id :: nx := by
    simp [MsgParse.rrsets]
  refine h.perm rfl rfl rfl ?_ ?_
  · rw [hrrsets, MsgParse.rrsets_eq hrest]
    exact (List.Perm.swap id c nx).append_left _
  · have hsorted := h.sorted
    rw [MsgParse.rrsets_eq hrest, ← pairwise_map (f := m.rank)] at hsorted
    rw [hrrsets, ← pairwise_map (f := m.rank)]
    simp only [map_append, map_cons, hrank] at hsorted ⊢
    exact hsorted

theorem skipOwner_rrsets (m : MsgParse) (n : Name) : (skipOwner m n).rrsets = m.rrsets := by
  simp only [skipOwner, MsgParse.rrsets, reverse_append, reverse_reverse,
    append_assoc, takeWhile_append_dropWhile]

theorem MsgOk.skipOwner (h : MsgOk m) (n : Name) : MsgOk (skipOwner m n) := by
  have hrrsets := skipOwner_rrsets m n
  exact h.perm rfl rfl rfl (.of_eq hrrsets) (hrrsets ▸ h.sorted)

theorem synthCnameRrset_rrsets (m : MsgParse) (sname aliasName : Name) (id : Nat) (nx : List Nat) :
    (synthCnameRrset m sname aliasName id nx).rrsets = m.done.reverse ++ id :: m.fresh :: nx := by
  simp [MsgParse.rrsets, synthCnameRrset]

theorem synthCnameRrset_heap (hj : j < m.fresh) :
    (synthCnameRrset m sname aliasName id nx).heap j = m.heap j :=
  update_of_ne (ne_of_lt hj) _ _

theorem pairwise_twin {f : Nat → Nat} (h : (l ++ x :: l').Pairwise fun i j => f i ≤ f j)
    (hy : f y = f x) : (l ++ x :: y :: l').Pairwise fun i j => f i ≤ f j := by
  simp only [pairwise_append, pairwise_cons, mem_cons] at h ⊢
  grind

theorem MsgOk.synth (h : MsgOk m) (hrest : m.rest = id :: nx) (hsect : (m.heap id).sect = .answer) :
    MsgOk (synthCnameRrset m sname aliasName id nx) := by
  have hrrsets := synthCnameRrset_rrsets m sname aliasName id nx
  have hold := MsgParse.rrsets_eq hrest
  have hperm : (synthCnameRrset m sname aliasName id nx).rrsets.Perm (m.fresh :: m.rrsets) := by
    rw [hrrsets, hold]
    exact ((List.Perm.swap m.fresh id nx).append_left _).trans perm_middle
  have hnew : (synthCnameRrset m sname aliasName id nx).heap m.fresh =
      synthesized sname aliasName (m.heap id) := update_self _ _ _
  have hsame : ∀ i ∈ m.rrsets, (synthCnameRrset m sname aliasName id nx).heap i = m.heap i :=
    fun i hi => synthCnameRrset_heap (h.fresh i hi)
  constructor
  case nodup =>
    rw [hperm.nodup_iff, nodup_cons]
    exact ⟨fun hmem => Nat.lt_irrefl _ (h.fresh _ hmem), h.nodup⟩
  case fresh =>
    intro i hi
    rw [hperm.mem_iff, mem_cons] at hi
    rcases hi with rfl | hi
    · exact Nat.lt_succ_self _
    · exact Nat.lt_succ_of_lt (h.fresh i hi)
  case sorted =>
    have hrank : ∀ i ∈ m.rrsets, (synthCnameRrset m sname aliasName id nx).rank i = m.rank i := by
      intro i hi
      rw [MsgParse.rank, hsame i hi, MsgParse.rank]
    have hsorted : m.rrsets.Pairwise fun i j =>
        (synthCnameRrset m sname aliasName id nx).rank i ≤
          (synthCnameRrset m sname aliasName id nx).rank j := by
      apply h.sorted.imp_of_mem
      intro i j hi hj hij
      rw [hrank i hi, hrank j hj]
      exact hij
    rw [hold] at hsorted
    rw [hrrsets]
    apply pairwise_twin hsorted
    rw [hrank id (mem_rrsets (mem_rest hrest)), MsgParse.rank, hnew]
    rfl
  case anRrsets =>
    have hcount : m.rrsets.countP (fun i => decide
        (((synthCnameRrset m sname aliasName id nx).heap i).sect = .answer)) =
        m.rrsets.countP fun i => decide ((m.heap i).sect = .answer) := by
      apply countP_congr
      intro i hi
      rw [hsame i hi]
    rw [hperm.countP_eq, countP_cons, hnew, hcount]
    have han : (synthCnameRrset m sname aliasName id nx).anRrsets = m.anRrsets + 1 := rfl
    rw [han, h.anRrsets]
    simp [synthesized, hsect]

/-- A part of a loop: the RRsets that it leaves behind stay behind, and it goes on in the list. -/
structure Grows (m m' : MsgParse) : Prop where
  heap : ∀ i, i < m.fresh → Same (m.heap i) (m'.heap i)
  fresh : m.fresh ≤ m'.fresh
  done : ∃ l, m'.done = l ++ m.done
  rest : m'.rest <:+ m.rest

theorem Grows.refl (m : MsgParse) : Grows m m :=
  ⟨fun _ _ => .refl _, le_rfl, ⟨[], rfl⟩, suffix_refl _⟩

theorem Grows.trans (h : Grows m m') (h' : Grows m' m'') : Grows m m'' where
  heap i hi := (h.heap i hi).trans (h'.heap i (lt_of_lt_of_le hi h.fresh))
  fresh := h.fresh.trans h'.fresh
  done := by
    obtain ⟨l, hl⟩ := h.done
    obtain ⟨l', hl'⟩ := h'.done
    refine ⟨l' ++ l, ?_⟩
    rw [hl', hl, append_assoc]
  rest := h'.rest.trans h.rest

theorem Alters.grows (h : Alters m m') : Grows m m' := by
  refine ⟨fun i _ => h.heap i, Nat.le_of_eq h.fresh.symm, ⟨[], h.done⟩, ?_⟩
  rw [h.rest]

theorem advance_eq (hrest : m.rest = id :: nx) :
    m.advance = { m with done := id :: m.done, rest := nx } := by
  rw [MsgParse.advance, hrest]

theorem Grows.advance (m : MsgParse) : Grows m m.advance := by
  cases hrest : m.rest with
  | nil =>
    rw [MsgParse.advance, hrest]
    exact .refl m
  | cons id nx =>
    rw [advance_eq hrest]
    refine ⟨fun _ _ => .refl _, le_rfl, ⟨[id], rfl⟩, ?_⟩
    rw [hrest]
    exact suffix_cons id nx

theorem Grows.remove (m : MsgParse) : Grows m (removeRrset m) := by
  obtain ⟨hheap, hfresh, hdone⟩ := removeRrset_heap
  refine ⟨fun i _ => ?_, Nat.le_of_eq hfresh.symm, ⟨[], hdone⟩, ?_⟩
  · rw [hheap]
    exact .refl _
  · rw [removeRrset]
    split
    case h_1 => exact suffix_refl _
    case h_2 id nx hrest =>
      rw [hrest]
      exact suffix_cons id nx

theorem Grows.swap (hrest : m.rest = id :: c :: nx) :
    Grows m { m with done := id :: c :: m.done, rest := nx } := by
  refine ⟨fun _ _ => .refl _, le_rfl, ⟨[id, c], rfl⟩, ?_⟩
  rw [hrest]
  exact ⟨[id, c], rfl⟩

theorem Grows.skipOwner (m : MsgParse) (n : Name) : Grows m (skipOwner m n) :=
  ⟨fun _ _ => .refl _, le_rfl, ⟨_, rfl⟩, dropWhile_suffix _⟩

theorem Grows.synth (hrest : m.rest = id :: nx) :
    Grows m (synthCnameRrset m sname aliasName id nx) := by
  refine ⟨fun i hi => ?_, Nat.le_succ _, ⟨[m.fresh, id], rfl⟩, ?_⟩
  · rw [synthCnameRrset_heap hi]
    exact .refl _
  · rw [hrest]
    exact suffix_cons id nx

theorem passCname_cases (m : MsgParse) (sname : Name) (id : Nat) (nx : List Nat) :
    ((∀ c rest, nx = c :: rest → dnameNext m sname id c = false) ∧
      passCname m sname id nx = m.advance) ∨
      ∃ c rest, nx = c :: rest ∧ dnameNext m sname id c = true ∧
        passCname m sname id nx = { m with done := id :: c :: m.done, rest := rest } := by
  cases nx with
  | nil => exact .inl ⟨nofun, rfl⟩
  | cons c rest =>
    rw [passCname]
    split
    case isTrue hnext => exact .inr ⟨c, rest, rfl, hnext, rfl⟩
    case isFalse hnext =>
      refine .inl ⟨?_, rfl⟩
      rintro c rest ⟨⟩
      exact Bool.eq_false_iff.2 hnext

theorem dnameNext_sect (h : dnameNext m sname id c = true) :
    (m.heap c).sect = .answer ∧ (m.heap c).type = RrType.dname := by
  simp only [dnameNext, decide_eq_true_eq] at h
  exact ⟨h.1, h.2.1⟩

/-- No RRset left behind is additional, and the marked ones are additional and named by one that
was. -/
structure Front (m : MsgParse) : Prop where
  sect : ∀ i ∈ m.done, (m.heap i).sect ≠ .additional
  marked : ∀ i ∈ m.rrsets, Marked (m.heap i) → (m.heap i).sect = .additional ∧
    ∃ j ∈ m.done, Gives (m.heap j) (m.heap i).dname

theorem Same.gives (h : Same r r') (hg : Gives r n) : Gives r' n := by
  obtain ⟨hadd, rr, hrr, nm, hnm, hn⟩ := hg
  rw [← h.records hadd] at hrr
  rw [← h.type] at hadd hnm
  exact ⟨hadd, rr, hrr, nm, hnm, hn⟩

theorem MsgOk.done_lt (h : MsgOk m) (hi : i ∈ m.done) : i < m.fresh :=
  h.fresh i (mem_append_left _ (mem_reverse.2 hi))

theorem Grows.mem_done (h : Grows m m') (hi : i ∈ m.done) : i ∈ m'.done := by
  obtain ⟨l, hl⟩ := h.done
  rw [hl]
  exact mem_append_right _ hi

theorem Front.step (h : Front m) (hok : MsgOk m) (hg : Grows m m')
    (hsect : ∀ i ∈ m'.done, i ∈ m.done ∨ (m'.heap i).sect ≠ .additional)
    (hmarked : ∀ i ∈ m'.rrsets, Marked (m'.heap i) → (i ∈ m.rrsets ∧ Marked (m.heap i)) ∨
      ((m'.heap i).sect = .additional ∧ ∃ j ∈ m'.done, Gives (m'.heap j) (m'.heap i).dname)) :
    Front m' where
  sect i hi := by
    rcases hsect i hi with hold | hnew
    · rw [(hg.heap i (hok.done_lt hold)).sect]
      exact h.sect i hold
    · exact hnew
  marked i hi hm := by
    rcases hmarked i hi hm with ⟨hold, hm'⟩ | hnew
    · obtain ⟨hs, j, hj, hgives⟩ := h.marked i hold hm'
      have hi' := hg.heap i (hok.fresh i hold)
      have hj' := hg.heap j (hok.done_lt hj)
      rw [hi'.sect, hi'.dname]
      exact ⟨hs, j, hg.mem_done hj, hj'.gives hgives⟩
    · exact hnew

theorem Front.marks (h : Front m) (hok : MsgOk m) (hrest : m.rest = id :: nx)
    (hsect : (m.heap id).sect ≠ .additional) (hm : Marks (Gives (m.heap id)) m m') :
    Front m'.advance := by
  have hrest' := hm.rest.trans hrest
  have hgrows := hm.toAlters.grows.trans (.advance m')
  rw [advance_eq hrest'] at hgrows ⊢
  apply h.step hok hgrows
  · refine forall_mem_cons.2 ⟨.inr ?_, fun i hi => .inl (hm.done ▸ hi)⟩
    rw [(hm.heap id).sect]
    exact hsect
  intro i hi hmarked
  have hmem : i ∈ m.rrsets := by
    rw [MsgParse.rrsets_eq hrest]
    rw [MsgParse.rrsets, hm.done] at hi
    simpa using hi
  rcases hm.marked i hmarked with hold | ⟨hadd, hgives⟩
  · exact .inl ⟨hmem, hold⟩
  · right
    rw [(hm.heap i).sect, (hm.heap i).dname]
    exact ⟨hadd, id, mem_cons_self, (hm.heap id).gives hgives⟩

theorem Front.alters (h : Front m) (hok : MsgOk m) (ha : Alters m m')
    (hflags : ∀ j, (m'.heap j).flags = (m.heap j).flags) : Front m' := by
  apply h.step hok ha.grows
  · intro i hi
    rw [ha.done] at hi
    exact .inl hi
  · intro i hi hm
    rw [ha.rrsets] at hi
    rw [Marked, hflags] at hm
    exact .inl ⟨hi, hm⟩

theorem Front.remove (h : Front m) (hok : MsgOk m) : Front (removeRrset m) := by
  obtain ⟨hheap, _, hdone⟩ := removeRrset_heap
  apply h.step hok (.remove m)
  · intro i hi
    rw [hdone] at hi
    exact .inl hi
  · intro i hi hm
    rw [hheap] at hm
    exact .inl ⟨(removeRrset_sublist m).subset hi, hm⟩

theorem Front.pass (h : Front m) (hok : MsgOk m) (hg : Grows m m') (hheap : m'.heap = m.heap)
    (hmem : ∀ i ∈ m'.rrsets, i ∈ m.rrsets)
    (hsect : ∀ i ∈ m'.done, i ∈ m.done ∨ (m.heap i).sect = .answer) : Front m' := by
  apply h.step hok hg
  · intro i hi
    apply (hsect i hi).imp_right
    intro hanswer
    rw [hheap, hanswer]
    decide
  · intro i hi hm
    rw [hheap] at hm
    exact .inl ⟨hmem i hi, hm⟩

theorem Front.synth (h : Front m) (hok : MsgOk m) (hrest : m.rest = id :: nx)
    (hsect : (m.heap id).sect = .answer) : Front (synthCnameRrset m sname aliasName id nx) := by
  have hnew : (synthCnameRrset m sname aliasName id nx).heap m.fresh =
      synthesized sname aliasName (m.heap id) := update_self _ _ _
  apply h.step hok (.synth hrest)
  · refine forall_mem_cons.2 ⟨.inr ?_, forall_mem_cons.2 ⟨.inr ?_, fun i hi => .inl hi⟩⟩
    · rw [hnew, synthesized, hsect]
      decide
    · rw [synthCnameRrset_heap (hok.id_lt hrest), hsect]
      decide
  · intro i hi hm
    left
    rw [synthCnameRrset_rrsets] at hi
    by_cases hfresh : i = m.fresh
    · rw [hfresh, hnew] at hm
      exact absurd (Nat.zero_and _) hm
    · have hmem : i ∈ m.rrsets := by
        rw [MsgParse.rrsets_eq hrest]
        simpa [hfresh] using hi
      rw [synthCnameRrset_heap (hok.fresh i hmem)] at hm
      exact ⟨hmem, hm⟩

theorem Front.skipOwner (h : Front m) (hok : MsgOk m) (n : Name) : Front (skipOwner m n) := by
  refine h.pass hok (.skipOwner m n) rfl ?_ ?_
  · intro i hi
    rw [skipOwner_rrsets] at hi
    exact hi
  · intro i hi
    rcases mem_append.1 hi with hi | hi
    · have hsame := mem_takeWhile_imp (mem_reverse.1 hi)
      rw [Bool.and_eq_true, decide_eq_true_eq] at hsame
      exact .inr hsame.1
    · exact .inl hi

structure Moves (m m' : MsgParse) : Prop where
  ok : MsgOk m'
  grows : Grows m m'
  front : Front m → Front m'

theorem Moves.trans (h : Moves m m') (h' : Moves m' m'') : Moves m m'' :=
  ⟨h'.ok, h.grows.trans h'.grows, fun hf => h'.front (h.front hf)⟩

theorem Moves.alters (hok : MsgOk m) (h : Alters m m')
    (hflags : ∀ j, (m'.heap j).flags = (m.heap j).flags) : Moves m m' :=
  ⟨hok.alters h, h.grows, fun hf => hf.alters hok h hflags⟩

theorem Moves.useFirst (hok : MsgOk m) (h : (m.heap id).type = RrType.cname) :
    Moves m (m.modify id useFirst) :=
  .alters hok (.useFirst h) (modify_useFirst_flags m id)

theorem Moves.marks (hok : MsgOk m) (hrest : m.rest = id :: nx)
    (hsect : (m.heap id).sect = .answer) (hm : Marks (Gives (m.heap id)) m m') :
    Moves m m'.advance ∧ m'.advance.rest = nx := by
  refine ⟨⟨(hok.alters hm.toAlters).advance, hm.toAlters.grows.trans (.advance m'), ?_⟩, ?_⟩
  · intro hf
    apply hf.marks hok hrest _ hm
    rw [hsect]
    decide
  · rw [advance_eq (hm.rest.trans hrest)]

theorem Moves.passCname (hok : MsgOk m) (hrest : m.rest = id :: nx)
    (hsect : (m.heap id).sect = .answer) :
    Moves m (passCname m sname id nx) ∧ (passCname m sname id nx).rest <:+ nx ∧
      (passCname m sname id nx).heap = m.heap := by
  rcases passCname_cases m sname id nx with ⟨_, heq⟩ | ⟨c, rest, rfl, hnext, heq⟩
  · obtain ⟨hmoves, hnx⟩ := Moves.marks hok hrest hsect (.refl m)
    rw [heq, hnx]
    refine ⟨hmoves, suffix_refl nx, ?_⟩
    rw [advance_eq hrest]
  · have hc := (dnameNext_sect hnext).1
    rw [heq]
    refine ⟨⟨hok.swap hrest ?_, .swap hrest, ?_⟩, suffix_cons c rest, rfl⟩
    · rw [MsgParse.rank, MsgParse.rank, hsect, hc]
    · intro hf
      refine hf.pass hok (.swap hrest) rfl ?_ ?_
      · intro i hi
        rw [MsgParse.rrsets_eq hrest]
        simp only [MsgParse.rrsets, mem_append, mem_reverse, mem_cons] at hi ⊢
        tauto
      · exact forall_mem_cons.2 ⟨.inr hsect, forall_mem_cons.2 ⟨.inr hc, fun i hi => .inl hi⟩⟩

theorem AnswerTurn.moves (hok : MsgOk m) (hrest : m.rest = id :: nx)
    (hsect : (m.heap id).sect = .answer) (h : AnswerTurn qinfo m sname id nx s') :
    Moves m s'.1 ∧ s'.1.rest <:+ nx := by
  cases h with
  | @given _ _ c _ _ _ _ _ hcname =>
    have hmoves := Moves.useFirst hok hcname
    have hid := hmoves.grows.heap id (hok.id_lt hrest)
    obtain ⟨hmoves', hnx⟩ := Moves.marks hmoves.ok hrest (hid.sect.trans hsect) (.refl _)
    rw [hnx]
    exact ⟨hmoves.trans hmoves', suffix_refl nx⟩
  | made _ _ _ halters hflags =>
    have hmoves := Moves.alters hok halters hflags
    have hrest' := halters.rest.trans hrest
    have hsect' := (halters.heap id).sect.trans hsect
    refine ⟨hmoves.trans ⟨hmoves.ok.synth hrest' hsect', .synth hrest', ?_⟩, suffix_refl nx⟩
    exact fun hf => hf.synth hmoves.ok hrest' hsect'
  | removed =>
    refine ⟨⟨hok.remove, .remove m, fun hf => hf.remove hok⟩, ?_⟩
    rw [removeRrset, hrest]
  | cname htype =>
    obtain ⟨hmoves, hnx, hheap⟩ := Moves.passCname hok hrest hsect
    have hmoves' := hmoves.trans (.useFirst hmoves.ok (by rw [hheap]; exact htype))
    split
    case isTrue =>
      have hskip := hmoves'.ok.skipOwner sname
      exact ⟨hmoves'.trans ⟨hskip, .skipOwner _ sname, fun hf => hf.skipOwner hmoves'.ok sname⟩,
        (Grows.skipOwner _ sname).rest.trans hnx⟩
    case isFalse => exact ⟨hmoves', hnx⟩
  | marked =>
    obtain ⟨hmoves, hnx⟩ := Moves.marks hok hrest hsect (markAdditionalRrset_marks m (m.heap id))
    rw [hnx]
    exact ⟨hmoves, suffix_refl nx⟩
  | kept =>
    obtain ⟨hmoves, hnx⟩ := Moves.marks hok hrest hsect (.refl m)
    rw [hnx]
    exact ⟨hmoves, suffix_refl nx⟩

inductive AuthorityTurn (m : MsgParse) (id : Nat) : MsgParse → Prop where
  | removed : AuthorityTurn m id (removeRrset m)
  | answer (htype : (m.heap id).type = RrType.ds) : AuthorityTurn m id (dsAnswer m id)
  | marked (htype : (m.heap id).type ≠ RrType.cname) :
      AuthorityTurn m id (markAdditionalRrset m (m.heap id)).advance

theorem normalizeAuthority_does :
    (normalizeAuthority env qinfo s).Does
      (fun s' => ∃ id nx, s.1.rest = id :: nx ∧ (s.1.heap id).sect = .authority ∧
        AuthorityTurn s.1 id s'.1)
      (∀ id nx, s.1.rest = id :: nx → (s.1.heap id).sect ≠ .authority) := by
  rw [normalizeAuthority]
  cases hrest : s.1.rest with
  | nil => exact nofun
  | cons id nx =>
    dsimp only
    by_cases hsect : (s.1.heap id).sect = .authority
    case neg =>
      rw [if_pos hsect]
      rintro _ _ ⟨⟩
      exact hsect
    rw [if_neg (not_not.2 hsect)]
    split
    case isTrue => exact ⟨id, nx, rfl, hsect, .removed⟩
    case isFalse htype =>
    split
    · exact ⟨id, nx, rfl, hsect, .removed⟩
    split
    · exact ⟨id, nx, rfl, hsect, .removed⟩
    split
    case isTrue hds => exact ⟨id, nx, rfl, hsect, .answer hds.1⟩
    case isFalse => exact ⟨id, nx, rfl, hsect, .marked fun hcname => htype (.inr (.inl hcname))⟩

theorem dsAnswer_ok (hid : id < m.fresh) : MsgOk (dsAnswer m id) := by
  have hself : (dsAnswer m id).heap id = { m.heap id with sect := .answer } :=
    update_self _ _ _
  constructor
  case nodup => exact nodup_singleton id
  case fresh =>
    intro i hi
    rw [mem_singleton.1 hi]
    exact hid
  case sorted => exact pairwise_singleton _ id
  case anRrsets =>
    have hrrsets : (dsAnswer m id).rrsets = [id] := rfl
    rw [hrrsets, countP_cons, hself]
    rfl

/-- The RRsets that the loop has not looked at are not in the answer section. -/
def NoAnswer (m : MsgParse) : Prop := ∀ i ∈ m.rest, (m.heap i).sect ≠ .answer

theorem MsgOk.marked (hok : MsgOk m) : MsgOk (markAdditionalRrset m (m.heap id)).advance :=
  (hok.alters (markAdditionalRrset_marks m (m.heap id)).toAlters).advance

theorem Grows.marked (m : MsgParse) (id : Nat) :
    Grows m (markAdditionalRrset m (m.heap id)).advance :=
  (markAdditionalRrset_marks m (m.heap id)).toAlters.grows.trans (.advance _)

theorem AuthorityTurn.ok (hok : MsgOk m) (hrest : m.rest = id :: nx) (h : AuthorityTurn m id m') :
    MsgOk m' ∧ m'.rest.length < m.rest.length := by
  have hlen : m.rest.length = nx.length + 1 := by rw [hrest, length_cons]
  cases h with
  | removed =>
    refine ⟨hok.remove, ?_⟩
    rw [removeRrset, hrest]
    exact Nat.lt_succ_self _
  | answer => exact ⟨dsAnswer_ok (hok.id_lt hrest), by rw [hlen]; exact Nat.succ_pos _⟩
  | marked =>
    have halters := (markAdditionalRrset_marks m (m.heap id)).toAlters
    refine ⟨hok.marked, ?_⟩
    rw [advance_eq (halters.rest.trans hrest), hlen]
    exact Nat.lt_succ_self _

theorem AuthorityTurn.grows (h : AuthorityTurn m id m') :
    Grows m m' ∨ (m' = dsAnswer m id ∧ (m.heap id).type = RrType.ds) := by
  cases h with
  | removed => exact .inl (.remove m)
  | answer htype => exact .inr ⟨rfl, htype⟩
  | marked => exact .inl (.marked m id)

theorem Grows.noAnswer (hg : Grows m m') (hok : MsgOk m) (h : NoAnswer m) : NoAnswer m' := by
  intro i hi
  have hmem := hg.rest.subset hi
  rw [(hg.heap i (hok.fresh i (mem_rrsets hmem))).sect]
  exact h i hmem

theorem AuthorityTurn.noAnswer (hok : MsgOk m) (hn : NoAnswer m) (h : AuthorityTurn m id m') :
    NoAnswer m' := by
  rcases h.grows with hg | ⟨rfl, _⟩
  · exact hg.noAnswer hok hn
  · exact nofun

theorem AuthorityTurn.front (hf : Front m) (hok : MsgOk m) (hrest : m.rest = id :: nx)
    (hsect : (m.heap id).sect = .authority) (h : AuthorityTurn m id m') : Front m' := by
  have hne : (m.heap id).sect ≠ .additional := by
    rw [hsect]
    decide
  cases h with
  | removed => exact hf.remove hok
  | marked => exact hf.marks hok hrest hne (markAdditionalRrset_marks m (m.heap id))
  | answer =>
    have hself : (dsAnswer m id).heap id = { m.heap id with sect := .answer } :=
      update_self _ _ _
    constructor
    case sect =>
      intro i hi
      rw [mem_singleton.1 hi, hself]
      exact nofun
    case marked =>
      intro i hi hm
      have hid : i = id := mem_singleton.1 hi
      rw [hid, hself] at hm
      exact absurd (hf.marked id (mem_rrsets (mem_rest hrest)) hm).1 hne

/-- A turn for an additional RRset takes the mark away, and keeps an address only if it had one. -/
structure AdditionalTurn (m : MsgParse) (id : Nat) (m' m'' : MsgParse) : Prop where
  alters : Alters m m'
  marked : ∀ j, Marked (m'.heap j) → Marked (m.heap j)
  result : m'' = removeRrset m' ∨
    (m'' = m'.advance ∧ (isAddress (m.heap id).type = true → Marked (m.heap id)))

theorem xor_and_self : (x ^^^ (x &&& y)) &&& y = 0 := by
  apply Nat.eq_of_testBit_eq
  intro i
  rw [Nat.testBit_and, Nat.testBit_xor, Nat.testBit_and, Nat.zero_testBit]
  cases x.testBit i <;> cases y.testBit i <;> rfl

/-- The RRset without its mark, when it is an address. -/
def clearMark (m : MsgParse) (id : Nat) : MsgParse :=
  if isAddress (m.heap id).type then
    m.modify id fun x => { x with flags := x.flags ^^^ (x.flags &&& rrsetScrubOk) } else m

theorem clearMark_alters :
    Alters m (clearMark m id) ∧ ∀ j, Marked ((clearMark m id).heap j) → Marked (m.heap j) := by
  rw [clearMark]
  split
  case isFalse => exact ⟨.refl m, fun _ hm => hm⟩
  case isTrue =>
    refine ⟨.modify ⟨rfl, rfl, rfl, fun _ => rfl, fun _ => rfl⟩, ?_⟩
    intro j hm
    rw [m.modify_heap] at hm
    split at hm
    · exact absurd xor_and_self hm
    · exact hm

theorem normalizeAdditional_does :
    (normalizeAdditional env m).Does
      (fun m'' => ∃ id nx m', m.rest = id :: nx ∧ (m.heap id).sect = .additional ∧
        AdditionalTurn m id m' m'')
      (∀ id nx, m.rest = id :: nx → (m.heap id).sect ≠ .additional) := by
  rw [normalizeAdditional]
  cases hrest : m.rest with
  | nil => exact nofun
  | cons id nx =>
    dsimp only
    by_cases hsect : (m.heap id).sect = .additional
    case neg =>
      rw [if_pos hsect]
      rintro _ _ ⟨⟩
      exact hsect
    rw [if_neg (not_not.2 hsect)]
    split
    case isTrue => exact ⟨id, nx, m, rfl, hsect, .refl m, fun _ hm => hm, .inl rfl⟩
    case isFalse hmark =>
    have hmark : isAddress (m.heap id).type = true → Marked (m.heap id) :=
      fun haddr hzero => hmark ⟨haddr, hzero⟩
    obtain ⟨halters, hmarked⟩ := clearMark_alters
    rw [clearMark] at halters hmarked
    generalize (if isAddress (m.heap id).type = true then _ else m) = m' at halters hmarked
    split
    · exact ⟨id, nx, m', rfl, hsect, halters, hmarked, .inl rfl⟩
    split
    · exact ⟨id, nx, m', rfl, hsect, halters, hmarked, .inl rfl⟩
    · exact ⟨id, nx, m', rfl, hsect, halters, hmarked, .inr ⟨rfl, hmark⟩⟩

theorem AdditionalTurn.grows (h : AdditionalTurn m id m' m'') : Grows m m'' := by
  rcases h.result with rfl | ⟨rfl, _⟩
  · exact h.alters.grows.trans (.remove m')
  · exact h.alters.grows.trans (.advance m')

theorem AdditionalTurn.ok (hok : MsgOk m) (hrest : m.rest = id :: nx)
    (h : AdditionalTurn m id m' m'') : MsgOk m'' ∧ m''.rest.length < m.rest.length := by
  have hok' := hok.alters h.alters
  have hrest' := h.alters.rest.trans hrest
  rcases h.result with rfl | ⟨rfl, _⟩
  · refine ⟨hok'.remove, ?_⟩
    rw [removeRrset, hrest', hrest]
    exact Nat.lt_succ_self _
  · refine ⟨hok'.advance, ?_⟩
    rw [advance_eq hrest', hrest]
    exact Nat.lt_succ_self _

def NamedBy (m : MsgParse) (ids : List Nat) (i : Nat) : Prop :=
  ∃ j ∈ ids, (m.heap j).sect ≠ .additional ∧ Gives (m.heap j) (m.heap i).dname

/-- The marks left and the addresses kept are for names of RRsets that the loops left behind. -/
structure Back (m : MsgParse) : Prop where
  rest : ∀ i ∈ m.rest, (m.heap i).sect = .additional
  marked : ∀ i ∈ m.rest, Marked (m.heap i) → NamedBy m m.done i
  named : ∀ i ∈ m.done, (m.heap i).sect = .additional → isAddress (m.heap i).type = true →
    NamedBy m m.done i

theorem NamedBy.grows (hok : MsgOk m) (hg : Grows m m') (hi : i ∈ m.rrsets)
    (h : NamedBy m m.done i) : NamedBy m' m'.done i := by
  obtain ⟨j, hj, hsect, hgives⟩ := h
  have hj' := hg.heap j (hok.done_lt hj)
  refine ⟨j, hg.mem_done hj, ?_, ?_⟩
  · rw [hj'.sect]
    exact hsect
  · rw [(hg.heap i (hok.fresh i hi)).dname]
    exact hj'.gives hgives

theorem AdditionalTurn.back (hb : Back m) (hok : MsgOk m) (hrest : m.rest = id :: nx)
    (h : AdditionalTurn m id m' m'') : Back m'' := by
  have hg := h.grows
  have hrest' := h.alters.rest.trans hrest
  have hmem : ∀ i ∈ m''.rest, i ∈ m.rest := fun i hi => hg.rest.subset hi
  have hsame : ∀ i ∈ m.rrsets, Same (m.heap i) (m''.heap i) :=
    fun i hi => hg.heap i (hok.fresh i hi)
  have hheap : m''.heap = m'.heap := by
    rcases h.result with rfl | ⟨rfl, _⟩
    · exact removeRrset_heap.1
    · rw [advance_eq hrest']
  constructor
  case rest =>
    intro i hi
    rw [(hsame i (mem_rrsets (hmem i hi))).sect]
    exact hb.rest i (hmem i hi)
  case marked =>
    intro i hi hm
    rw [hheap] at hm
    exact (hb.marked i (hmem i hi) (h.marked i hm)).grows hok hg (mem_rrsets (hmem i hi))
  case named =>
    intro i hi hsect haddr
    have hold : i ∈ m.done → NamedBy m'' m''.done i := by
      intro hdone
      have hi' : i ∈ m.rrsets := mem_append_left _ (mem_reverse.2 hdone)
      rw [(hsame i hi').sect] at hsect
      rw [(hsame i hi').type] at haddr
      exact (hb.named i hdone hsect haddr).grows hok hg hi'
    rcases h.result with rfl | ⟨rfl, hmark⟩
    · rw [removeRrset_heap.2.2, h.alters.done] at hi
      exact hold hi
    · rw [advance_eq hrest'] at hi
      rcases mem_cons.1 hi with rfl | hi
      · have hid := mem_rest hrest
        rw [(hsame i (mem_rrsets hid)).type] at haddr
        exact (hb.marked i hid (hmark haddr)).grows hok hg (mem_rrsets hid)
      · rw [h.alters.done] at hi
        exact hold hi

/-- A message as the parser makes it: sections in order, the answers counted, and no marks. -/
structure Parsed (m : MsgParse) : Prop where
  ok : MsgOk m
  unmarked : ∀ i ∈ m.rrsets, ¬ Marked (m.heap i)

def GlueNamed (m : MsgParse) : Prop :=
  ∀ i ∈ m.rrsets, (m.heap i).sect = .additional → isAddress (m.heap i).type = true →
    NamedBy m m.rrsets i

theorem suffix_length_lt (hrest : m.rest = id :: nx) (h : l <:+ nx) : l.length < m.rest.length := by
  rw [hrest, length_cons]
  exact Nat.lt_succ_of_le h.length_le

theorem answer_step {s s' : MsgParse × Name} (hs : MsgOk s.1 ∧ Front s.1)
    (hnext : normalizeAnswer env qinfo s = .next s') :
    (MsgOk s'.1 ∧ Front s'.1) ∧ s'.1.rest.length < s.1.rest.length := by
  obtain ⟨id, nx, hrest, hsect, hturn⟩ := normalizeAnswer_does.of_next hnext
  obtain ⟨hmoves, hsuffix⟩ := hturn.moves hs.1 hrest hsect
  exact ⟨⟨hmoves.ok, hmoves.front hs.2⟩, suffix_length_lt hrest hsuffix⟩

theorem authority_step {s s' : MsgParse × Bool} (hs : MsgOk s.1 ∧ Front s.1 ∧ NoAnswer s.1)
    (hnext : normalizeAuthority env qinfo s = .next s') :
    (MsgOk s'.1 ∧ Front s'.1 ∧ NoAnswer s'.1) ∧ s'.1.rest.length < s.1.rest.length := by
  obtain ⟨hok, hf, hn⟩ := hs
  obtain ⟨id, nx, hrest, hsect, hturn⟩ := normalizeAuthority_does.of_next hnext
  obtain ⟨hok', hlt⟩ := hturn.ok hok hrest
  exact ⟨⟨hok', hturn.front hf hok hrest hsect, hturn.noAnswer hok hn⟩, hlt⟩

theorem additional_step (hm : MsgOk m ∧ Back m)
    (hnext : normalizeAdditional env m = .next m') :
    (MsgOk m' ∧ Back m') ∧ m'.rest.length < m.rest.length := by
  obtain ⟨id, nx, _, hrest, _, hturn⟩ := normalizeAdditional_does.of_next hnext
  obtain ⟨hok, hlt⟩ := hturn.ok hm.1 hrest
  exact ⟨⟨hok, hturn.back hm.2 hm.1 hrest⟩, hlt⟩

theorem MsgOk.noAnswer (hok : MsgOk m)
    (hstop : ∀ id nx, m.rest = id :: nx → (m.heap id).sect ≠ .answer) : NoAnswer m := by
  intro i hi hsect
  cases hrest : m.rest with
  | nil =>
    rw [hrest] at hi
    cases hi
  | cons id nx =>
    have hle := hok.rank_le hrest hi
    have hne := hstop id nx hrest
    rw [MsgParse.rank, MsgParse.rank, hsect] at hle
    revert hle hne
    cases (m.heap id).sect <;> decide

theorem Front.back (hf : Front m) (hok : MsgOk m) (hn : NoAnswer m)
    (hstop : ∀ id nx, m.rest = id :: nx → (m.heap id).sect ≠ .authority) : Back m := by
  constructor
  case rest =>
    intro i hi
    cases hrest : m.rest with
    | nil =>
      rw [hrest] at hi
      cases hi
    | cons id nx =>
      have hle := hok.rank_le hrest hi
      have hne := hstop id nx hrest
      have hne' := hn id (mem_rest hrest)
      rw [MsgParse.rank, MsgParse.rank] at hle
      revert hle hne hne'
      cases (m.heap id).sect <;> cases (m.heap i).sect <;> decide
  case marked =>
    intro i hi hm
    obtain ⟨_, j, hj, hgives⟩ := hf.marked i (mem_rrsets hi) hm
    exact ⟨j, hj, hf.sect j hj, hgives⟩
  case named =>
    intro i hi hsect
    exact absurd hsect (hf.sect i hi)

structure NormalizeRun (env : ScrubEnv) (qinfo : QueryInfo) (m : MsgParse) (s : MsgParse × Name)
    (s' : MsgParse × Bool) (m' : MsgParse) : Prop where
  answer : Turns (normalizeAnswer env qinfo) (m, qinfo.qname) s
  answerEnd : normalizeAnswer env qinfo s = .stop
  authority : Turns (normalizeAuthority env qinfo) (s.1, false) s'
  additional : Turns (normalizeAdditional env) s'.1 m'
  ok : MsgOk s.1 ∧ MsgOk s'.1 ∧ MsgOk m'
  rest : m'.rest = []
  glue : GlueNamed m'

theorem Back.glueNamed (hb : Back m) (hrest : m.rest = []) : GlueNamed m := by
  intro i hi hsect haddr
  obtain ⟨j, hj, hnamed⟩ := hb.named i ((mem_rrsets_iff hrest).1 hi) hsect haddr
  exact ⟨j, (mem_rrsets_iff hrest).2 hj, hnamed⟩

theorem Parsed.front (hp : Parsed m) (hdone : m.done = []) : Front m := by
  constructor
  case sect =>
    intro i hi
    rw [hdone] at hi
    cases hi
  case marked => exact fun i hi hm => absurd hm (hp.unmarked i hi)

theorem normalizeLoops_run (hp : Parsed m) (hdone : m.done = [])
    (h : normalizeLoops env qinfo m = some m') : ∃ s s', NormalizeRun env qinfo m s s' m' := by
  obtain ⟨s, hs, h⟩ := Option.bind_eq_some_iff.1 h
  obtain ⟨s', hs', h⟩ := Option.bind_eq_some_iff.1 h
  have hlt := fun {m : MsgParse} => Nat.lt_succ_self m.rest.length
  obtain ⟨hturns₁, ⟨hok₁, hf₁⟩, hstop₁⟩ :=
    loop_turns (fun _ _ => answer_step) ⟨hp.ok, hp.front hdone⟩ hlt hs
  have hn₁ := hok₁.noAnswer (normalizeAnswer_does.of_stop hstop₁)
  obtain ⟨hturns₂, ⟨hok₂, hf₂, hn₂⟩, hstop₂⟩ := 
    loop_turns (fun _ _ => authority_step) ⟨hok₁, hf₁, hn₁⟩ hlt hs'
  have hb := hf₂.back hok₂ hn₂ (normalizeAuthority_does.of_stop hstop₂)
  obtain ⟨hturns₃, ⟨hok₃, hb₃⟩, hstop₃⟩ := 
    loop_turns (fun _ _ => additional_step) ⟨hok₂, hb⟩ hlt h
  have hrest : m'.rest = [] := by
    cases hrest : m'.rest with
    | nil => rfl
    | cons id nx =>
      exact absurd (hb₃.rest id (mem_rest hrest))
        (normalizeAdditional_does.of_stop hstop₃ id nx hrest)
  exact ⟨s, s', hturns₁, hstop₁, hturns₂, hturns₃, ⟨hok₁, hok₂, hok₃⟩, hrest, hb₃.glueNamed hrest⟩

theorem Parsed.rewind (h : Parsed m) : Parsed m.rewind := ⟨h.ok.rewind, h.unmarked⟩

/-- `scrub_normalize` keeps the order; of an answer it removes the addresses that no RRset names. -/
theorem scrubNormalize_ok (hp : Parsed m) (h : scrubNormalize env qinfo m = some m') :
    MsgOk m' ∧ (m.rcode = rcodeNoerror ∨ m.rcode = rcodeNxdomain → GlueNamed m') := by
  rw [scrubNormalize] at h
  split at h
  case isTrue hcode =>
    cases h
    exact ⟨hp.ok, fun hor => absurd hor (not_or.2 hcode)⟩
  case isFalse =>
    obtain ⟨_, _, hrun⟩ := normalizeLoops_run hp.rewind rfl h
    exact ⟨hrun.ok.2.2, fun _ => hrun.glue⟩

end CwdGate.Iterator
