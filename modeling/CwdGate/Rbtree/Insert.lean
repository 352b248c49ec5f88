import CwdGate.Lib.RedBlack

namespace CwdGate.Rbtree
open Lib List Function
open ColorTree hiding node

/-- The root pointer, and the fields of all nodes. Address 0 is the sentinel `RBTREE_NULL`. -/
structure RbHeap where
  root : Nat
  parent : Nat → Nat
  kid : Side → Nat → Nat
  color : Nat → Color

namespace RbHeap

@[simps -fullyApplied] def setRoot (h : RbHeap) (p : Nat) : RbHeap := { h with root := p }

@[simps -fullyApplied root kid color] def setParent (h : RbHeap) (x p : Nat) : RbHeap :=
  { h with parent := update h.parent x p }

@[simps -fullyApplied root parent color] def setKid (h : RbHeap) (d : Side) (x p : Nat) : RbHeap :=
  { h with kid := update h.kid d (update (h.kid d) x p) }

@[simps -fullyApplied root parent kid] def setColor (h : RbHeap) (x : Nat) (c : Color) : RbHeap :=
  { h with color := update h.color x c }

section fields
variable (h : RbHeap) (d e : Side) (x y p : Nat) (c : Color)

@[simp] theorem setParent_parent :
    (h.setParent x p).parent y = if y = x then p else h.parent y := update_apply ..

@[simp] theorem setKid_kid : (h.setKid d x p).kid e y = if e = d ∧ y = x then p else h.kid e y := by
  by_cases he : e = d
  · subst he
    simp [setKid, update_apply]
  · simp [setKid, he]

@[simp] theorem setColor_color :
    (h.setColor x c).color y = if y = x then c else h.color y := update_apply ..

end fields

/-- `rbtree_rotate_left` and, mirrored, `rbtree_rotate_right`. -/
def rotate (d : Side) (h : RbHeap) (node : Nat) : RbHeap :=
  let up := h.kid d.other node
  let h := h.setKid d.other node (h.kid d up)
  let h := if h.kid d up ≠ 0 then h.setParent (h.kid d up) node else h
  let h := h.setParent up (h.parent node)
  let h :=
    if h.parent node ≠ 0 then
      if node = h.kid d (h.parent node) then h.setKid d (h.parent node) up
      else h.setKid d.other (h.parent node) up
    else h.setRoot up
  let h := h.setKid d up node
  h.setParent node up

def rotateLeft (h : RbHeap) (node : Nat) : RbHeap := h.rotate .left node

def rotateRight (h : RbHeap) (node : Nat) : RbHeap := h.rotate .right node

end RbHeap

/-- The nodes of a tree hold it, below the node `par`. -/
def Rep (h : RbHeap) : ColorTree → Nat → Prop
  | .leaf, _ => True
  | .node c l x r, par => x ≠ 0 ∧ h.parent x = par ∧ h.color x = c ∧
    h.kid .left x = l.ptr ∧ h.kid .right x = r.ptr ∧ Rep h l x ∧ Rep h r x

/-- The nodes above a place hold the frames, down to the pointer `p` to the place. -/
def RepCtx (h : RbHeap) : List Frame → Nat → Prop
  | [], p => h.root = p
  | f :: ctx, p => f.x ≠ 0 ∧ h.parent f.x = parentOf ctx ∧ h.color f.x = f.color ∧
    h.kid f.side f.x = p ∧ h.kid f.side.other f.x = f.sib.ptr ∧ Rep h f.sib f.x ∧
    RepCtx h ctx f.x

def ctxIds : List Frame → List Nat
  | [] => []
  | f :: ctx => f.x :: (f.sib.inorder ++ ctxIds ctx)

structure Sentinel (h : RbHeap) : Prop where
  parent : h.parent 0 = 0
  kid : ∀ d, h.kid d 0 = 0
  color : h.color 0 = .black

/-- The heap holds the tree `t` in the place `ctx`. -/
structure Focus (h : RbHeap) (ctx : List Frame) (t : ColorTree) : Prop where
  frames : RepCtx h ctx t.ptr
  tree : Rep h t (parentOf ctx)
  nodup : (ctxIds ctx ++ t.inorder).Nodup
  null : Sentinel h

abbrev Represents (h : RbHeap) (t : ColorTree) : Prop := Focus h [] t

section rep
variable {h : RbHeap} {t : ColorTree} {ctx : List Frame} {d : Side} {c : Color} {x : Nat}
  {a b : ColorTree}

theorem rep_mk : Rep h (.mk d c x a b) par ↔ x ≠ 0 ∧ h.parent x = par ∧ h.color x = c ∧
    h.kid d x = a.ptr ∧ h.kid d.other x = b.ptr ∧ Rep h a x ∧ Rep h b x := by
  cases d with
  | left => rfl
  | right =>
    constructor
    · rintro ⟨h1, h2, h3, h4, h5, h6, h7⟩
      exact ⟨h1, h2, h3, h5, h4, h7, h6⟩
    · rintro ⟨h1, h2, h3, h4, h5, h6, h7⟩
      exact ⟨h1, h2, h3, h5, h4, h7, h6⟩

theorem Rep.ptr_ne_zero (hr : Rep h t par) (ht : t ≠ .leaf) : t.ptr ≠ 0 := by
  cases t with
  | leaf => exact absurd rfl ht
  | node c l x r => exact hr.1

theorem Rep.ne_zero (hr : Rep h t par) : ∀ q ∈ t.inorder, q ≠ 0 := by
  induction t generalizing par with
  | leaf => intro q hq; cases hq
  | node c l x r ihl ihr =>
    obtain ⟨hx, -, -, -, -, hl, hr⟩ := hr
    exact forall_mem_append.2 ⟨ihl hl, forall_mem_cons.2 ⟨hx, ihr hr⟩⟩

theorem ptr_mem (ht : t ≠ .leaf) : t.ptr ∈ t.inorder := by
  cases t with
  | leaf => exact absurd rfl ht
  | node c l x r => simp [ColorTree.ptr, ColorTree.inorder]

theorem Rep.congr (hr : Rep h t par) (he : ∀ q ∈ t.inorder, h'.parent q = h.parent q ∧
    h'.color q = h.color q ∧ ∀ e, h'.kid e q = h.kid e q) : Rep h' t par := by
  induction t generalizing par with
  | leaf => trivial
  | node c l x r ihl ihr =>
    obtain ⟨h1, h2, h3, h4, h5, h6, h7⟩ := hr
    obtain ⟨e1, e2, e3⟩ := he x (by simp [ColorTree.inorder])
    refine ⟨h1, e1.trans h2, e2.trans h3, (e3 _).trans h4, (e3 _).trans h5, ?_, ?_⟩
    · exact ihl h6 fun q hq => he q (by simp [ColorTree.inorder, hq])
    · exact ihr h7 fun q hq => he q (by simp [ColorTree.inorder, hq])

theorem Rep.reparent (hr : Rep h t par) (hn : t.inorder.Nodup)
    (he : ∀ q ∈ t.inorder, h'.parent q = (if q = t.ptr then par' else h.parent q) ∧
      h'.color q = h.color q ∧ ∀ e, h'.kid e q = h.kid e q) : Rep h' t par' := by
  cases t with
  | leaf => trivial
  | node c l x r =>
    obtain ⟨h1, h2, h3, h4, h5, h6, h7⟩ := hr
    obtain ⟨e1, e2, e3⟩ := he x (by simp [ColorTree.inorder])
    have hx := (nodup_cons.1 (nodup_middle.1 hn)).1
    have hsub : ∀ q, q ∈ l.inorder ++ r.inorder → h'.parent q = h.parent q ∧
        h'.color q = h.color q ∧ ∀ e, h'.kid e q = h.kid e q := by
      intro q hq
      have hqx : q ≠ x := ne_of_mem_of_not_mem hq hx
      obtain ⟨e1, e2, e3⟩ := he q (by
        rcases mem_append.1 hq with hq | hq <;> simp [ColorTree.inorder, hq])
      rw [if_neg (show q ≠ (ColorTree.node c l x r).ptr from hqx)] at e1
      exact ⟨e1, e2, e3⟩
    rw [ColorTree.ptr, if_pos rfl] at e1
    refine ⟨h1, e1, e2.trans h3, (e3 _).trans h4, (e3 _).trans h5, ?_, ?_⟩
    · exact h6.congr fun q hq => hsub q (mem_append_left _ hq)
    · exact h7.congr fun q hq => hsub q (mem_append_right _ hq)

theorem RepCtx.congr (hr : RepCtx h ctx p) (hn : (ctxIds ctx).Nodup)
    (hroot : h'.root = if ctx = [] then p' else h.root)
    (he : ∀ q ∈ ctxIds ctx, h'.parent q = h.parent q ∧ h'.color q = h.color q)
    (hk : ∀ f rest, ctx = f :: rest → h'.kid f.side f.x = p' ∧
      h'.kid f.side.other f.x = h.kid f.side.other f.x)
    (hk' : ∀ q ∈ ctxIds ctx, q ≠ parentOf ctx → ∀ e, h'.kid e q = h.kid e q) :
    RepCtx h' ctx p' := by
  induction ctx generalizing p p' with
  | nil => exact hroot.trans (if_pos rfl)
  | cons f ctx ih =>
    obtain ⟨h1, h2, h3, h4, h5, h6, h7⟩ := hr
    obtain ⟨hfn, hn'⟩ := nodup_cons.1 hn
    obtain ⟨e1, e2⟩ := he f.x mem_cons_self
    obtain ⟨k1, k2⟩ := hk f ctx rfl
    have hsib : ∀ q, q ∈ f.sib.inorder ++ ctxIds ctx → ∀ e, h'.kid e q = h.kid e q :=
      fun q hq => hk' q (mem_cons_of_mem _ hq) (ne_of_mem_of_not_mem hq hfn)
    refine ⟨h1, e1.trans h2, e2.trans h3, k1, k2.trans h5, ?_, ?_⟩
    · refine h6.congr fun q hq => ?_
      have hm := mem_append_left (ctxIds ctx) hq
      obtain ⟨e1, e2⟩ := he q (mem_cons_of_mem _ hm)
      exact ⟨e1, e2, hsib q hm⟩
    · refine ih h7 (nodup_append.1 hn').2.1 ?_ ?_ ?_ ?_
      · rw [hroot, if_neg (by simp)]
        cases ctx with
        | nil => rw [if_pos rfl]; exact h7
        | cons g ctx => rw [if_neg (by simp)]
      · exact fun q hq => he q (mem_cons_of_mem _ (mem_append_right _ hq))
      · intro g rest hg
        subst hg
        have hm : g.x ∈ f.sib.inorder ++ ctxIds (g :: rest) :=
          mem_append_right _ mem_cons_self
        exact ⟨(hsib _ hm _).trans h7.2.2.2.1, hsib _ hm _⟩
      · exact fun q hq _ => hsib q (mem_append_right _ hq)

theorem RepCtx.ne_zero (hr : RepCtx h ctx p) : ∀ q ∈ ctxIds ctx, q ≠ 0 := by
  induction ctx generalizing p with
  | nil => intro q hq; cases hq
  | cons f ctx ih =>
    obtain ⟨h1, -, -, -, -, h6, h7⟩ := hr
    exact forall_mem_cons.2 ⟨h1, forall_mem_append.2 ⟨h6.ne_zero, ih h7⟩⟩

theorem RepCtx.root_mem (hr : RepCtx h (f :: ctx) p) : h.root ∈ ctxIds (f :: ctx) := by
  induction ctx generalizing f p with
  | nil =>
    rw [show h.root = f.x from hr.2.2.2.2.2.2]
    exact mem_cons_self
  | cons g ctx ih =>
    exact mem_cons_of_mem _ (mem_append_right _ (ih hr.2.2.2.2.2.2))

theorem parentOf_mem : parentOf ctx ∈ ctxIds ctx ∨ ctx = [] := by
  cases ctx with
  | nil => exact .inr rfl
  | cons f ctx => exact .inl mem_cons_self

theorem ctxIds_cons_perm (d : Side) (c : Color) (x : Nat) (a b : ColorTree) (ctx : List Frame) :
    (ctxIds (⟨d, c, x, b⟩ :: ctx) ++ a.inorder).Perm
      (ctxIds ctx ++ (ColorTree.mk d c x a b).inorder) := by
  have h1 := (inorder_mk_perm d c x a b).append_left (ctxIds ctx)
  refine List.Perm.trans ?_ h1.symm
  refine List.Perm.trans ?_ perm_middle.symm
  refine List.Perm.cons x ?_
  refine (perm_append_comm.append_right _).trans ?_
  rw [append_assoc]
  exact perm_append_comm.append_left _

theorem ctxIds_fill_perm (ctx : List Frame) (t : ColorTree) :
    (ctxIds ctx ++ t.inorder).Perm (fill ctx t).inorder := by
  induction ctx generalizing t with
  | nil => exact List.Perm.refl _
  | cons f ctx ih => exact (ctxIds_cons_perm ..).trans (ih _)

theorem length_le_ctxIds (ctx : List Frame) : ctx.length ≤ (ctxIds ctx).length := by
  induction ctx with
  | nil => exact Nat.le_refl 0
  | cons f ctx ih =>
    simp only [ctxIds, length_cons, length_append]
    omega

theorem focus_cons : Focus h (⟨d, c, x, b⟩ :: ctx) a ↔ Focus h ctx (.mk d c x a b) := by
  have hnd := (ctxIds_cons_perm d c x a b ctx).nodup_iff
  constructor
  · rintro ⟨⟨h1, h2, h3, h4, h5, h6, h7⟩, ht, hn, h0⟩
    refine ⟨?_, ?_, hnd.1 hn, h0⟩
    · rw [ptr_mk]
      exact h7
    · exact rep_mk.2 ⟨h1, h2, h3, h4, h5, ht, h6⟩
  · rintro ⟨hf, ht, hn, h0⟩
    rw [ptr_mk] at hf
    obtain ⟨h1, h2, h3, h4, h5, h6, h7⟩ := rep_mk.1 ht
    exact ⟨⟨h1, h2, h3, h4, h5, h7, hf⟩, h6, hnd.2 hn, h0⟩

theorem represents_fill : Represents h (fill ctx t) ↔ Focus h ctx t := by
  induction ctx generalizing t with
  | nil => rfl
  | cons f ctx ih => exact ih.trans focus_cons.symm

end rep

section focus
variable {h : RbHeap} {ctx : List Frame} {d : Side} {c : Color} {x : Nat} {a b : ColorTree}

theorem Focus.node (hf : Focus h ctx (.mk d c x a b)) :
    (x ≠ 0 ∧ h.parent x = parentOf ctx ∧ h.color x = c ∧ h.kid d x = a.ptr ∧
      h.kid d.other x = b.ptr) ∧
    x ∉ ctxIds ctx ∧ x ∉ a.inorder ∧ x ∉ b.inorder ∧ (∀ q ∈ a.inorder, q ∉ b.inorder) ∧
    (∀ q ∈ ctxIds ctx, q ∉ a.inorder ∧ q ∉ b.inorder) := by
  obtain ⟨h1, h2, h3, h4, h5, -, -⟩ := rep_mk.1 hf.tree
  obtain ⟨-, hn2, hn3⟩ := nodup_append.1 hf.nodup
  obtain ⟨⟨n1, n2⟩, -, -, n3⟩ := nodup_mk.1 hn2
  refine ⟨⟨h1, h2, h3, h4, h5⟩, ?_, n1, n2, n3, fun q hq => ⟨?_, ?_⟩⟩
  · exact fun hm => hn3 x hm x (mem_mk.2 (.inl rfl)) rfl
  · exact fun hm => hn3 q hq q (mem_mk.2 (.inr (.inl hm))) rfl
  · exact fun hm => hn3 q hq q (mem_mk.2 (.inr (.inr hm))) rfl

theorem Focus.color_ptr (hf : Focus h ctx t) : h.color t.ptr = t.color := by
  cases t with
  | leaf => exact hf.null.color
  | node c l x r => exact hf.tree.2.2.1

theorem Focus.parent_ptr (hf : Focus h ctx t) (ht : t ≠ .leaf) : h.parent t.ptr = parentOf ctx := by
  cases t with
  | leaf => exact absurd rfl ht
  | node c l x r => exact hf.tree.2.1

theorem Focus.ptr_ne_root (hf : Focus h (f :: ctx) t) (ht : t ≠ .leaf) : t.ptr ≠ h.root := by
  have hroot := hf.frames.root_mem
  exact fun he => (nodup_append.1 hf.nodup).2.2 _ hroot _ (ptr_mem ht) he.symm

theorem Focus.sibling (hf : Focus h (⟨d, c, x, b⟩ :: ctx) a) :
    Focus h (⟨d.other, c, x, a⟩ :: ctx) b := by
  rw [focus_cons, mk_other]
  exact focus_cons.1 hf

theorem Focus.side_eq (hf : Focus h (⟨d, c, x, b⟩ :: ctx) a) (ha : a ≠ .leaf) (s : Side) :
    h.kid s x = a.ptr ↔ s = d := by
  obtain ⟨⟨-, -, -, hk, hk'⟩, -, -, -, hab, -⟩ := (focus_cons.1 hf).node
  constructor
  · intro hs
    rcases Side.eq_or_other d s with rfl | rfl
    · rfl
    · rw [hk'] at hs
      have hb : b ≠ .leaf := fun hl => hf.tree.ptr_ne_zero ha (by rw [← hs, hl]; rfl)
      refine absurd (ptr_mem hb) (hab _ ?_)
      rw [hs]
      exact ptr_mem ha
  · rintro rfl
    exact hk

theorem Focus.setColor (hf : Focus h ctx (.mk d c x a b)) (c' : Color) :
    Focus (h.setColor x c') ctx (.mk d c' x a b) := by
  obtain ⟨⟨h1, h2, -, h4, h5⟩, n0, n1, n2, -, -⟩ := hf.node
  obtain ⟨-, -, -, -, -, ha, hb⟩ := rep_mk.1 hf.tree
  have hframes := hf.frames
  have hnodup := hf.nodup
  rw [ptr_mk] at hframes
  refine ⟨?_, ?_, ?_, ?_⟩
  · rw [ptr_mk]
    refine hframes.congr (nodup_append.1 hnodup).1 ?_ ?_ ?_ ?_
    · by_cases hc : ctx = []
      · subst hc
        exact hframes
      · rw [if_neg hc]
        rfl
    · intro q hq
      simp [ne_of_mem_of_not_mem hq n0]
    · intro f rest hctx
      subst hctx
      exact ⟨hframes.2.2.2.1, rfl⟩
    · intro q _ _ e
      rfl
  · refine rep_mk.2 ⟨h1, h2, by simp, h4, h5, ?_, ?_⟩
    · exact ha.congr fun q hq => ⟨rfl, by simp [ne_of_mem_of_not_mem hq n1], fun _ => rfl⟩
    · exact hb.congr fun q hq => ⟨rfl, by simp [ne_of_mem_of_not_mem hq n2], fun _ => rfl⟩
  · cases d <;> exact hnodup
  · exact ⟨hf.null.parent, hf.null.kid, by simpa [h1.symm] using hf.null.color⟩

end focus

def setHole (h : RbHeap) : List Frame → Nat → RbHeap
  | [], p => h.setRoot p
  | f :: _, p => h.setKid f.side f.x p

@[simp] theorem setHole_parent : (setHole h ctx p).parent = h.parent := by
  cases ctx <;> rfl

@[simp] theorem setHole_color : (setHole h ctx p).color = h.color := by
  cases ctx <;> rfl

theorem setHole_kid_of_ne (hq : q ≠ parentOf ctx) : (setHole h ctx p).kid s q = h.kid s q := by
  cases ctx with
  | nil => rfl
  | cons f ctx => simp [setHole, show q ≠ f.x from hq]

theorem setHole_kid_of_notMem (hq : q ∉ ctxIds ctx) (s : Side) :
    (setHole h ctx p).kid s q = h.kid s q := by
  cases ctx with
  | nil => rfl
  | cons f ctx => exact setHole_kid_of_ne (show q ≠ parentOf (f :: ctx) from fun he => hq (by
      rw [he]
      exact mem_cons_self))

theorem setHole_frames (hr : RepCtx h ctx p) (hn : (ctxIds ctx).Nodup)
    (hroot : h'.root = (setHole h ctx p').root)
    (he : ∀ q ∈ ctxIds ctx, h'.parent q = h.parent q ∧ h'.color q = h.color q)
    (hk : ∀ q ∈ ctxIds ctx, ∀ s, h'.kid s q = (setHole h ctx p').kid s q) : RepCtx h' ctx p' := by
  refine hr.congr hn ?_ he ?_ ?_
  · rw [hroot]
    cases ctx with
    | nil => rfl
    | cons f ctx => rfl
  · intro f rest hctx
    subst hctx
    rw [hk _ mem_cons_self, hk _ mem_cons_self]
    simp [setHole]
  · intro q hq hne s
    rw [hk q hq, setHole_kid_of_ne hne]

def adopt (h : RbHeap) (p x : Nat) : RbHeap :=
  if p ≠ 0 then h.setParent p x else h

@[simp] theorem adopt_kid : (adopt h p x).kid = h.kid := by
  unfold adopt
  split <;> rfl

@[simp] theorem adopt_color : (adopt h p x).color = h.color := by
  unfold adopt
  split <;> rfl

@[simp] theorem adopt_root : (adopt h p x).root = h.root := by
  unfold adopt
  split <;> rfl

@[simp] theorem adopt_parent :
    (adopt h p x).parent q = if p ≠ 0 ∧ q = p then x else h.parent q := by
  unfold adopt
  by_cases h0 : p = 0 <;> simp [h0]

theorem Focus.rotate_eq (hf : Focus h ctx (.mk d c x a (.mk d c' y b e))) :
    h.rotate d x = ((setHole ((adopt (h.setKid d.other x b.ptr) b.ptr x).setParent y
      (parentOf ctx)) ctx y).setKid d y x).setParent x y := by
  obtain ⟨⟨hx0, hxp, -, -, hxk⟩, n0, -, n2, -, -⟩ := hf.node
  obtain ⟨-, -, -, -, -, -, hrep⟩ := rep_mk.1 hf.tree
  obtain ⟨hy0, -, -, hyk, -, hb, -⟩ := rep_mk.1 hrep
  rw [mem_mk, not_or, not_or] at n2
  obtain ⟨hxy, hxb, -⟩ := n2
  rw [ptr_mk] at hxk
  have hxbp : ¬(b.ptr ≠ 0 ∧ x = b.ptr) := fun ⟨h0, he⟩ => hxb (by
    rw [he]
    exact ptr_mem fun hl => h0 (by rw [hl]; rfl))
  have hk1 : (h.setKid d.other x b.ptr).kid d y = b.ptr := by simp [hyk]
  simp only [RbHeap.rotate, hxk, hyk, hk1, ← adopt.eq_1]
  simp only [RbHeap.setParent_parent, RbHeap.setParent_kid, adopt_parent, adopt_kid, if_neg hxbp, if_neg hxy,
    RbHeap.setKid_parent, hxp, RbHeap.setKid_kid, Side.ne_other, false_and, if_false]
  congr 2
  cases ctx with
  | nil => rfl
  | cons f ctx =>
    obtain ⟨f1, -, -, f4, f5, f6, -⟩ := hf.frames
    rw [ptr_mk] at f4
    rw [if_pos (show parentOf (f :: ctx) ≠ 0 from f1)]
    rcases Side.eq_or_other d f.side with hs | hs
    · rw [hs] at f4
      rw [if_pos (show x = h.kid d (parentOf (f :: ctx)) from f4.symm), setHole, hs]
      rfl
    · rw [hs, Side.other_other] at f5
      have hne : x ≠ h.kid d (parentOf (f :: ctx)) := by
        intro he
        have he' : x = f.sib.ptr := he.trans f5
        refine n0 (mem_cons_of_mem _ (mem_append_left _ ?_))
        rw [he']
        exact ptr_mem fun hl => hx0 (by rw [he', hl]; rfl)
      rw [if_neg hne, setHole, hs]
      rfl

theorem Focus.rotate (hf : Focus h ctx (.mk d c x a (.mk d c' y b e))) :
    Focus (h.rotate d x) ctx (.mk d c' y (.mk d c x a b) e) := by
  have heq := hf.rotate_eq
  obtain ⟨⟨hx0, hxp, hxc, hxa, -⟩, n0, n1, n2, n3, n4⟩ := hf.node
  obtain ⟨-, -, -, -, -, ha, hrep⟩ := rep_mk.1 hf.tree
  obtain ⟨hy0, -, hyc, -, hye, hb, he⟩ := rep_mk.1 hrep
  obtain ⟨-, hnd2, -⟩ := nodup_append.1 hf.nodup
  obtain ⟨-, -, hnd3, -⟩ := nodup_mk.1 hnd2
  obtain ⟨⟨m1, m2⟩, hbn, -, m3⟩ := nodup_mk.1 hnd3
  simp only [mem_mk, not_or] at n2 n3 n4
  obtain ⟨hxy, hxb, hxe⟩ := n2
  have hyctx : y ∉ ctxIds ctx := fun hm => (n4 y hm).2.1 rfl
  have hbp : b.ptr ≠ 0 → b.ptr ∈ b.inorder := fun h0 => ptr_mem fun hl => h0 (by rw [hl]; rfl)
  have hcolor : (h.rotate d x).color = h.color := by
    rw [heq]
    simp
  have hparent : ∀ q, (h.rotate d x).parent q = if q = x then y else if q = y then parentOf ctx
      else if b.ptr ≠ 0 ∧ q = b.ptr then x else h.parent q := by
    intro q
    rw [heq]
    simp
  have hkid : ∀ q, q ∉ ctxIds ctx → ∀ s, (h.rotate d x).kid s q =
      if s = d ∧ q = y then x else if s = d.other ∧ q = x then b.ptr else h.kid s q := by
    intro q hq s
    rw [heq]
    simp [setHole_kid_of_notMem hq]
  have hroot : (h.rotate d x).root = (setHole h ctx y).root := by
    rw [heq]
    cases ctx <;> simp [setHole]
  have hkidP : ∀ q ∈ ctxIds ctx, ∀ s, (h.rotate d x).kid s q = (setHole h ctx y).kid s q := by
    intro q hq s
    have hqx := ne_of_mem_of_not_mem hq n0
    have hqy := ne_of_mem_of_not_mem hq hyctx
    rw [heq]
    cases ctx with
    | nil => cases hq
    | cons f ctx =>
      simp [setHole, hqx, hqy]
  -- the trees that only move keep their fields
  have hsame : ∀ q, q ≠ x → q ≠ y → q ∉ ctxIds ctx → q ∉ b.inorder →
      (h.rotate d x).parent q = h.parent q ∧ (h.rotate d x).color q = h.color q ∧
        ∀ s, (h.rotate d x).kid s q = h.kid s q := by
    intro q hqx hqy hqc hqb
    refine ⟨?_, by rw [hcolor], fun s => ?_⟩
    · rw [hparent, if_neg hqx, if_neg hqy, if_neg fun hc => hqb (by rw [hc.2]; exact hbp hc.1)]
    · rw [hkid q hqc, if_neg fun hc => hqy hc.2, if_neg fun hc => hqx hc.2]
  have hframes := hf.frames
  refine ⟨?_, ?_, ?_, ?_⟩
  · rw [ptr_mk]
    refine setHole_frames hframes (nodup_append.1 hf.nodup).1 hroot (fun q hq => ?_) hkidP
    obtain ⟨-, hqy, hqb, -⟩ := n4 q hq
    refine ⟨?_, by rw [hcolor]⟩
    rw [hparent, if_neg (ne_of_mem_of_not_mem hq n0), if_neg hqy,
      if_neg fun hc => hqb (by rw [hc.2]; exact hbp hc.1)]
  · refine rep_mk.2 ⟨hy0, ?_, by rw [hcolor, hyc], ?_, ?_, rep_mk.2 ⟨hx0, ?_, by rw [hcolor, hxc],
      ?_, ?_, ?_, ?_⟩, ?_⟩
    · rw [hparent, if_neg (Ne.symm hxy), if_pos rfl]
    · rw [hkid y hyctx, if_pos ⟨rfl, rfl⟩, ptr_mk]
    · rw [hkid y hyctx, if_neg (by simp), if_neg (by simp [Ne.symm hxy]), hye]
    · rw [hparent, if_pos rfl]
    · rw [hkid x n0, if_neg (by simp [hxy]), if_neg (by simp), hxa]
    · rw [hkid x n0, if_neg (by simp), if_pos ⟨rfl, rfl⟩]
    · exact ha.congr fun q hq => hsame q (ne_of_mem_of_not_mem hq n1) (n3 q hq).1
        (fun hm => (n4 q hm).1 hq) (n3 q hq).2.1
    · refine hb.reparent hbn fun q hq => ?_
      have hqx := ne_of_mem_of_not_mem hq hxb
      have hqy := ne_of_mem_of_not_mem hq m1
      have hqc : q ∉ ctxIds ctx := fun hm => (n4 q hm).2.2.1 hq
      refine ⟨?_, by rw [hcolor], fun s => ?_⟩
      · rw [hparent, if_neg hqx, if_neg hqy]
        by_cases hqp : q = b.ptr
        · rw [if_pos ⟨hqp ▸ hb.ne_zero q hq, hqp⟩, if_pos hqp]
        · rw [if_neg fun hc => hqp hc.2, if_neg hqp]
      · rw [hkid q hqc, if_neg fun hc => hqy hc.2, if_neg fun hc => hqx hc.2]
    · exact he.congr fun q hq => hsame q (ne_of_mem_of_not_mem hq hxe)
        (ne_of_mem_of_not_mem hq m2) (fun hm => (n4 q hm).2.2.2 hq) (fun hm => m3 q hm hq)
  · have hin : (ColorTree.mk d c' y (.mk d c x a b) e).inorder =
        (ColorTree.mk d c x a (.mk d c' y b e)).inorder := by
      cases d <;> simp [ColorTree.mk, ColorTree.inorder]
    rw [hin]
    exact hf.nodup
  · have h0c : 0 ∉ ctxIds ctx := fun hm => hframes.ne_zero 0 hm rfl
    have h0b : 0 ∉ b.inorder := fun hm => hb.ne_zero 0 hm rfl
    obtain ⟨z1, z2, z3⟩ := hsame 0 hx0.symm hy0.symm h0c h0b
    exact ⟨z1.trans hf.null.parent, fun s => (z3 s).trans (hf.null.kid s), z2.trans hf.null.color⟩

/-- A tree with the sorting keys of the nodes. -/
structure RbTree (K : Type) where
  heap : RbHeap
  count : Nat
  key : Nat → K

/-- `rbtree_init`: the fields of nodes outside the tree are arbitrary, those of the sentinel
are not. -/
def rbtreeInit {K : Type} (h : RbHeap) (key : Nat → K) : RbTree K where
  heap :=
    { root := 0
      parent := update h.parent 0 0
      kid := fun d => update (h.kid d) 0 0
      color := update h.color 0 .black }
  count := 0
  key := key

/-- The loop of `rbtree_insert_fixup`; the two sides of the source are mirror images. -/
def insertFixupLoop : Nat → RbHeap → Nat → RbHeap
  | fuel + 1, h, node =>
    if node ≠ h.root ∧ h.color (h.parent node) = .red then
      let d : Side :=
        if h.parent node = h.kid .left (h.parent (h.parent node)) then .left else .right
      let uncle := h.kid d.other (h.parent (h.parent node))
      if h.color uncle = .red then
        let h := h.setColor (h.parent node) .black
        let h := h.setColor uncle .black
        let h := h.setColor (h.parent (h.parent node)) .red
        insertFixupLoop fuel h (h.parent (h.parent node))
      else
        let (h, node) :=
          if node = h.kid d.other (h.parent node) then
            (h.rotate d (h.parent node), h.parent node)
          else (h, node)
        let h := h.setColor (h.parent node) .black
        let h := h.setColor (h.parent (h.parent node)) .red
        let h := h.rotate d.other (h.parent (h.parent node))
        insertFixupLoop fuel h node
    else h
  | 0, h, _ => h

def insertFixup (fuel : Nat) (h : RbHeap) (node : Nat) : RbHeap :=
  let h := insertFixupLoop fuel h node
  h.setColor h.root .black

section insert
variable (cmp : K → K → Ordering)

/-- The search loop of `rbtree_insert`: the parent with the last comparison, or nothing for a
duplicate. -/
def insertSearch (t : RbTree K) (k : K) : Nat → Nat → Nat → Ordering → Option (Nat × Ordering)
  | fuel + 1, node, parent, r =>
    if node = 0 then some (parent, r)
    else if cmp k (t.key node) = .eq then none
    else if cmp k (t.key node) = .lt then
      insertSearch t k fuel (t.heap.kid .left node) node (cmp k (t.key node))
    else insertSearch t k fuel (t.heap.kid .right node) node (cmp k (t.key node))
  | 0, _, _, _ => none

def linkNode (h : RbHeap) (data parent : Nat) (r : Ordering) : RbHeap :=
  let h := h.setParent data parent
  let h := (h.setKid .right data 0).setKid .left data 0
  let h := h.setColor data .red
  if parent ≠ 0 then
    if r = .lt then h.setKid .left parent data else h.setKid .right parent data
  else h.setRoot data

def rbtreeInsert (t : RbTree K) (data : Nat) : RbTree K × Option Nat :=
  match insertSearch cmp t (t.key data) (t.count + 1) t.heap.root 0 .eq with
  | none => (t, none)
  | some (parent, r) =>
    ({ t with heap := insertFixup (t.count + 2) (linkNode t.heap data parent r) data
              count := t.count + 1 }, some data)

end insert

/-- The heap holds a balanced tree with these nodes in order; the root may be red. -/
def Balanced (h : RbHeap) (nodes : List Nat) : Prop :=
  ∃ t c m, Represents h t ∧ t.inorder = nodes ∧ t.RB c m

theorem Focus.balanced (hf : Focus h ctx t) (ht : t.RB c n) (hctx : RBCtx ctx c n) :
    Balanced h (fill ctx t).inorder := by
  obtain ⟨m, hm⟩ := hctx.fill ht
  exact ⟨_, _, m, represents_fill.2 hf, rfl, hm⟩

theorem Focus.insert_rotate {g p node : Nat} (fuel : Nat)
    (hf : Focus h ctx (.mk d .black g (.mk d .red p (.mk d .red node u v) s) unc))
    (hctx : RBCtx ctx .black (n + 1)) (hn : (ColorTree.mk d .red node u v).RB .red n)
    (hs : s.RB .black n) (hu : unc.RB .black n) :
    Balanced (insertFixupLoop fuel (((h.setColor p .black).setColor g .red).rotate d.other g) node)
      (fill ctx (.mk d .black g (.mk d .red p (.mk d .red node u v) s) unc)).inorder := by
  have h1 := (focus_cons.2 hf).setColor .black
  have h2 := (focus_cons.1 h1).setColor .red
  rw [← mk_other d, ← mk_other d] at h2
  have h3 := h2.rotate
  set h' := ((h.setColor p .black).setColor g .red).rotate d.other g
  have hexit : insertFixupLoop fuel h' node = h' := by
    cases fuel with
    | zero => rfl
    | succ fuel =>
      rw [insertFixupLoop, if_neg]
      rintro ⟨-, hred⟩
      obtain ⟨-, -, hp, -, -, -, hnode⟩ := rep_mk.1 h3.tree
      rw [(rep_mk.1 hnode).2.1, hp] at hred
      cases hred
  have hin : (ColorTree.mk d .black g (.mk d .red p (.mk d .red node u v) s) unc).inorder =
      (ColorTree.mk d.other .black p (.mk d.other .red g unc s) (.mk d .red node u v)).inorder := by
    cases d <;> simp [Side.other, ColorTree.mk, ColorTree.inorder]
  rw [hexit, inorder_fill_congr ctx hin]
  exact h3.balanced ((hu.mk_red _ hs).mk_black _ hn) hctx

theorem Focus.insertFixupLoop {fuel : Nat} (hf : Focus h ctx t) (ht : t.RB .red n)
    (hctx : RBCtx ctx .black n) (hfuel : ctx.length < fuel) :
    Balanced (insertFixupLoop fuel h t.ptr) (fill ctx t).inorder := by
  induction fuel generalizing h ctx t n with
  | zero => cases hfuel
  | succ fuel ih =>
    have hexit : ¬ (t.ptr ≠ h.root ∧ h.color (h.parent t.ptr) = .red) →
        Rbtree.insertFixupLoop (fuel + 1) h t.ptr = h := by
      intro hc
      rw [Rbtree.insertFixupLoop, if_neg hc]
    have htl : t ≠ .leaf := by rintro rfl; cases ht
    cases hctx with
    | nil =>
      rw [hexit fun hc => hc.1 hf.frames.symm]
      exact ⟨t, _, n, hf, rfl, ht⟩
    | @black d x n sib ctx c cs hs hc =>
      have hpar : h.parent t.ptr = x := hf.parent_ptr htl
      have hcol : h.color x = .black := hf.frames.2.2.1
      rw [hexit fun hh => by rw [hpar, hcol] at hh; cases hh.2]
      exact hf.balanced ht (.black hs hc)
    | @red d₁ p n sib ctx hs hc =>
      cases hc with
      | @black d₂ g n unc ctx _ cu hu hc =>
        have hpar : h.parent t.ptr = p := hf.parent_ptr htl
        have hcol : h.color p = .red := hf.frames.2.2.1
        have hf' := focus_cons.1 hf
        have hgp : h.parent p = g := (rep_mk.1 hf'.tree).2.1
        have hroot : t.ptr ≠ h.root := hf.ptr_ne_root htl
        have hside : (if p = h.kid .left g then Side.left else .right) = d₂ := by
          have hleft := hf'.side_eq (mk_ne_leaf _ _ _ _ _) .left
          rw [ptr_mk] at hleft
          cases d₂ with
          | left => rw [if_pos (hleft.2 rfl).symm]
          | right => rw [if_neg fun he => nomatch hleft.1 he.symm]
        have hunc : h.kid d₂.other g = unc.ptr := hf'.frames.2.2.2.2.1
        have hcu : h.color unc.ptr = cu := by
          rw [hf'.sibling.color_ptr, hu.color_eq]
        rw [Rbtree.insertFixupLoop, if_pos ⟨hroot, by rw [hpar, hcol]⟩]
        simp only [hpar, hgp, hside, hunc, hcu]
        cases cu with
        | red =>
          -- paint the parent and the uncle black and go on with the grandparent
          obtain ⟨u, a, b, rfl, ha, hb⟩ := hu.red_inv d₂
          have h1 := (hf'.setColor .black).sibling.setColor .black
          have h2 := (focus_cons.1 h1).setColor .red
          have hbal := ih h2 ((ha.mk_black _ hb).mk_red _ (ht.mk_black _ hs)) hc
            (by simp at hfuel; omega)
          simp only [RbHeap.setColor_parent, hpar, hgp, ptr_mk, if_true] at hbal ⊢
          rw [inorder_fill_congr ctx (t := .mk d₂ .black g (.mk d₁ .red p t sib)
            (.mk d₂ .red u a b))] at hbal
          · exact hbal
          · cases d₁ <;> cases d₂ <;> rfl
        | black =>
          rw [if_neg nofun]
          obtain ⟨x, a, b, rfl, ha, hb⟩ := ht.red_inv d₂
          have hxk := hf.side_eq htl d₂.other
          rw [ptr_mk] at hpar hxk ⊢
          rcases Side.eq_or_other d₂ d₁ with rfl | rfl
          · -- an outer child
            rw [if_neg fun he => Side.other_ne _ (hxk.1 he.symm)]
            simp only [RbHeap.setColor_parent, hpar, hgp]
            exact (focus_cons.1 hf').insert_rotate fuel hc ht hs hu
          · -- an inner child is rotated to the outside first
            rw [if_pos (hxk.2 rfl).symm]
            rw [mk_other] at hf'
            have h1 := hf'.rotate
            have hp1 : (h.rotate d₂ p).parent p = x := (rep_mk.1 (rep_mk.1 h1.tree).2.2.2.2.2.1).2.1
            have hx1 : (h.rotate d₂ p).parent x = g := (rep_mk.1 h1.tree).2.1
            simp only [RbHeap.setColor_parent, hp1, hx1]
            have hbal := (focus_cons.1 h1).insert_rotate fuel hc (hs.mk_red _ ha) hb hu
            rw [inorder_fill_congr ctx (t := .mk d₂ .black g (.mk d₂.other .red p
              (.mk d₂ .red x a b) sib) unc)] at hbal
            · exact hbal
            · cases d₂ <;> simp [Side.other, ColorTree.mk, ColorTree.inorder]

theorem Balanced.paint (hb : Balanced h nodes) (hne : nodes ≠ []) :
    ∃ t m, Represents (h.setColor h.root .black) t ∧ t.inorder = nodes ∧ t.RB .black m := by
  obtain ⟨t, c, m, hrep, rfl, hrb⟩ := hb
  cases t with
  | leaf => exact absurd rfl hne
  | node c' l x r =>
    have hroot : h.root = x := hrep.frames
    obtain ⟨m', hm⟩ := ColorTree.RB.setBlack (d := .left) hrb
    rw [hroot]
    exact ⟨_, m', hrep.setColor (d := .left) .black, rfl, hm⟩

section search
variable {cmp : K → K → Ordering} {t : RbTree K}

/-- A place in a tree where the key `k` belongs. -/
structure Place (cmp : K → K → Ordering) (key : Nat → K) (k : K) (ctx : List Frame)
    (r : Ordering) : Prop where
  before : ∀ q ∈ before ctx, cmp k (key q) = .gt
  after : ∀ q ∈ after ctx, cmp k (key q) = .lt
  side : ∀ f rest, ctx = f :: rest → f.side = if r = .lt then .left else .right

theorem Place.down_left [Std.TransCmp cmp] (hp : Place cmp t.key k ctx r')
    (hx : cmp k (t.key x) = .lt) (hs : ∀ q ∈ r.inorder, cmp (t.key x) (t.key q) = .lt) :
    Place cmp t.key k (⟨.left, c, x, r⟩ :: ctx) .lt where
  before := hp.before
  after := forall_mem_cons.2 ⟨hx, forall_mem_append.2
    ⟨fun q hq => Std.TransCmp.lt_trans hx (hs q hq), hp.after⟩⟩
  side := by
    rintro f rest ⟨⟩
    rfl

theorem Place.down_right [Std.TransCmp cmp] (hp : Place cmp t.key k ctx r')
    (hx : cmp k (t.key x) = .gt) (hs : ∀ q ∈ l.inorder, cmp (t.key q) (t.key x) = .lt) :
    Place cmp t.key k (⟨.right, c, x, l⟩ :: ctx) .gt where
  before := forall_mem_append.2 ⟨hp.before, forall_mem_append.2
    ⟨fun q hq => Std.TransCmp.gt_trans hx (Std.OrientedCmp.gt_of_lt (hs q hq)),
      forall_mem_singleton.2 hx⟩⟩
  after := hp.after
  side := by
    rintro f rest ⟨⟩
    rfl

theorem insertSearch_spec [Std.TransCmp cmp] (hf : Focus t.heap ctx s)
    (hp : Place cmp t.key k ctx r)
    (hs : s.inorder.Pairwise fun a b => cmp (t.key a) (t.key b) = .lt)
    (hfuel : s.inorder.length < fuel) :
    (insertSearch cmp t k fuel s.ptr (parentOf ctx) r = none ∧
      ∃ q ∈ s.inorder, cmp k (t.key q) = .eq) ∨
    ∃ ctx' r', insertSearch cmp t k fuel s.ptr (parentOf ctx) r = some (parentOf ctx', r') ∧
      fill ctx' .leaf = fill ctx s ∧ Place cmp t.key k ctx' r' := by
  induction s generalizing ctx fuel r with
  | leaf =>
    obtain ⟨fuel, rfl⟩ : ∃ j, fuel = j + 1 := ⟨fuel - 1, by omega⟩
    exact .inr ⟨ctx, r, by rw [insertSearch, ptr_leaf, if_pos rfl], rfl, hp⟩
  | node c l x rt ihl ihr =>
    obtain ⟨fuel, rfl⟩ : ∃ j, fuel = j + 1 := ⟨fuel - 1, by omega⟩
    obtain ⟨hx0, -, -, hl, hr, -, -⟩ := hf.tree
    obtain ⟨hsl, hsr, hslr⟩ := pairwise_append.1 hs
    obtain ⟨hsx, hsr⟩ := pairwise_cons.1 hsr
    simp only [ColorTree.inorder, length_append, length_cons] at hfuel
    have hlx : ∀ q ∈ l.inorder, cmp (t.key q) (t.key x) = .lt :=
      fun q hq => hslr q hq x mem_cons_self
    have hmem : ∀ q, q ∈ l.inorder ∨ q ∈ rt.inorder → q ∈ (ColorTree.node c l x rt).inorder := by
      simp only [ColorTree.inorder, mem_append, mem_cons]
      tauto
    rw [insertSearch, if_neg (show (ColorTree.node c l x rt).ptr ≠ 0 from hx0)]
    simp only [ptr_node, hl, hr]
    cases hc : cmp k (t.key x) with
    | eq => exact .inl ⟨rfl, x, by simp [ColorTree.inorder], hc⟩
    | lt =>
      have hf' : Focus t.heap (⟨.left, c, x, rt⟩ :: ctx) l := focus_cons.2 hf
      rcases ihl hf' (hp.down_left hc hsx) hsl (show _ < fuel by omega) with ⟨h1, q, hq, hqe⟩ | hres
      · exact .inl ⟨h1, q, hmem q (.inl hq), hqe⟩
      · exact .inr hres
    | gt =>
      have hf' : Focus t.heap (⟨.right, c, x, l⟩ :: ctx) rt := focus_cons.2 hf
      rcases ihr hf' (hp.down_right hc hlx) hsr (show _ < fuel by omega) with ⟨h1, q, hq, hqe⟩ | hres
      · exact .inl ⟨h1, q, hmem q (.inr hq), hqe⟩
      · exact .inr hres

end search

section inserted
theorem linkNode_eq (hf : Focus h ctx .leaf)
    (hside : ∀ f rest, ctx = f :: rest → f.side = if r = .lt then .left else .right) :
    linkNode h x (parentOf ctx) r = setHole ((((h.setParent x (parentOf ctx)).setKid .right x
      0).setKid .left x 0).setColor x .red) ctx x := by
  cases ctx with
  | nil => rfl
  | cons f ctx =>
    rw [linkNode, if_pos (show parentOf (f :: ctx) ≠ 0 from hf.frames.1), setHole, hside f ctx rfl]
    split <;> rfl

theorem Focus.linkNode (hf : Focus h ctx .leaf) (hx0 : x ≠ 0) (hx : x ∉ ctxIds ctx)
    (hside : ∀ f rest, ctx = f :: rest → f.side = if r = .lt then .left else .right) :
    Focus (linkNode h x (parentOf ctx) r) ctx (.mk .left .red x .leaf .leaf) := by
  have hnodup := hf.nodup
  rw [ColorTree.inorder, append_nil] at hnodup
  rw [linkNode_eq hf hside]
  refine ⟨?_, ?_, ?_, ?_⟩
  · refine setHole_frames hf.frames hnodup ?_ ?_ ?_
    · cases ctx <;> rfl
    · intro q hq
      simp [ne_of_mem_of_not_mem hq hx]
    · intro q hq s
      have hqx := ne_of_mem_of_not_mem hq hx
      cases ctx with
      | nil => cases hq
      | cons f ctx => simp [setHole, hqx]
  · refine rep_mk.2 ⟨hx0, by simp, by simp, ?_, ?_, trivial, trivial⟩
    · rw [setHole_kid_of_notMem hx]
      simp
    · rw [setHole_kid_of_notMem hx]
      simp [Side.other]
  · rw [nodup_append]
    refine ⟨hnodup, nodup_singleton x, fun q hq y hy => ?_⟩
    rw [mem_singleton.1 hy]
    exact ne_of_mem_of_not_mem hq hx
  · have h0 : 0 ∉ ctxIds ctx := fun hm => hf.frames.ne_zero 0 hm rfl
    refine ⟨by simp [hx0.symm, hf.null.parent], fun s => ?_, by simp [hx0.symm, hf.null.color]⟩
    rw [setHole_kid_of_notMem h0]
    simp [hx0.symm, hf.null.kid]

/-- What holds between calls: a red-black search tree with its parent pointers and count. -/
structure Inv (cmp : K → K → Ordering) (t : RbTree K) (tr : ColorTree) : Prop where
  rep : Represents t.heap tr
  balanced : ∃ m, tr.RB .black m
  sorted : tr.inorder.Pairwise fun a b => cmp (t.key a) (t.key b) = .lt
  count : t.count = tr.inorder.length

variable {cmp : K → K → Ordering} [Std.TransCmp cmp]

theorem Inv.rbtreeInsert (hi : Inv cmp t tr) (hx0 : x ≠ 0) :
    ((∃ q ∈ tr.inorder, cmp (t.key x) (t.key q) = .eq) ∧ rbtreeInsert cmp t x = (t, none)) ∨
    ((∀ q ∈ tr.inorder, cmp (t.key x) (t.key q) ≠ .eq) ∧ (rbtreeInsert cmp t x).2 = some x ∧
      (rbtreeInsert cmp t x).1.key = t.key ∧
      ∃ tr', Inv cmp (rbtreeInsert cmp t x).1 tr' ∧ tr'.inorder.Perm (x :: tr.inorder)) := by
  have hplace : Place cmp t.key (t.key x) [] .eq :=
    ⟨forall_mem_nil _, forall_mem_nil _, by simp⟩
  have hroot : t.heap.root = tr.ptr := hi.rep.frames
  have hfuel : tr.inorder.length < t.count + 1 := by
    rw [hi.count]
    exact Nat.lt_succ_self _
  have hsearch := insertSearch_spec hi.rep hplace hi.sorted hfuel
  rw [← hroot] at hsearch
  rcases hsearch with ⟨hnone, hdup⟩ | ⟨ctx, r, hsome, hfill, hp⟩
  · refine .inl ⟨hdup, ?_⟩
    change insertSearch cmp t (t.key x) (t.count + 1) t.heap.root 0 .eq = none at hnone
    rw [Rbtree.rbtreeInsert, hnone]
  change insertSearch cmp t (t.key x) (t.count + 1) t.heap.root 0 .eq = _ at hsome
  subst hfill
  have hin : (fill ctx .leaf).inorder = before ctx ++ after ctx := by
    rw [inorder_fill, ColorTree.inorder, nil_append]
  have hno : ∀ q ∈ (fill ctx .leaf).inorder, cmp (t.key x) (t.key q) ≠ .eq := by
    rw [hin, forall_mem_append]
    exact ⟨fun q hq => by rw [hp.before q hq]; decide, fun q hq => by rw [hp.after q hq]; decide⟩
  have hx : x ∉ ctxIds ctx := fun hm => by
    refine hno x ((ctxIds_fill_perm ctx .leaf).mem_iff.1 (mem_append_left _ hm)) ?_
    exact Std.ReflCmp.compare_self
  have hlen : (ctxIds ctx).length = t.count := by
    rw [hi.count, ← (ctxIds_fill_perm ctx .leaf).length_eq, ColorTree.inorder, append_nil]
  have hfuel : ctx.length < t.count + 2 := by
    have := length_le_ctxIds ctx
    omega
  obtain ⟨m, hm⟩ := hi.balanced
  obtain ⟨c, n, hleaf, hctx⟩ := RBCtx.of_fill hm
  cases hleaf
  have hlink := (represents_fill.1 hi.rep).linkNode hx0 hx hp.side
  have hbal := hlink.insertFixupLoop (ColorTree.RB.leaf.mk_red _ .leaf) hctx hfuel
  have hin' : (fill ctx (.mk .left .red x .leaf .leaf)).inorder =
      before ctx ++ x :: after ctx := inorder_fill ..
  rw [hin', ptr_mk] at hbal
  obtain ⟨tr', m', hrep, hnodes, hrb⟩ := hbal.paint (by simp)
  have hres : Rbtree.rbtreeInsert cmp t x =
      ({ t with heap := insertFixup (t.count + 2) (Rbtree.linkNode t.heap x (parentOf ctx) r) x
                count := t.count + 1 }, some x) := by
    rw [Rbtree.rbtreeInsert, hsome]
  rw [hres]
  refine .inr ⟨hno, rfl, rfl, tr', ⟨hrep, ⟨m', hrb⟩, ?_, ?_⟩, ?_⟩
  · rw [hnodes]
    have hsorted := hi.sorted
    rw [hin, pairwise_append] at hsorted
    obtain ⟨s1, s2, s3⟩ := hsorted
    refine pairwise_append.2 ⟨s1, pairwise_cons.2 ⟨hp.after, s2⟩, fun q hq y hy => ?_⟩
    rcases mem_cons.1 hy with rfl | hy
    · exact Std.OrientedCmp.lt_of_gt (hp.before q hq)
    · exact s3 q hq y hy
  · rw [hnodes, hi.count, hin]
    simp [Nat.add_assoc]
  · rw [hnodes, hin]
    exact perm_middle

end inserted

end CwdGate.Rbtree
