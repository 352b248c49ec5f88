import CwdGate.Rbtree.Insert

namespace CwdGate.Rbtree
open Lib

def changeParentPtr (h : RbHeap) (parent old new : Nat) : RbHeap :=
  if parent = 0 then
    if h.root = old then h.setRoot new else h
  else
    let h := if h.kid .left parent = old then h.setKid .left parent new else h
    if h.kid .right parent = old then h.setKid .right parent new else h

def changeChildPtr (h : RbHeap) (child old new : Nat) : RbHeap :=
  if child = 0 then h
  else if h.parent child = old then h.setParent child new
  else h

def swapColor (h : RbHeap) (x y : Nat) : RbHeap :=
  (h.setColor x (h.color y)).setColor y (h.color x)

def swapParent (h : RbHeap) (x y : Nat) : RbHeap :=
  (h.setParent x (h.parent y)).setParent y (h.parent x)

def swapKid (h : RbHeap) (d : Side) (x y : Nat) : RbHeap :=
  (h.setKid d x (h.kid d y)).setKid d y (h.kid d x)

def smallest (h : RbHeap) : Nat → Nat → Nat
  | fuel + 1, node => if h.kid .left node ≠ 0 then smallest h fuel (h.kid .left node) else node
  | 0, node => node

/-- Make the neighbours of `to_delete` and `smright` point to the other one. -/
def relinkNeighbours (h : RbHeap) (toDelete smright : Nat) : RbHeap :=
  let h := changeParentPtr h (h.parent toDelete) toDelete smright
  let h :=
    if h.kid .right toDelete ≠ smright then
      changeParentPtr h (h.parent smright) smright toDelete
    else h
  let h := changeChildPtr h (h.kid .left smright) smright toDelete
  let h := changeChildPtr h (h.kid .left smright) smright toDelete
  let h := changeChildPtr h (h.kid .right smright) smright toDelete
  let h := changeChildPtr h (h.kid .right smright) smright toDelete
  let h := changeChildPtr h (h.kid .left toDelete) toDelete smright
  let h :=
    if h.kid .right toDelete ≠ smright then
      changeChildPtr h (h.kid .right toDelete) toDelete smright
    else h
  if h.kid .right toDelete = smright then
    (h.setKid .right toDelete toDelete).setParent smright smright
  else h

def swapNodes (h : RbHeap) (toDelete smright : Nat) : RbHeap :=
  let h := swapColor h toDelete smright
  let h := relinkNeighbours h toDelete smright
  let h := swapParent h toDelete smright
  let h := swapKid h .left toDelete smright
  swapKid h .right toDelete smright

/-- The child of `child_parent` that is not `child`. -/
def siblingOf (h : RbHeap) (child childParent : Nat) : Nat :=
  if h.kid .right childParent = child then h.kid .left childParent
  else h.kid .right childParent

def blackenSibling (h : RbHeap) (child childParent sibling : Nat) : RbHeap × Nat :=
  if h.color sibling = .red then
    let h := (h.setColor childParent .red).setColor sibling .black
    let h :=
      if h.kid .right childParent = child then h.rotateRight childParent
      else h.rotateLeft childParent
    (h, siblingOf h child childParent)
  else (h, sibling)

/-- The loop of `rbtree_delete_fixup`, with `child`, `child_parent` and `sibling` if it stops
early. -/
def deleteFixupLoop : Nat → RbHeap → Nat → Nat → Nat → RbHeap × Option (Nat × Nat × Nat)
  | fuel + 1, h, child, childParent, sibling =>
    if childParent = 0 then (h, none)
    else
      let (h, sibling) := blackenSibling h child childParent sibling
      if h.color childParent = .black ∧ h.color sibling = .black ∧
          h.color (h.kid .left sibling) = .black ∧ h.color (h.kid .right sibling) = .black then
        let h := if sibling ≠ 0 then h.setColor sibling .red else h
        let child := childParent
        let childParent := h.parent childParent
        deleteFixupLoop fuel h child childParent (siblingOf h child childParent)
      else (h, some (child, childParent, sibling))
  | 0, h, _, _, _ => (h, none)

/-- The end of `rbtree_delete_fixup`: a black sibling with a red far child goes up. -/
def rotateSiblingUp (h : RbHeap) (child childParent sibling : Nat) : RbHeap :=
  let h := h.setColor sibling (h.color childParent)
  let h := h.setColor childParent .black
  if h.kid .right childParent = child then
    let h := h.setColor (h.kid .left sibling) .black
    h.rotateRight childParent
  else
    let h := h.setColor (h.kid .right sibling) .black
    h.rotateLeft childParent

def deleteFixupEnd (h : RbHeap) (child childParent sibling : Nat) : RbHeap :=
  if h.color childParent = .red ∧ h.color sibling = .black ∧
      h.color (h.kid .left sibling) = .black ∧ h.color (h.kid .right sibling) = .black then
    let h := if sibling ≠ 0 then h.setColor sibling .red else h
    h.setColor childParent .black
  else if h.kid .right childParent = child ∧ h.color sibling = .black ∧
      h.color (h.kid .right sibling) = .red ∧ h.color (h.kid .left sibling) = .black then
    let h := h.setColor sibling .red
    let h := h.setColor (h.kid .right sibling) .black
    let h := h.rotateLeft sibling
    rotateSiblingUp h child childParent (siblingOf h child childParent)
  else if h.kid .left childParent = child ∧ h.color sibling = .black ∧
      h.color (h.kid .left sibling) = .red ∧ h.color (h.kid .right sibling) = .black then
    let h := h.setColor sibling .red
    let h := h.setColor (h.kid .left sibling) .black
    let h := h.rotateRight sibling
    rotateSiblingUp h child childParent (siblingOf h child childParent)
  else rotateSiblingUp h child childParent sibling

def deleteFixupRest : RbHeap × Option (Nat × Nat × Nat) → RbHeap
  | (h, none) => h
  | (h, some (child, childParent, sibling)) => deleteFixupEnd h child childParent sibling

def deleteFixup (fuel : Nat) (h : RbHeap) (child childParent : Nat) : RbHeap :=
  deleteFixupRest (deleteFixupLoop fuel h child childParent (siblingOf h child childParent))

/-- Unlink a node with at most one child and repair the balance. -/
def unlinkNode (fuel : Nat) (h : RbHeap) (toDelete : Nat) : RbHeap :=
  let child := if h.kid .left toDelete ≠ 0 then h.kid .left toDelete else h.kid .right toDelete
  let h := changeParentPtr h (h.parent toDelete) toDelete child
  let h := changeChildPtr h child toDelete (h.parent toDelete)
  let h :=
    if h.color toDelete = .red then h
    else if h.color child = .red then
      if child ≠ 0 then h.setColor child .black else h
    else deleteFixup fuel h child (h.parent toDelete)
  (((h.setParent toDelete 0).setKid .left toDelete 0).setKid .right toDelete 0).setColor toDelete
    .black

section delete
variable (cmp : K → K → Ordering)

def findLessEqualLoop (t : RbTree K) (k : K) : Nat → Nat → Option Nat → Bool × Option Nat
  | fuel + 1, node, result =>
    if node = 0 then (false, result)
    else if cmp k (t.key node) = .eq then (true, some node)
    else if cmp k (t.key node) = .lt then
      findLessEqualLoop t k fuel (t.heap.kid .left node) result
    else findLessEqualLoop t k fuel (t.heap.kid .right node) (some node)
  | 0, _, result => (false, result)

def rbtreeFindLessEqual (t : RbTree K) (k : K) : Bool × Option Nat :=
  findLessEqualLoop cmp t k (t.count + 1) t.heap.root none

def rbtreeSearch (t : RbTree K) (k : K) : Option Nat :=
  let r := rbtreeFindLessEqual cmp t k
  if r.1 = true then r.2 else none

/-- `rbtree_delete`: the tree and the node that is now unlinked from it. -/
def rbtreeDelete (t : RbTree K) (k : K) : RbTree K × Option Nat :=
  match rbtreeSearch cmp t k with
  | none => (t, none)
  | some toDelete =>
    let h := t.heap
    let h :=
      if h.kid .left toDelete ≠ 0 ∧ h.kid .right toDelete ≠ 0 then
        swapNodes h toDelete (smallest h t.count (h.kid .right toDelete))
      else h
    ({ t with heap := unlinkNode (t.count + 1) h toDelete, count := t.count - 1 }, some toDelete)

end delete

open ColorTree hiding node

def Settled (h : RbHeap) (nodes : List Nat) : Prop :=
  ∃ t m, Represents h t ∧ t.inorder = nodes ∧ t.RB .black m

theorem Focus.settled (hf : Focus h ctx t) (ht : t.RB c n) (hctx : RBCtx ctx c n) :
    Settled h (fill ctx t).inorder := by
  obtain ⟨m, hm⟩ := hctx.fill ht
  exact ⟨_, m, represents_fill.2 hf, rfl, hm⟩

theorem Settled.congr (hs : Settled h nodes) (he : nodes = nodes') : Settled h nodes' := he ▸ hs

theorem Focus.child_side (hf : Focus h (⟨d, c, p, sib⟩ :: ctx) t) (hs : sib ≠ .leaf) (e : Side) :
    h.kid e p = t.ptr ↔ e = d := by
  constructor
  · intro he
    have hsib := hf.sibling.side_eq hs e
    by_contra hne
    have hed : e = d.other := (Side.eq_or_other d e).resolve_left hne
    have hptr : sib.ptr = t.ptr := (hsib.2 hed).symm.trans he
    have ht : t ≠ .leaf := fun hl => hf.sibling.tree.ptr_ne_zero hs (by rw [hptr, hl]; rfl)
    exact hne ((hf.side_eq ht e).1 he)
  · rintro rfl
    exact hf.frames.2.2.2.1

theorem Focus.siblingOf (hf : Focus h (⟨d, c, p, sib⟩ :: ctx) t) (hs : sib ≠ .leaf) :
    siblingOf h t.ptr p = sib.ptr := by
  have hkid := (hf.sibling.side_eq hs)
  have hside := hf.child_side hs .right
  rw [Rbtree.siblingOf]
  cases d with
  | left =>
    rw [if_neg fun he => nomatch hside.1 he]
    exact (hkid .right).2 rfl
  | right =>
    rw [if_pos (hside.2 rfl)]
    exact (hkid .left).2 rfl

theorem Focus.kid_colors (hf : Focus h ctx (.mk d c s a b)) :
    h.color (h.kid d s) = a.color ∧ h.color (h.kid d.other s) = b.color := by
  have hl := (focus_cons.2 hf)
  obtain ⟨-, -, -, hk, hk', -, -⟩ := rep_mk.1 hf.tree
  rw [hk, hk']
  exact ⟨hl.color_ptr, hl.sibling.color_ptr⟩

theorem Focus.both_black (hf : Focus h ctx (.mk d c s a b)) :
    (h.color (h.kid .left s) = .black ∧ h.color (h.kid .right s) = .black) ↔
      a.color = .black ∧ b.color = .black := by
  obtain ⟨h1, h2⟩ := hf.kid_colors
  cases d with
  | left => exact ⟨fun hh => ⟨h1 ▸ hh.1, h2 ▸ hh.2⟩, fun hh => ⟨h1.trans hh.1, h2.trans hh.2⟩⟩
  | right => exact ⟨fun hh => ⟨h1 ▸ hh.2, h2 ▸ hh.1⟩, fun hh => ⟨h2.trans hh.2, h1.trans hh.1⟩⟩

theorem Focus.rotateSiblingUp
    (hf : Focus h (⟨d, c, p, .mk d .black s a (.mk d .red v b₁ b₂)⟩ :: ctx) t) (ht : t.RB .black n)
    (ha : a.RB ca n) (hb₁ : b₁.RB .black n) (hb₂ : b₂.RB .black n)
    (hctx : RBCtx (⟨d, c, p, .mk d .black s a (.mk d .red v b₁ b₂)⟩ :: ctx) .black (n + 1)) :
    Settled (rotateSiblingUp h t.ptr p s)
      (fill (⟨d, c, p, .mk d .black s a (.mk d .red v b₁ b₂)⟩ :: ctx) t).inorder := by
  have hcp : h.color p = c := hf.frames.2.2.1
  -- paint the sibling, then the parent, then the far child
  have h1 := hf.sibling.setColor c
  have h2 := (focus_cons.1 h1.sibling).setColor .black
  rw [Side.other_other] at h2
  have hfar : Focus _ (⟨d.other, c, s, a⟩ :: ⟨d.other, .black, p, t⟩ :: ctx) (.mk d .red v b₁ b₂) :=
    (focus_cons.2 (focus_cons.2 h2).sibling).sibling
  have h3 := (focus_cons.2 h2)
  have hside := h3.child_side (mk_ne_leaf _ _ _ _ _)
  have hv : ((h.setColor s c).setColor p .black).kid d.other s = v := by
    have := (rep_mk.1 (focus_cons.1 hfar).tree).2.2.2.1
    rwa [ptr_mk] at this
  have h4 := focus_cons.1 (focus_cons.1 (hfar.setColor .black))
  rw [mk_other, mk_other] at h4
  have h5 := h4.rotate
  have hres : Rbtree.rotateSiblingUp h t.ptr p s =
      (((h.setColor s c).setColor p .black).setColor v .black).rotate d p := by
    rw [Rbtree.rotateSiblingUp]
    simp only [hcp]
    cases d with
    | left =>
      rw [if_neg fun he => nomatch (hside .right).1 he]
      exact congrArg (fun q => RbHeap.rotateLeft (RbHeap.setColor _ q .black) p) hv
    | right =>
      rw [if_pos ((hside .right).2 rfl)]
      exact congrArg (fun q => RbHeap.rotateRight (RbHeap.setColor _ q .black) p) hv
  rw [hres]
  have hin : (fill ctx (.mk d c s (.mk d .black p t a) (.mk d .black v b₁ b₂))).inorder =
      (fill (⟨d, c, p, .mk d .black s a (.mk d .red v b₁ b₂)⟩ :: ctx) t).inorder := by
    refine inorder_fill_congr ctx ?_
    cases d <;> simp [ColorTree.mk, ColorTree.inorder]
  have hnear := ht.mk_black (x := p) d ha
  have hfar' := hb₁.mk_black (x := v) d hb₂
  cases hctx with
  | red _ hc => exact (h5.settled (hnear.mk_red d hfar') hc).congr hin
  | black _ hc => exact (h5.settled (hnear.mk_black d hfar') hc).congr hin

/-- The branches after the loop, by the colors of the near and the far child of the sibling. -/
theorem Focus.deleteFixupEnd_eq (hf : Focus h (⟨d, c, p, .mk d .black s a b⟩ :: ctx) t) :
    deleteFixupEnd h t.ptr p s =
      if c = .red ∧ a.color = .black ∧ b.color = .black then
        (h.setColor s .red).setColor p .black
      else if a.color = .red ∧ b.color = .black then
        let h' := ((h.setColor s .red).setColor a.ptr .black).rotate d.other s
        Rbtree.rotateSiblingUp h' t.ptr p (Rbtree.siblingOf h' t.ptr p)
      else Rbtree.rotateSiblingUp h t.ptr p s := by
  have hcp : h.color p = c := hf.frames.2.2.1
  obtain ⟨hs0, -, hcs, hks, -, -, -⟩ := rep_mk.1 hf.sibling.tree
  have hboth := hf.sibling.both_black
  obtain ⟨hn, hf'⟩ := hf.sibling.kid_colors
  have hside := hf.child_side (mk_ne_leaf _ _ _ _ _)
  rw [Rbtree.deleteFixupEnd]
  simp only [hcp, hcs, hboth, true_and, if_pos hs0]
  refine if_congr Iff.rfl rfl ?_
  cases d with
  | left =>
    rw [if_neg fun he => nomatch (hside .right).1 he.1]
    refine if_congr ⟨fun he => ⟨hn ▸ he.2.1, hf' ▸ he.2.2⟩,
      fun he => ⟨(hside .left).2 rfl, hn.trans he.1, hf'.trans he.2⟩⟩ ?_ rfl
    rw [← hks]
    rfl
  | right =>
    refine if_congr ⟨fun he => ⟨hn ▸ he.2.1, hf' ▸ he.2.2⟩,
      fun he => ⟨(hside .right).2 rfl, hn.trans he.1, hf'.trans he.2⟩⟩ ?_ ?_
    · rw [← hks]
      rfl
    · rw [if_neg fun he => nomatch (hside .left).1 he.1]

theorem Focus.deleteFixupEnd (hf : Focus h (⟨d, c, p, .mk d .black s a b⟩ :: ctx) t)
    (ht : t.RB .black n) (ha : a.RB ca n) (hb : b.RB cb n)
    (hctx : RBCtx (⟨d, c, p, .mk d .black s a b⟩ :: ctx) .black (n + 1))
    (hnot : ¬ (c = .black ∧ ca = .black ∧ cb = .black)) :
    Settled (deleteFixupEnd h t.ptr p s)
      (fill (⟨d, c, p, .mk d .black s a b⟩ :: ctx) t).inorder := by
  rw [hf.deleteFixupEnd_eq, ha.color_eq, hb.color_eq]
  cases cb with
  | red =>
    simp only [reduceCtorEq, and_false, ↓reduceIte]
    obtain ⟨v, b₁, b₂, rfl, hb₁, hb₂⟩ := hb.red_inv d
    exact hf.rotateSiblingUp ht ha hb₁ hb₂ hctx
  | black =>
    cases ca with
    | black =>
      cases c with
      | black => exact absurd ⟨rfl, rfl, rfl⟩ hnot
      | red =>
        -- move the red of the parent to the sibling
        have h1 := (focus_cons.1 (hf.sibling.setColor .red).sibling).setColor .black
        rw [Side.other_other] at h1
        have hin : (fill ctx (.mk d .black p t (.mk d .red s a b))).inorder =
            (fill (⟨d, .red, p, .mk d .black s a b⟩ :: ctx) t).inorder := by
          refine inorder_fill_congr ctx ?_
          cases d <;> rfl
        cases hctx with
        | red _ hc =>
          exact (h1.settled (ht.mk_black d (ha.mk_red d hb)) (hc.of_red .black)).congr hin
    | red =>
      simp only [reduceCtorEq, false_and, and_false, and_self, ↓reduceIte]
      obtain ⟨u, a₁, a₂, rfl, ha₁, ha₂⟩ := ha.red_inv d
      have h1 := focus_cons.2 (hf.sibling.setColor .red)
      have h2 := focus_cons.1 (h1.setColor .black)
      rw [← mk_other d, ← mk_other d] at h2
      have h3 := h2.rotate.sibling
      rw [mk_other, mk_other, Side.other_other] at h3
      simp only [h3.siblingOf (mk_ne_leaf _ _ _ _ _), ptr_mk]
      have hin : (fill (⟨d, c, p, .mk d .black u a₁ (.mk d .red s a₂ b)⟩ :: ctx) t).inorder =
          (fill (⟨d, c, p, .mk d .black s (.mk d .red u a₁ a₂) b⟩ :: ctx) t).inorder := by
        refine inorder_fill_congr ctx ?_
        cases d <;> simp [ColorTree.mk, ColorTree.inorder]
      refine (h3.rotateSiblingUp ht ha₁ ha₂ hb ?_).congr hin
      have hsib := ha₁.mk_black (x := u) d (ha₂.mk_red (x := s) d hb)
      cases hctx with
      | red _ hc => exact .red hsib hc
      | black _ hc => exact .black hsib hc

theorem Focus.blackenSibling (hf : Focus h (⟨d, c, p, sib⟩ :: ctx) t)
    (hctx : RBCtx (⟨d, c, p, sib⟩ :: ctx) .black (n + 1)) :
    ∃ c' s a b ca cb ctx',
      let r := blackenSibling h t.ptr p sib.ptr
      Focus r.1 (⟨d, c', p, .mk d .black s a b⟩ :: ctx') t ∧ r.2 = s ∧ a.RB ca n ∧ b.RB cb n ∧
      RBCtx (⟨d, c', p, .mk d .black s a b⟩ :: ctx') .black (n + 1) ∧
      (fill (⟨d, c', p, .mk d .black s a b⟩ :: ctx') t).inorder =
        (fill (⟨d, c, p, sib⟩ :: ctx) t).inorder ∧
      (c' = .black → ctx' = ctx) := by
  have hcol := hf.sibling.color_ptr
  have hsib : sib.RB .black (n + 1) ∨
      c = .black ∧ sib.RB .red (n + 1) ∧ RBCtx ctx .black (n + 2) := by
    cases hctx with
    | red hs _ => exact .inl hs
    | @black _ _ _ _ _ _ cs hs hc =>
      cases cs with
      | black => exact .inl hs
      | red => exact .inr ⟨rfl, hs, hc⟩
  rcases hsib with hs | ⟨rfl, hs, hc⟩
  · obtain ⟨s, a, b, ca, cb, rfl, ha, hb⟩ := hs.black_inv d
    refine ⟨c, s, a, b, ca, cb, ctx, ?_⟩
    rw [Rbtree.blackenSibling, if_neg (by rw [hcol, color_mk]; nofun)]
    exact ⟨hf, ptr_mk .., ha, hb, hctx, rfl, fun _ => rfl⟩
  · obtain ⟨s, a, b, rfl, ha, hb⟩ := hs.red_inv d
    obtain ⟨u, a₁, a₂, ca, cb, rfl, ha₁, ha₂⟩ := ha.black_inv d
    have h1 := (focus_cons.1 hf).setColor .red
    have h2 := (focus_cons.2 h1).sibling.setColor .black
    have h3 := (focus_cons.1 h2.sibling)
    rw [Side.other_other] at h3
    have h4 := focus_cons.2 (focus_cons.2 h3.rotate)
    have hside := (focus_cons.2 h3).child_side (mk_ne_leaf _ _ _ _ _) .right
    have hres : Rbtree.blackenSibling h t.ptr p (ColorTree.mk d .red s (.mk d .black u a₁ a₂) b).ptr =
        (((h.setColor p .red).setColor s .black).rotate d p, u) := by
      have hsib := h4.siblingOf (mk_ne_leaf _ _ _ _ _)
      rw [Rbtree.blackenSibling, if_pos (by rw [hcol, color_mk]), ptr_mk]
      cases d with
      | left =>
        simp only [if_neg fun he => nomatch hside.1 he]
        exact Prod.ext rfl hsib
      | right =>
        simp only [if_pos (hside.2 rfl)]
        exact Prod.ext rfl hsib
    refine ⟨.red, u, a₁, a₂, ca, cb, ⟨d, .black, s, b⟩ :: ctx, ?_⟩
    rw [hres]
    refine ⟨h4, rfl, ha₁, ha₂, .red ha (.black hb hc), ?_, nofun⟩
    refine inorder_fill_congr ctx ?_
    cases d <;> simp [ColorTree.mk, ColorTree.inorder]

theorem Focus.deleteFixupLoop (hf : Focus h ctx t) (ht : t.RB .black n)
    (hctx : RBCtx ctx .black (n + 1)) (hfuel : ctx.length < fuel) :
    Settled (deleteFixupRest (Rbtree.deleteFixupLoop fuel h t.ptr (parentOf ctx)
      (Rbtree.siblingOf h t.ptr (parentOf ctx)))) (fill ctx t).inorder := by
  induction fuel generalizing h ctx t n with
  | zero => cases hfuel
  | succ fuel ih =>
    cases ctx with
    | nil =>
      exact ⟨t, n, hf, rfl, ht⟩
    | cons f ctx =>
      obtain ⟨d, c, p, sib⟩ := f
      have hsl : sib ≠ .leaf := by
        rintro rfl
        cases hctx with
        | red hs _ => cases hs
        | black hs _ => cases hs
      change Settled (deleteFixupRest (Rbtree.deleteFixupLoop (fuel + 1) h t.ptr p
        (Rbtree.siblingOf h t.ptr p))) _
      rw [hf.siblingOf hsl, Rbtree.deleteFixupLoop, if_neg (show p ≠ 0 from hf.frames.1)]
      obtain ⟨c', s, a, b, ca, cb, ctx', hf', hs, ha, hb, hctx', hin, hsame⟩ :=
        hf.blackenSibling hctx
      generalize Rbtree.blackenSibling h t.ptr p sib.ptr = r at hf' hs
      obtain ⟨h', s'⟩ := r
      dsimp only at hf' hs
      subst hs
      have hcp : h'.color p = c' := hf'.frames.2.2.1
      obtain ⟨hs0, -, hcs, -, -, -, -⟩ := rep_mk.1 hf'.sibling.tree
      have hboth := hf'.sibling.both_black
      rw [ha.color_eq, hb.color_eq] at hboth
      simp only [hcp, hcs, hboth, true_and, if_pos hs0]
      rw [← hin]
      split
      next hall =>
        obtain ⟨rfl, rfl, rfl⟩ := hall
        cases hsame rfl
        have h1 := focus_cons.1 (hf'.sibling.setColor .red).sibling
        rw [Side.other_other] at h1
        have hpar := (rep_mk.1 h1.tree).2.1
        have hc : RBCtx ctx .black (n + 2) := by
          cases hctx' with
          | black _ hc => exact hc
        have hres := ih h1 (ht.mk_black d (ha.mk_red d hb)) hc (by simpa using hfuel)
        rw [ptr_mk] at hres
        simp only [hpar]
        refine hres.congr (inorder_fill_congr ctx ?_)
        cases d <;> rfl
      next hnot => exact hf'.deleteFixupEnd ht ha hb hctx' hnot

end CwdGate.Rbtree
