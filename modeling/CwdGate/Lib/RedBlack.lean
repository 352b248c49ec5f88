import Mathlib

namespace CwdGate.Lib
open List

inductive Side where
  | left
  | right
deriving DecidableEq, Repr

inductive Color where
  | red
  | black
deriving DecidableEq, Repr

def Side.other : Side → Side
  | .left => .right
  | .right => .left

@[simp] theorem Side.other_other (d : Side) : d.other.other = d := by cases d <;> rfl

@[simp] theorem Side.other_ne (d : Side) : d.other ≠ d := by cases d <;> nofun

@[simp] theorem Side.ne_other (d : Side) : d ≠ d.other := by cases d <;> nofun

theorem Side.eq_or_other (d e : Side) : e = d ∨ e = d.other := by cases d <;> cases e <;> simp [other]

inductive ColorTree where
  | leaf
  | node (c : Color) (l : ColorTree) (x : Nat) (r : ColorTree)

namespace ColorTree

section
variable (d : Side) (c : Color) (x : Nat) (a b : ColorTree)

/-- The node `x` with `a` on the side `d` and `b` on the other. -/
def mk : ColorTree :=
  match d with
  | .left => node c a x b
  | .right => node c b x a

theorem mk_other : mk d.other c x a b = mk d c x b a := by
  cases d <;> rfl

theorem mk_ne_leaf : mk d c x a b ≠ leaf := by
  cases d <;> nofun

def ptr : ColorTree → Nat
  | leaf => 0
  | node _ _ x _ => x

@[simp] theorem ptr_leaf : leaf.ptr = 0 := rfl

@[simp] theorem ptr_node : (node c l x r).ptr = x := rfl

@[simp] theorem ptr_mk : (mk d c x a b).ptr = x := by
  cases d <;> rfl

def inorder : ColorTree → List Nat
  | leaf => []
  | node _ l x r => l.inorder ++ x :: r.inorder

def color : ColorTree → Color
  | leaf => .black
  | node c _ _ _ => c

@[simp] theorem color_mk : (mk d c x a b).color = c := by
  cases d <;> rfl

theorem inorder_mk_perm : (mk d c x a b).inorder.Perm (x :: (a.inorder ++ b.inorder)) := by
  cases d with
  | left => exact perm_middle
  | right => exact perm_middle.trans (List.Perm.cons x perm_append_comm)

end

theorem mem_mk : q ∈ (mk d c x a b).inorder ↔ q = x ∨ q ∈ a.inorder ∨ q ∈ b.inorder := by
  rw [(inorder_mk_perm d c x a b).mem_iff, mem_cons, mem_append]

theorem nodup_mk {a b : ColorTree} :
    (mk d c x a b).inorder.Nodup ↔ (x ∉ a.inorder ∧ x ∉ b.inorder) ∧ a.inorder.Nodup ∧
      b.inorder.Nodup ∧ ∀ q ∈ a.inorder, q ∉ b.inorder := by
  rw [(inorder_mk_perm d c x a b).nodup_iff, nodup_cons, mem_append, not_or, nodup_append]
  refine and_congr_right fun _ => and_congr_right fun _ => and_congr_right fun _ => ?_
  exact ⟨fun h q ha hb => h q ha q hb rfl, fun h q ha p hb he => h q ha (he ▸ hb)⟩

def map (g : Nat → Nat) : ColorTree → ColorTree
  | leaf => leaf
  | node c l x r => node c (l.map g) (g x) (r.map g)

theorem inorder_map (t : ColorTree) : (t.map g).inorder = t.inorder.map g := by
  induction t with
  | leaf => rfl
  | node c l x r ihl ihr => simp [map, inorder, ihl, ihr]

theorem ptr_map (hg : g 0 = 0) (t : ColorTree) : (t.map g).ptr = g t.ptr := by
  cases t with
  | leaf => exact hg.symm
  | node c l x r => rfl

theorem map_mk : (mk d c x a b).map g = mk d c (g x) (a.map g) (b.map g) := by
  cases d <;> rfl

/-- `n` black nodes on every path, no red node with a red child, and a root of the color. -/
inductive RB : ColorTree → Color → Nat → Prop where
  | leaf : RB leaf .black 0
  | red {l r : ColorTree} {x n : Nat} : RB l .black n → RB r .black n → RB (node .red l x r) .red n
  | black {l r : ColorTree} {x n : Nat} {cl cr : Color} : RB l cl n → RB r cr n →
    RB (node .black l x r) .black (n + 1)

theorem RB.color_eq (h : RB t c n) : t.color = c := by
  cases h <;> rfl

theorem RB.map (g : Nat → Nat) (h : RB t c n) : RB (t.map g) c n := by
  induction h with
  | leaf => exact .leaf
  | red _ _ ihl ihr => exact .red ihl ihr
  | black _ _ ihl ihr => exact .black ihl ihr

theorem RB.mk_red {a b : ColorTree} (d : Side) (ha : RB a .black n) (hb : RB b .black n) :
    RB (mk d .red x a b) .red n := by
  cases d with
  | left => exact .red ha hb
  | right => exact .red hb ha

theorem RB.mk_black {a b : ColorTree} (d : Side) (ha : RB a ca n) (hb : RB b cb n) :
    RB (mk d .black x a b) .black (n + 1) := by
  cases d with
  | left => exact .black ha hb
  | right => exact .black hb ha

theorem RB.red_inv (h : RB t .red n) (d : Side) :
    ∃ x a b, t = mk d .red x a b ∧ RB a .black n ∧ RB b .black n := by
  cases h with
  | red hl hr =>
    cases d with
    | left => exact ⟨_, _, _, rfl, hl, hr⟩
    | right => exact ⟨_, _, _, rfl, hr, hl⟩

theorem RB.black_inv (h : RB t .black (n + 1)) (d : Side) :
    ∃ x a b ca cb, t = mk d .black x a b ∧ RB a ca n ∧ RB b cb n := by
  cases h with
  | black hl hr =>
    cases d with
    | left => exact ⟨_, _, _, _, _, rfl, hl, hr⟩
    | right => exact ⟨_, _, _, _, _, rfl, hr, hl⟩

theorem RB.setBlack {a b : ColorTree} (h : RB (mk d c x a b) c' n) :
    ∃ m, RB (mk d .black x a b) .black m := by
  cases d with
  | left =>
    cases h with
    | red hl hr => exact ⟨_, .black hl hr⟩
    | black hl hr => exact ⟨_, .black hl hr⟩
  | right =>
    cases h with
    | red hl hr => exact ⟨_, .black hl hr⟩
    | black hl hr => exact ⟨_, .black hl hr⟩

def height : ColorTree → Nat
  | leaf => 0
  | node _ l _ r => max l.height r.height + 1

theorem RB.bounds (h : RB t c n) :
    t.height ≤ 2 * n + (if c = .red then 1 else 0) ∧ 2 ^ n ≤ t.inorder.length + 1 := by
  induction h with
  | leaf => exact ⟨Nat.le_refl 0, Nat.le_refl 1⟩
  | red _ _ ihl ihr =>
    rw [height, inorder, length_append, length_cons]
    exact ⟨Nat.succ_le_succ (max_le ihl.1 ihr.1), by omega⟩
  | black _ _ ihl ihr =>
    rw [height, inorder, length_append, length_cons, Nat.pow_succ, if_neg nofun]
    split at ihl <;> split at ihr <;> omega

theorem RB.height_le (h : RB t .black n) : t.height ≤ 2 * (t.inorder.length + 1).log2 :=
  h.bounds.1.trans (Nat.mul_le_mul_left 2 ((Nat.le_log2 (Nat.succ_ne_zero _)).2 h.bounds.2))

end ColorTree

/-- A node above a place: the side that the place is on, and the subtree on the other side. -/
structure Frame where
  side : Side
  color : Color
  x : Nat
  sib : ColorTree

def parentOf : List Frame → Nat
  | [] => 0
  | f :: _ => f.x

def fill : List Frame → ColorTree → ColorTree
  | [], t => t
  | f :: ctx, t => fill ctx (.mk f.side f.color f.x t f.sib)

def before : List Frame → List Nat
  | [] => []
  | ⟨.left, _, _, _⟩ :: ctx => before ctx
  | ⟨.right, _, x, sib⟩ :: ctx => before ctx ++ (sib.inorder ++ [x])

def after : List Frame → List Nat
  | [] => []
  | ⟨.left, _, x, sib⟩ :: ctx => x :: (sib.inorder ++ after ctx)
  | ⟨.right, _, _, _⟩ :: ctx => after ctx

theorem inorder_fill (ctx : List Frame) (t : ColorTree) :
    (fill ctx t).inorder = before ctx ++ (t.inorder ++ after ctx) := by
  induction ctx generalizing t with
  | nil => simp [fill, before, after]
  | cons f ctx ih =>
    obtain ⟨d, c, x, sib⟩ := f
    cases d with
    | left => simp [fill, ih, ColorTree.mk, ColorTree.inorder, before, after]
    | right => simp [fill, ih, ColorTree.mk, ColorTree.inorder, before, after]

theorem inorder_fill_congr (ctx : List Frame) (h : t'.inorder = t.inorder) :
    (fill ctx t').inorder = (fill ctx t).inorder := by
  rw [inorder_fill, inorder_fill, h]

theorem fill_append (ctx ctx' : List Frame) (t : ColorTree) :
    fill (ctx ++ ctx') t = fill ctx' (fill ctx t) := by
  induction ctx generalizing t with
  | nil => rfl
  | cons f ctx ih => exact ih _

def Frame.map (g : Nat → Nat) (f : Frame) : Frame := ⟨f.side, f.color, g f.x, f.sib.map g⟩

theorem map_fill :
    (fill ctx t).map g = fill (ctx.map (Frame.map g)) (t.map g) := by
  induction ctx generalizing t with
  | nil => rfl
  | cons f ctx ih =>
    rw [fill, ih, ColorTree.map_mk]
    rfl

theorem before_left (hl : ∀ f ∈ ctx, f.side = .left) :
    before (ctx ++ ctx') = before ctx' := by
  induction ctx with
  | nil => rfl
  | cons f ctx ih =>
    obtain ⟨d, c, x, sib⟩ := f
    have hd : d = .left := hl _ mem_cons_self
    subst hd
    exact ih (forall_mem_cons.1 hl).2

open ColorTree in
/-- A red-black tree with a hole for a tree with the color at its root and `n` black nodes on a
path. -/
inductive RBCtx : List Frame → Color → Nat → Prop where
  | nil {n : Nat} : RBCtx [] .black n
  | red {d : Side} {x n : Nat} {sib : ColorTree} {ctx : List Frame} : RB sib .black n →
    RBCtx ctx .red n → RBCtx (⟨d, .red, x, sib⟩ :: ctx) .black n
  | black {d : Side} {x n : Nat} {sib : ColorTree} {ctx : List Frame} {c cs : Color} : RB sib cs n →
    RBCtx ctx .black (n + 1) → RBCtx (⟨d, .black, x, sib⟩ :: ctx) c n

theorem RBCtx.of_red (h : RBCtx ctx .red n) (c : Color) : RBCtx ctx c n := by
  cases h with
  | black hs hc => exact .black hs hc

theorem RBCtx.fill (h : RBCtx ctx c n) (ht : t.RB c n) : ∃ m, (fill ctx t).RB .black m := by
  induction h generalizing t with
  | nil => exact ⟨_, ht⟩
  | red hs _ ih => exact ih (ht.mk_red _ hs)
  | black hs _ ih => exact ih (ht.mk_black _ hs)

theorem RBCtx.of_fill (h : (Lib.fill ctx t).RB .black m) : ∃ c n, t.RB c n ∧ RBCtx ctx c n := by
  induction ctx generalizing t with
  | nil => exact ⟨_, _, h, .nil⟩
  | cons f ctx ih =>
    obtain ⟨c, n, ht, hc⟩ := ih h
    obtain ⟨d, cf, x, sib⟩ := f
    cases cf with
    | red =>
      have hcol := ht.color_eq
      rw [ColorTree.color_mk] at hcol
      subst hcol
      obtain ⟨x', a, b, heq, ha, hb⟩ := ht.red_inv d
      cases d <;> (cases heq; exact ⟨_, _, ha, .red hb hc⟩)
    | black =>
      have hcol := ht.color_eq
      rw [ColorTree.color_mk] at hcol
      subst hcol
      cases n with
      | zero => cases d <;> cases ht
      | succ n =>
        obtain ⟨x', a, b, ca, cb, heq, ha, hb⟩ := ht.black_inv d
        cases d <;> (cases heq; exact ⟨_, _, ha, .black hb hc⟩)

end CwdGate.Lib
