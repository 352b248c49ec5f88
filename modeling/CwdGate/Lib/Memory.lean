namespace CwdGate.Lib
open List

variable {β : Type} {F G : Nat → Prop} {m : Nat → β}

/-- `xs` stands in memory from `pos` on, in cells of `F`. -/
def Holds (F : Nat → Prop) (m : Nat → β) : Nat → List β → Prop
  | _, [] => True
  | pos, x :: xs => F pos ∧ m pos = x ∧ Holds F m (pos + 1) xs

theorem Holds.mono (h : ∀ i, F i → G i ∧ m' i = m i) (hx : Holds F m pos xs) :
    Holds G m' pos xs := by
  induction xs generalizing pos with
  | nil => trivial
  | cons x xs ih =>
    obtain ⟨hF, hm, hx⟩ := hx
    exact ⟨(h pos hF).1, (h pos hF).2.trans hm, ih hx⟩

theorem Holds.restrict (hx : Holds F m pos xs) (h : ∀ i, pos ≤ i → i < pos + xs.length → G i) :
    Holds G m pos xs := by
  induction xs generalizing pos with
  | nil => trivial
  | cons x xs ih =>
    simp only [length_cons] at h
    exact ⟨h pos (Nat.le_refl _) (by omega), hx.2.1,
      ih hx.2.2 fun i h1 h2 => h i (by omega) (by omega)⟩

theorem holds_append :
    Holds F m pos (xs ++ ys) ↔ Holds F m pos xs ∧ Holds F m (pos + xs.length) ys := by
  induction xs generalizing pos with
  | nil => simp [Holds]
  | cons x xs ih =>
    simp only [cons_append, Holds, ih, length_cons, and_assoc]
    rw [show pos + 1 + xs.length = pos + (xs.length + 1) by omega]

theorem Holds.end_le (hF : ∀ i, F i → i < limit) (h : Holds F m pos xs) (h0 : 0 < xs.length) :
    pos + xs.length ≤ limit := by
  induction xs generalizing pos with
  | nil => simp at h0
  | cons x xs ih =>
    have hp := hF pos h.1
    cases xs with
    | nil => exact hp
    | cons y ys =>
      have := ih h.2.2 (by simp)
      simp only [length_cons] at this ⊢
      omega

/-- Memory after `xs` is copied to `pos`. -/
def blit (m : Nat → β) (pos : Nat) (xs : List β) (i : Nat) : β :=
  if pos ≤ i then xs.getD (i - pos) (m i) else m i

theorem blit_of_lt {pos i : Nat} (xs : List β) (h : i < pos) : blit m pos xs i = m i := by
  rw [blit, if_neg (by omega)]

theorem blit_of_ge (xs : List β) (h : pos + xs.length ≤ i) : blit m pos xs i = m i := by
  rw [blit, if_pos (by omega), getD_eq_getElem?_getD, getElem?_eq_none (by omega), Option.getD_none]

@[simp] theorem blit_nil : blit m pos [] = m := by
  funext i
  simp [blit]

theorem blit_cons (xs : List β) :
    blit m pos (x :: xs) = blit (blit m pos [x]) (pos + 1) xs := by
  funext i
  rcases Nat.lt_trichotomy i pos with h | rfl | h
  · rw [blit_of_lt _ h, blit_of_lt _ (by omega), blit_of_lt _ h]
  · rw [blit_of_lt (m := blit m i [x]) xs (by omega)]
    simp [blit]
  · rw [blit, blit, blit_of_ge (m := m) [x] (show pos + 1 ≤ i from h), if_pos (by omega),
      if_pos (by omega), show i - pos = (i - (pos + 1)) + 1 by omega, getD_cons_succ]

theorem blit_append :
    blit m pos (xs ++ ys) = blit (blit m pos xs) (pos + xs.length) ys := by
  induction xs generalizing m pos with
  | nil => simp
  | cons x xs ih =>
    rw [cons_append, blit_cons, ih, blit_cons xs, length_cons,
      show pos + 1 + xs.length = pos + (xs.length + 1) by omega]

theorem holds_blit (h : ∀ i, pos ≤ i → i < pos + xs.length → F i) :
    Holds F (blit m pos xs) pos xs := by
  induction xs generalizing m pos with
  | nil => trivial
  | cons x xs ih =>
    rw [blit_cons]
    refine ⟨h pos (Nat.le_refl _) (by simp), ?_, ih fun i h1 h2 => h i (by omega) ?_⟩
    · rw [blit_of_lt _ (Nat.lt_succ_self pos)]
      simp [blit]
    · simp only [length_cons]
      omega

def cells (m : Nat → β) (pos n : Nat) : List β := (List.range' pos n).map m

@[simp] theorem length_cells : (cells m pos n).length = n := by simp [cells]

theorem cells_succ : cells m pos (n + 1) = m pos :: cells m (pos + 1) n := by
  rw [cells, range'_succ, map_cons, cells]

theorem cells_add : cells m pos (n + k) = cells m pos n ++ cells m (pos + n) k := by
  rw [cells, ← range'_append_1, map_append, cells, cells]

theorem cells_congr (h : ∀ i, pos ≤ i → i < pos + n → m' i = m i) :
    cells m' pos n = cells m pos n := by
  apply map_congr_left
  intro i hi
  obtain ⟨h1, h2⟩ := mem_range'_1.1 hi
  exact h i h1 h2

theorem cells_blit : cells (blit m pos xs) pos xs.length = xs := by
  induction xs generalizing m pos with
  | nil => rfl
  | cons x xs ih =>
    rw [length_cons, cells_succ, blit_cons, ih, blit_of_lt _ (Nat.lt_succ_self pos)]
    simp [blit]

theorem cells_blit_of_le (h : k + n ≤ pos) :
    cells (blit m pos xs) k n = cells m k n := by
  apply cells_congr
  intro i _ hi
  exact blit_of_lt xs (by omega)

/-- Memory after the cells behind `i`, up to `stop`, are moved down by one. -/
def moveDown (m : Nat → β) (i stop : Nat) (k : Nat) : β :=
  if i ≤ k ∧ k + 1 < stop then m (k + 1) else m k

theorem cells_moveDown_of_le (h : pos + n ≤ i) : cells (moveDown m i stop) pos n = cells m pos n := by
  apply cells_congr
  intro k _ hk
  exact if_neg (by omega)

theorem cells_moveDown (hi : i ≤ pos) (h : pos + n < stop) :
    cells (moveDown m i stop) pos n = cells m (pos + 1) n := by
  rw [cells, cells, Nat.add_comm pos 1, ← map_add_range', map_map]
  apply map_congr_left
  intro k hk
  obtain ⟨h1, h2⟩ := mem_range'_1.1 hk
  rw [Function.comp_apply, Nat.add_comm 1 k]
  exact if_pos (by omega)

end CwdGate.Lib
