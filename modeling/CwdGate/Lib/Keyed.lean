import Mathlib

namespace CwdGate.Lib
open List

section keyed
variable {α κ : Type} [DecidableEq κ] (key : α → κ)

def lookupBy (l : List α) (k : κ) : Option α := l.find? fun x => key x = k

def modifyBy (f : α → α) (k : κ) : List α → List α
  | [] => []
  | x :: l => if key x = k then f x :: l else x :: modifyBy f k l

def eraseBy (k : κ) : List α → List α
  | [] => []
  | x :: l => if key x = k then l else x :: eraseBy k l

variable {key} {l : List α} {k j : κ} {x : α} {f : α → α}

theorem lookupBy_cons : lookupBy key (x :: l) k = if key x = k then some x else lookupBy key l k := by
  rw [lookupBy, find?_cons]
  split
  next h => rw [if_pos (of_decide_eq_true h)]
  next h => rw [if_neg (of_decide_eq_false h)]; rfl

theorem lookupBy_some (h : lookupBy key l k = some x) : x ∈ l ∧ key x = k := by
  have hkey := @find?_some _ (fun x => decide (key x = k)) _ _ h
  exact ⟨mem_of_find?_eq_some h, of_decide_eq_true hkey⟩

theorem lookupBy_none_iff : lookupBy key l k = none ↔ ∀ x ∈ l, key x ≠ k := by
  rw [lookupBy, find?_eq_none]
  exact ⟨fun h x hx he => h x hx (decide_eq_true he), fun h x hx he => h x hx (of_decide_eq_true he)⟩

theorem lookupBy_of_mem (hn : (l.map key).Nodup) (hx : x ∈ l) : lookupBy key l (key x) = some x := by
  induction l with
  | nil => cases hx
  | cons y l ih =>
    rw [map_cons, nodup_cons] at hn
    rw [lookupBy_cons]
    rcases mem_cons.1 hx with rfl | hx
    · rw [if_pos rfl]
    · have hne : key y ≠ key x := fun he => hn.1 (he ▸ mem_map_of_mem hx)
      rw [if_neg hne, ih hn.2 hx]

theorem exists_split (f : α → α) (k : κ) (l : List α) :
    (lookupBy key l k = none ∧ modifyBy key f k l = l ∧ eraseBy key k l = l) ∨
    ∃ a x b, key x = k ∧ l = a ++ x :: b ∧ modifyBy key f k l = a ++ f x :: b ∧
      eraseBy key k l = a ++ b := by
  induction l with
  | nil => exact .inl ⟨rfl, rfl, rfl⟩
  | cons y l ih =>
    rw [modifyBy, eraseBy, lookupBy_cons]
    by_cases hy : key y = k
    · rw [if_pos hy, if_pos hy, if_pos hy]
      exact .inr ⟨[], y, l, hy, rfl, rfl, rfl⟩
    · rw [if_neg hy, if_neg hy, if_neg hy]
      rcases ih with ⟨hl, hm, he⟩ | ⟨a, x, b, hx, rfl, hm, he⟩
      · exact .inl ⟨hl, by rw [hm], by rw [he]⟩
      · exact .inr ⟨y :: a, x, b, hx, rfl, by rw [hm]; rfl, by rw [he]; rfl⟩

theorem lookupBy_insert {a b : List α} (h : lookupBy key (a ++ b) (key x) = none) :
    lookupBy key (a ++ x :: b) k = if k = key x then some x else lookupBy key (a ++ b) k := by
  induction a with
  | nil =>
    rw [nil_append, lookupBy_cons]
    by_cases hk : k = key x
    · rw [if_pos hk.symm, if_pos hk]
    · rw [if_neg (Ne.symm hk), if_neg hk]
      rfl
  | cons y a ih =>
    rw [cons_append, lookupBy_cons] at h
    rw [cons_append, cons_append, lookupBy_cons, lookupBy_cons]
    by_cases hy : key y = key x
    · rw [if_pos hy] at h
      cases h
    · rw [if_neg hy] at h
      rw [ih h]
      by_cases hk : key y = k
      · rw [if_pos hk, if_pos hk, if_neg fun he => hy (hk.trans he)]
      · rw [if_neg hk, if_neg hk]

theorem nodup_insert (hn : ((a ++ b).map key).Nodup)
    (h : lookupBy key (a ++ b) (key x) = none) : ((a ++ x :: b).map key).Nodup := by
  rw [map_append, map_cons, nodup_middle, nodup_cons, ← map_append]
  refine ⟨fun hm => ?_, hn⟩
  obtain ⟨y, hy, he⟩ := mem_map.1 hm
  exact lookupBy_none_iff.1 h y hy he

theorem nodup_around (hn : ((a ++ x :: b).map key).Nodup) :
    lookupBy key (a ++ b) (key x) = none ∧ ((a ++ b).map key).Nodup := by
  rw [map_append, map_cons, nodup_middle, nodup_cons, ← map_append] at hn
  exact ⟨lookupBy_none_iff.2 fun y hy he => hn.1 (he ▸ mem_map_of_mem hy), hn.2⟩

theorem lookupBy_eraseBy (hn : (l.map key).Nodup) :
    lookupBy key (eraseBy key k l) j = if j = k then none else lookupBy key l j := by
  rcases @exists_split _ _ _ key id k l with ⟨h, -, he⟩ | ⟨a, x, b, rfl, rfl, -, he⟩
  · rw [he]
    split
    next hj => rw [hj, h]
    next => rfl
  · obtain ⟨hx, -⟩ := nodup_around hn
    rw [he, lookupBy_insert hx]
    split
    next hj => rw [hj, hx]
    next => rfl

theorem nodup_eraseBy (hn : (l.map key).Nodup) : ((eraseBy key k l).map key).Nodup := by
  rcases @exists_split _ _ _ key id k l with ⟨-, -, he⟩ | ⟨a, x, b, rfl, rfl, -, he⟩
  · rwa [he]
  · rw [he]
    exact (nodup_around hn).2

section rekey
variable {i : κ} (hn : (l.map key).Nodup) (hf : ∀ x, key x = k → key (f x) = i)
  (hi : i = k ∨ lookupBy key l i = none)

include hn hf hi

theorem lookupBy_around (hl : l = a ++ x :: b) (hx : key x = k) :
    lookupBy key (a ++ b) (key (f x)) = none := by
  subst hl hx
  obtain ⟨hx, -⟩ := nodup_around hn
  rw [hf x rfl]
  rcases hi with rfl | hi
  · exact hx
  · rw [lookupBy_insert hx] at hi
    split at hi
    · cases hi
    · exact hi

theorem lookupBy_rekey : lookupBy key (modifyBy key f k l) j =
    if j = i then (lookupBy key l k).map f else if j = k then none else lookupBy key l j := by
  rcases @exists_split _ _ _ key f k l with ⟨h, hm, -⟩ | ⟨a, x, b, hk, hl, hm, -⟩
  · rw [hm]
    by_cases hj : j = k
    · rw [hj, h]
      split
      · rfl
      · rw [if_pos rfl]
    · rw [if_neg hj, h]
      split
      next hji =>
        rcases hi with hi | hi
        · exact absurd (hji.trans hi) hj
        · rw [hji, hi]
          rfl
      next => rfl
  · have hfx := lookupBy_around hn hf hi hl hk
    subst hl hk
    obtain ⟨hx, -⟩ := nodup_around hn
    rw [hm, lookupBy_insert hfx, hf x rfl, lookupBy_insert hx, lookupBy_insert hx, if_pos rfl]
    split
    · rfl
    · split
      next hj => rw [hj, hx]
      next => rfl

theorem nodup_rekey : ((modifyBy key f k l).map key).Nodup := by
  rcases @exists_split _ _ _ key f k l with ⟨-, hm, -⟩ | ⟨a, x, b, hk, hl, hm, -⟩
  · rwa [hm]
  · rw [hm]
    exact nodup_insert (nodup_around (hl ▸ hn)).2 (lookupBy_around hn hf hi hl hk)

end rekey

end keyed

end CwdGate.Lib
