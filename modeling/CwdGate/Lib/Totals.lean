import Mathlib

namespace CwdGate.Lib
open Function

def total {σ : Type} (elems : List Nat) (st : Nat → σ) (w : σ → Int) : Int :=
  (elems.map fun s => w (st s)).sum

section total
variable {elems : List Nat} {st : Nat → σ} {w : σ → Int} {s : Nat}

@[simp] theorem total_nil : total [] st w = 0 := rfl

@[simp] theorem total_cons :
    total (s :: elems) st w = w (st s) + total elems st w :=
  List.sum_cons

theorem total_congr (h : ∀ s ∈ elems, w (st s) = w (st' s)) : total elems st w = total elems st' w := by
  rw [total, total, List.map_congr_left h]

theorem total_perm (h : elems'.Perm elems) : total elems' st w = total elems st w :=
  (h.map _).sum_eq

theorem total_update_of_notMem (h : s ∉ elems) :
    total elems (update st s x) w = total elems st w := by
  apply total_congr
  intro t ht
  have hne : t ≠ s := fun heq => h (heq ▸ ht)
  rw [update_of_ne hne]

theorem total_erase (h : s ∈ elems) : total (elems.erase s) st w = total elems st w - w (st s) := by
  have hperm := (List.perm_cons_erase h).map fun s => w (st s)
  have hsum := hperm.sum_eq
  rw [List.map_cons, List.sum_cons] at hsum
  rw [total, total, hsum]
  omega

theorem total_update (hn : elems.Nodup) (h : s ∈ elems) :
    total elems (update st s x) w = total elems st w - w (st s) + w x := by
  have hnot : s ∉ elems.erase s := hn.not_mem_erase
  have hupdate := @total_erase σ elems (update st s x) w s h
  rw [total_update_of_notMem hnot, total_erase h, update_self] at hupdate
  omega

theorem total_ite (p : σ → Bool) :
    total elems st (fun x => if p x then 1 else 0) = elems.countP fun s => p (st s) := by
  induction elems with
  | nil => rfl
  | cons s elems ih =>
    rw [total_cons, ih, List.countP_cons]
    split
    · rw [Int.natCast_add, Int.add_comm]
      rfl
    · rw [Nat.add_zero, Int.zero_add]

end total

end CwdGate.Lib
