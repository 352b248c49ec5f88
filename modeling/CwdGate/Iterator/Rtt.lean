import Mathlib

namespace CwdGate.Iterator
open List

/-- The number that `iter_fill_rtt` counts, over the `sel_rtt` of the targets. -/
def numSuitableResults (resultList : List Int) : Nat := resultList.countP (· ≠ -1)

/-- `nth_rtt`, when there is memory for the list. -/
def nthRtt (resultList : List Int) (numResults n : Nat) : Int :=
  if numResults < 1 ∨ n ≥ numResults then -1
  else
    let found := (resultList.take numResults).filter (· ≠ -1)
    ((found ++ replicate (numResults - found.length) 0).insertionSort (· ≤ ·)).getD (n - 1) 0

/-- The suitable targets that `nth_rtt` does not come to have rtt 0, but for one with the largest rtt
if no other is positive. -/
def FoundInFront (resultList : List Int) : Prop :=
  let found := (resultList.take (numSuitableResults resultList)).filter (· ≠ -1)
  let rest := (resultList.drop (numSuitableResults resultList)).filter (· ≠ -1)
  (∀ r ∈ rest, r = 0) ∨ ∃ s ∈ rest, (∀ r ∈ rest.erase s, r = 0) ∧ (∀ r ∈ found, r ≤ 0) ∧
    ∀ r ∈ found ++ rest, r ≤ s

section sorted
variable {l c found rest : List Int}

theorem insertionSort_eq_concat (hp : l.Perm (c ++ [s])) (hs : ∀ r ∈ c, r ≤ s) :
    l.insertionSort (· ≤ ·) = c.insertionSort (· ≤ ·) ++ [s] := by
  refine Perm.eq_of_pairwise (fun a b _ _ => le_antisymm) (pairwise_insertionSort _ _) ?_ ?_
  · refine pairwise_append.2 ⟨pairwise_insertionSort _ _, pairwise_singleton _ _, fun r hr t ht => ?_⟩
    rw [mem_singleton.1 ht]
    exact hs r ((mem_insertionSort _).1 hr)
  · exact (perm_insertionSort _ _).trans (hp.trans ((perm_insertionSort _ _).symm.append_right _))

theorem insertionSort_last (hl : l ≠ []) :
    ∃ (c : List Int) (s : Int), l.insertionSort (· ≤ ·) = c ++ [s] ∧
      (l : Multiset Int) = s ::ₘ (c : Multiset Int) ∧ ∀ r ∈ l, r ≤ s := by
  have hperm := perm_insertionSort (· ≤ ·) l
  obtain ⟨c, s, h⟩ := (eq_nil_or_concat' (l.insertionSort (· ≤ ·))).resolve_left fun h =>
    hl (h ▸ hperm).nil_eq.symm
  rw [h] at hperm
  refine ⟨c, s, h, Multiset.coe_eq_coe.2 (hperm.symm.trans (perm_append_singleton _ _)), ?_⟩
  intro r hr
  rcases mem_append.1 (hperm.mem_iff.2 hr) with hc | hc
  · exact (pairwise_append.1 (h ▸ pairwise_insertionSort (· ≤ ·) l)).2.2 r hc s mem_cons_self
  · exact le_of_eq (mem_singleton.1 hc)

theorem dropLast_sorted_iff :
    ((found ++ replicate rest.length 0).insertionSort (· ≤ ·)).dropLast =
        ((found ++ rest).insertionSort (· ≤ ·)).dropLast ↔
      (∀ r ∈ rest, r = 0) ∨ ∃ s ∈ rest, (∀ r ∈ rest.erase s, r = 0) ∧ (∀ r ∈ found, r ≤ 0) ∧
        ∀ r ∈ found ++ rest, r ≤ s := by
  constructor
  · intro h
    rcases eq_or_ne rest [] with rfl | hne
    · exact .inl nofun
    obtain ⟨c, x, ha, hfill, hx⟩ := @insertionSort_last (found ++ replicate rest.length 0) (by simp [hne])
    obtain ⟨c', y, hb, hall, hy⟩ := @insertionSort_last (found ++ rest) (by simp [hne])
    rw [ha, hb, dropLast_concat, dropLast_concat] at h
    subst h
    have hswap : y ::ₘ ↑(replicate rest.length (0 : Int)) = x ::ₘ (rest : Multiset Int) := by
      rw [← Multiset.add_right_inj (s := (found : Multiset Int))]
      rw [Multiset.add_cons, Multiset.add_cons, Multiset.coe_add, Multiset.coe_add, hfill, hall,
        Multiset.cons_swap]
    rcases Multiset.cons_eq_cons.1 hswap with ⟨-, hzero⟩ | ⟨-, cs, hzero, hrest⟩
    · left
      intro r hr
      exact eq_of_mem_replicate (Multiset.mem_coe.1 (hzero ▸ Multiset.mem_coe.2 hr))
    · have hcs : ∀ r ∈ x ::ₘ cs, r = 0 := fun r hr =>
        eq_of_mem_replicate (Multiset.mem_coe.1 (hzero ▸ hr))
      refine .inr ⟨y, Multiset.mem_coe.1 (hrest ▸ Multiset.mem_cons_self y cs), fun r hr => ?_, ?_, hy⟩
      · have := Multiset.coe_erase rest y
        rw [hrest, Multiset.erase_cons_head] at this
        exact hcs r (Multiset.mem_cons_of_mem (this ▸ Multiset.mem_coe.2 hr))
      · intro r hr
        rw [← hcs x (Multiset.mem_cons_self x cs)]
        exact hx r (mem_append_left _ hr)
  · rintro (hzero | ⟨s, hs, hzero, hneg, hmax⟩)
    · rw [← eq_replicate_of_mem hzero]
    have herase : rest.erase s = replicate (rest.length - 1) 0 :=
      eq_replicate_iff.2 ⟨length_erase_of_mem hs, hzero⟩
    have hrest : (found ++ rest).Perm (found ++ rest.erase s ++ [s]) := by
      rw [append_assoc]
      exact ((perm_cons_erase hs).trans (perm_append_singleton _ _).symm).append_left found
    have hfill : found ++ replicate rest.length 0 = found ++ rest.erase s ++ [0] := by
      rw [herase, append_assoc, ← replicate_succ', Nat.sub_add_cancel (length_pos_of_mem hs)]
    have hle : ∀ r ∈ found ++ rest.erase s, r ≤ 0 :=
      forall_mem_append.2 ⟨hneg, fun r hr => le_of_eq (hzero r hr)⟩
    rw [insertionSort_eq_concat (.of_eq hfill) hle, insertionSort_eq_concat hrest fun r hr =>
      hmax r (hrest.mem_iff.2 (mem_append_left _ hr)), dropLast_concat, dropLast_concat]

theorem dropLast_eq_iff {a b : List Int} (hlen : a.length = b.length) :
    a.dropLast = b.dropLast ↔ ∀ n, 1 ≤ n → n < a.length → a[n - 1]? = b[n - 1]? := by
  constructor
  · intro h n h1 hn
    have := congrArg (·[n - 1]?) h
    simp only [getElem?_dropLast, ← hlen] at this
    rwa [if_pos (by omega), if_pos (by omega)] at this
  · intro h
    refine ext_getElem? fun i => ?_
    rw [getElem?_dropLast, getElem?_dropLast, ← hlen]
    split
    · exact h (i + 1) (Nat.succ_pos i) (by omega)
    · rfl

end sorted

/-- `nth_rtt` finds the smallest rtts just when it comes to the targets that matter. -/
theorem nth_rtt_smallest_iff (resultList : List Int) :
    (∀ n, 1 ≤ n → n < numSuitableResults resultList →
      ((resultList.filter (· ≠ -1)).insertionSort (· ≤ ·))[n - 1]? =
        some (nthRtt resultList (numSuitableResults resultList) n)) ↔
      FoundInFront resultList := by
  generalize hfound : (resultList.take (numSuitableResults resultList)).filter (· ≠ -1) = found
  generalize hrest : (resultList.drop (numSuitableResults resultList)).filter (· ≠ -1) = rest
  have hall : resultList.filter (· ≠ -1) = found ++ rest := by
    rw [← hfound, ← hrest, ← filter_append, take_append_drop]
  have hnum : numSuitableResults resultList = found.length + rest.length := by
    rw [numSuitableResults, countP_eq_length_filter, hall, length_append]
  have hlen : ((found ++ replicate rest.length 0).insertionSort (· ≤ ·)).length =
      numSuitableResults resultList := by
    rw [length_insertionSort, length_append, length_replicate, hnum]
  rw [FoundInFront, hfound, hrest, ← dropLast_sorted_iff, dropLast_eq_iff, hlen]
  · refine forall₃_congr fun n h1 hn => ?_
    rw [nthRtt, if_neg (by omega), hall, hfound, hnum]
    dsimp only
    have hget := getElem?_eq_getElem (show n - 1 < _ from hlen ▸ Nat.lt_of_le_of_lt (n.sub_le 1) hn)
    rw [Nat.add_sub_cancel_left, getD_eq_getElem?_getD, hget, Option.getD_some, eq_comm]
  · rw [length_insertionSort, length_insertionSort, length_append, length_append, length_replicate]

/-- The second target is the best one, and the zero of the array is returned. -/
theorem nth_rtt_zero :
    nthRtt [-1, 30, 70] 2 1 = 0 ∧ ([-1, 30, 70].filter (· ≠ -1)).insertionSort (· ≤ ·) = [30, 70] := by
  decide

end CwdGate.Iterator
