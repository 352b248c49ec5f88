import Mathlib

namespace CwdGate.Lib
open List

/-- What a user of a bounded map sees of one call. -/
inductive Event (κ δ : Type) where
  | insert (k : κ) (d : δ) (evicted : List κ)
  | lookup (k : κ) (found : Bool)
  | remove (k : κ)

section recency
variable {κ δ : Type} (same : κ → κ → Prop) [DecidableRel same]

/-- The data of the last insert of `k`, if it is still there. A history has its last event first. -/
def dataOf : List (Event κ δ) → κ → Option δ
  | [], _ => none
  | .insert k' d ev :: h, k =>
    if ∃ x ∈ ev, same x k then none else if same k' k then some d else dataOf h k
  | .lookup _ _ :: h, k => dataOf h k
  | .remove k' :: h, k => if same k' k then none else dataOf h k

/-- The time of the last insert or successful lookup of `k`. -/
def lastUse : List (Event κ δ) → κ → Nat
  | [], _ => 0
  | .insert k' _ _ :: h, k => if same k' k then h.length + 1 else lastUse h k
  | .lookup k' found :: h, k =>
    if found = true ∧ same k' k then h.length + 1 else lastUse h k
  | .remove _ :: h, k => lastUse h k

/-- The live entries of a history, the most recently used one first. -/
structure Recent (h : List (Event κ δ)) (l : List (κ × δ)) : Prop where
  data : ∀ k d, dataOf same h k = some d ↔ ∃ e ∈ l, same e.1 k ∧ e.2 = d
  order : l.Pairwise fun a b => lastUse same h b.1 < lastUse same h a.1

def without (k : κ) (l : List (κ × δ)) : List (κ × δ) := l.filter fun e => ¬ same e.1 k

variable {same} {h : List (Event κ δ)} {l : List (κ × δ)}

theorem mem_without : e ∈ without same k l ↔ e ∈ l ∧ ¬ same e.1 k := by
  simp [without]

theorem without_of_forall (hk : ∀ e ∈ l, ¬ same e.1 k) : without same k l = l :=
  filter_eq_self.2 fun e he => by simpa using hk e he

theorem lastUse_le : lastUse same h k ≤ h.length := by
  induction h with
  | nil => exact Nat.le_refl 0
  | cons ev h ih =>
    cases ev with
    | insert k' d evs =>
      rw [lastUse]
      split
      · exact Nat.le_refl _
      · exact Nat.le_succ_of_le ih
    | lookup k' found =>
      rw [lastUse]
      split
      · exact Nat.le_refl _
      · exact Nat.le_succ_of_le ih
    | remove k' => exact Nat.le_succ_of_le ih

theorem Recent.nil : Recent same ([] : List (Event κ δ)) [] := ⟨by simp [dataOf], .nil⟩

theorem Recent.order_without (hr : Recent same h l)
    (hev : ∀ k', ¬ same k' k → lastUse same (ev :: h) k' = lastUse same h k') :
    (without same k l).Pairwise
      fun a b => lastUse same (ev :: h) b.1 < lastUse same (ev :: h) a.1 := by
  refine (hr.order.sublist filter_sublist).imp_of_mem fun {a b} ha hb hlt => ?_
  rwa [hev _ (mem_without.1 ha).2, hev _ (mem_without.1 hb).2]

variable (heq : Equivalence same)
include heq

omit [DecidableRel same] in
theorem same_congr (hab : same a b) : same k a ↔ same k b :=
  ⟨fun hk => heq.trans hk hab, fun hk => heq.trans hk (heq.symm hab)⟩

theorem lastUse_congr (hab : same a b) : lastUse same h a = lastUse same h b := by
  induction h with
  | nil => rfl
  | cons ev h ih =>
    cases ev with
    | insert k' d evs => simp only [lastUse, same_congr heq hab, ih]
    | lookup k' found => simp only [lastUse, same_congr heq hab, ih]
    | remove k' => exact ih

theorem Recent.distinct (hr : Recent same h l) : l.Pairwise fun a b => ¬ same a.1 b.1 :=
  hr.order.imp fun {a b} hlt hab => by
    rw [lastUse_congr heq hab] at hlt
    exact Nat.lt_irrefl _ hlt

theorem Recent.without_split (hr : Recent same h (xs ++ e :: ys)) (hk : same e.1 k) :
    without same k (xs ++ e :: ys) = xs ++ ys := by
  have hd := hr.distinct heq
  rw [pairwise_append, pairwise_cons] at hd
  obtain ⟨-, ⟨hys, -⟩, hxs⟩ := hd
  have h1 := without_of_forall fun a ha hak =>
    hxs a ha e mem_cons_self (heq.trans hak (heq.symm hk))
  have h2 := without_of_forall fun a ha hak => hys a ha (heq.trans hk (heq.symm hak))
  unfold without at h1 h2 ⊢
  rw [filter_append, filter_cons, h1, h2]
  simp [hk]

theorem Recent.order_front (hr : Recent same h l) (hk : same k₀ k)
    (huse : lastUse same (ev :: h) k = h.length + 1)
    (hev : ∀ k', ¬ same k' k → lastUse same (ev :: h) k' = lastUse same h k') :
    ((k₀, d) :: without same k l).Pairwise
      fun a b => lastUse same (ev :: h) b.1 < lastUse same (ev :: h) a.1 := by
  refine pairwise_cons.2 ⟨fun b hb => ?_, hr.order_without hev⟩
  rw [hev _ (mem_without.1 hb).2, lastUse_congr heq hk, huse]
  exact Nat.lt_succ_of_le lastUse_le

theorem Recent.insert (hr : Recent same h l) (hk : same k₀ k) (d : δ) :
    Recent same (.insert k d [] :: h) ((k₀, d) :: without same k l) where
  data k' d' := by
    have hnone : ¬ ∃ x ∈ ([] : List κ), same x k' := by simp
    rw [dataOf, if_neg hnone]
    by_cases hkk : same k k'
    · rw [if_pos hkk]
      constructor
      · intro hd
        exact ⟨(k₀, d), mem_cons_self, heq.trans hk hkk, Option.some.inj hd⟩
      · rintro ⟨e, he, hek, rfl⟩
        rcases mem_cons.1 he with rfl | he
        · rfl
        · exact absurd (heq.trans hek (heq.symm hkk)) (mem_without.1 he).2
    · rw [if_neg hkk, hr.data]
      constructor
      · rintro ⟨e, he, hek, hd⟩
        exact ⟨e, mem_cons_of_mem _ (mem_without.2
          ⟨he, fun hc => hkk (heq.trans (heq.symm hc) hek)⟩), hek, hd⟩
      · rintro ⟨e, he, hek, hd⟩
        rcases mem_cons.1 he with rfl | he
        · exact absurd (heq.trans (heq.symm hk) hek) hkk
        · exact ⟨e, (mem_without.1 he).1, hek, hd⟩
  order := hr.order_front heq hk (by rw [lastUse, if_pos (heq.refl k)])
    fun k' hk' => by rw [lastUse, if_neg fun hc => hk' (heq.symm hc)]

theorem Recent.evict (hr : Recent same (.insert k d [] :: h) (kept ++ ev)) :
    Recent same (.insert k d (ev.map Prod.fst) :: h) kept where
  data k' d' := by
    have hd := hr.distinct heq
    have hdat := hr.data k' d'
    have hnone : ¬ ∃ x ∈ ([] : List κ), same x k' := by simp
    rw [dataOf, if_neg hnone] at hdat
    rw [dataOf]
    by_cases hev : ∃ x ∈ ev.map Prod.fst, same x k'
    · obtain ⟨x, hx, hxk⟩ := hev
      obtain ⟨e', he', rfl⟩ := mem_map.1 hx
      rw [if_pos ⟨_, hx, hxk⟩]
      refine ⟨nofun, ?_⟩
      rintro ⟨e, he, hek, -⟩
      exact absurd (heq.trans hek (heq.symm hxk)) ((pairwise_append.1 hd).2.2 e he e' he')
    · rw [if_neg hev, hdat]
      constructor
      · rintro ⟨e, he, hek, hde⟩
        rcases mem_append.1 he with he | he
        · exact ⟨e, he, hek, hde⟩
        · exact absurd ⟨e.1, mem_map_of_mem he, hek⟩ hev
      · rintro ⟨e, he, hek, hde⟩
        exact ⟨e, mem_append_left _ he, hek, hde⟩
  order := (pairwise_append.1 hr.order).1

theorem Recent.lookup (hr : Recent same h l) (he : e ∈ l) (hk : same e.1 k) :
    Recent same (.lookup k true :: h) (e :: without same k l) where
  data k' d' := by
    rw [dataOf, hr.data]
    constructor
    · rintro ⟨a, ha, hak, hd⟩
      by_cases hka : same a.1 k
      · refine ⟨e, mem_cons_self, heq.trans hk (heq.trans (heq.symm hka) hak), ?_⟩
        have h1 := (hr.data k e.2).2 ⟨e, he, hk, rfl⟩
        have h2 := (hr.data k a.2).2 ⟨a, ha, hka, rfl⟩
        exact (Option.some.inj (h1.symm.trans h2)).trans hd
      · exact ⟨a, mem_cons_of_mem _ (mem_without.2 ⟨ha, hka⟩), hak, hd⟩
    · rintro ⟨a, ha, hak, hd⟩
      rcases mem_cons.1 ha with rfl | ha
      · exact ⟨a, he, hak, hd⟩
      · exact ⟨a, (mem_without.1 ha).1, hak, hd⟩
  order := hr.order_front heq hk (by rw [lastUse, if_pos ⟨rfl, heq.refl k⟩])
    fun k' hk' => by rw [lastUse, if_neg fun hc => hk' (heq.symm hc.2)]

omit heq in
theorem Recent.miss (hr : Recent same h l) : Recent same (.lookup k false :: h) l where
  data k' d' := by rw [dataOf, hr.data]
  order := by simpa only [lastUse, Bool.false_eq_true, false_and, if_false] using hr.order

theorem Recent.remove (hr : Recent same h l) (k : κ) :
    Recent same (.remove k :: h) (without same k l) where
  data k' d' := by
    rw [dataOf]
    by_cases hk : same k k'
    · rw [if_pos hk]
      refine ⟨nofun, ?_⟩
      rintro ⟨e, he, hek, -⟩
      exact absurd (heq.trans hek (heq.symm hk)) (mem_without.1 he).2
    · rw [if_neg hk, hr.data]
      constructor
      · rintro ⟨e, he, hek, hd⟩
        exact ⟨e, mem_without.2 ⟨he, fun hc => hk (heq.trans (heq.symm hc) hek)⟩, hek, hd⟩
      · rintro ⟨e, he, hek, hd⟩
        exact ⟨e, (mem_without.1 he).1, hek, hd⟩
  order := hr.order_without fun _ _ => rfl

end recency

end CwdGate.Lib
