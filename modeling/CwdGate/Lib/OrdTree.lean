import CwdGate.Lib.Chain
import CwdGate.Lib.Lex

/-! An ordered tree of nested places, in which each node is linked to the nearest one above it: the
pass that sets the links, and the search that goes up along them. -/
namespace CwdGate.Lib
open Std List

section

section ordered
variable {ι : Type}

def insertOrd (c : ι → ι → Ordering) (x : ι) : List ι → List ι
  | [] => [x]
  | y :: ys =>
    match c x y with
    | .lt => x :: y :: ys
    | .eq => y :: ys
    | .gt => y :: insertOrd c x ys

def findLE (c : ι → Ordering) (l : List ι) : Option ι := (l.filter fun y => (c y).isLE).getLast?

def nextOf [DecidableEq ι] (l : List ι) (p : ι) : Option ι :=
  ((l.dropWhile fun q => q ≠ p).drop 1).head?

theorem insertOrd_cases (l : List ι) :
    (insertOrd c x l = l ∧ ∃ y ∈ l, c x y = .eq) ∨
    ∃ a b, l = a ++ b ∧ insertOrd c x l = a ++ x :: b := by
  induction l with
  | nil => exact .inr ⟨[], [], rfl, rfl⟩
  | cons y ys ih =>
    rw [insertOrd]
    split
    next => exact .inr ⟨[], y :: ys, rfl, rfl⟩
    next he => exact .inl ⟨rfl, y, mem_cons_self, he⟩
    next =>
      rcases ih with ⟨hi, z, hz, he⟩ | ⟨a, b, hl, hi⟩
      · exact .inl ⟨by rw [hi], z, mem_cons_of_mem _ hz, he⟩
      · exact .inr ⟨y :: a, b, by rw [hl]; rfl, by rw [hi]; rfl⟩

theorem exists_insertOrd {c : ι → ι → Ordering} {x : ι} {l : List ι} (h : ∀ y ∈ l, c x y ≠ .eq) :
    ∃ a b, l = a ++ b ∧ insertOrd c x l = a ++ x :: b :=
  (insertOrd_cases l).resolve_left fun ⟨_, y, hy, he⟩ => h y hy he

theorem perm_insertOrd (h : ∀ y ∈ l, c x y ≠ .eq) : (insertOrd c x l).Perm (x :: l) := by
  obtain ⟨a, b, hl, hi⟩ := exists_insertOrd h
  rw [hi, hl]
  exact perm_middle

theorem mem_of_mem_insertOrd (h : z ∈ insertOrd c x l) : z = x ∨ z ∈ l := by
  rcases insertOrd_cases l with ⟨hi, -⟩ | ⟨a, b, rfl, hi⟩
  · exact .inr (hi ▸ h)
  · rw [hi] at h
    exact mem_cons.1 (perm_middle.mem_iff.1 h)

theorem mem_insertOrd_of_mem (h : z ∈ l) : z ∈ insertOrd c x l := by
  rcases insertOrd_cases l with ⟨hi, -⟩ | ⟨a, b, rfl, hi⟩
  · rwa [hi]
  · rw [hi]
    exact perm_middle.mem_iff.2 (mem_cons_of_mem _ h)

theorem exists_mem_insertOrd (hx : c x x = .eq) : ∃ y ∈ insertOrd c x l, c x y = .eq := by
  rcases insertOrd_cases l with ⟨hi, hy⟩ | ⟨a, b, -, hi⟩
  · rwa [hi]
  · rw [hi]
    exact ⟨x, mem_append_right _ mem_cons_self, hx⟩

theorem insertOrd_congr (h : ∀ y ∈ l, c x y = c' x y) : insertOrd c x l = insertOrd c' x l := by
  induction l with
  | nil => rfl
  | cons y ys ih =>
    rw [insertOrd, insertOrd, h y mem_cons_self, ih (forall_mem_cons.1 h).2]

def insertAll (c : ι → ι → Ordering) (l acc : List ι) : List ι :=
  l.foldl (fun tree x => insertOrd c x tree) acc

theorem insertAll_congr {P : ι → Prop} (h : ∀ x y, P x → P y → c x y = c' x y) (hl : ∀ x ∈ l, P x)
    (hacc : ∀ x ∈ acc, P x) : insertAll c l acc = insertAll c' l acc := by
  induction l generalizing acc with
  | nil => rfl
  | cons x l ih =>
    have hx := hl x mem_cons_self
    rw [insertAll, insertAll, foldl_cons, foldl_cons,
      insertOrd_congr fun y hy => h x y hx (hacc y hy)]
    refine ih (forall_mem_cons.1 hl).2 fun y hy => ?_
    rcases mem_of_mem_insertOrd hy with rfl | hy
    · exact hx
    · exact hacc y hy

theorem mem_of_mem_insertAll (h : z ∈ insertAll c l acc) : z ∈ l ∨ z ∈ acc := by
  induction l generalizing acc with
  | nil => exact .inr h
  | cons x l ih =>
    rcases ih h with h | h
    · exact .inl (mem_cons_of_mem _ h)
    · rcases mem_of_mem_insertOrd h with rfl | h
      · exact .inl mem_cons_self
      · exact .inr h

theorem mem_insertAll_of_mem (h : z ∈ acc) : z ∈ insertAll c l acc := by
  induction l generalizing acc with
  | nil => exact h
  | cons x l ih => exact ih (mem_insertOrd_of_mem h)

theorem exists_mem_insertAll {c : ι → ι → Ordering} (hc : ∀ x, c x x = .eq) {l acc : List ι}
    {x : ι} (h : x ∈ l) : ∃ y ∈ insertAll c l acc, c x y = .eq := by
  induction l generalizing acc with
  | nil => cases h
  | cons z l ih =>
    rcases mem_cons.1 h with rfl | h
    · obtain ⟨y, hy, he⟩ := exists_mem_insertOrd (hc x)
      have hmem : y ∈ insertAll c l (insertOrd c x acc) := mem_insertAll_of_mem hy
      exact ⟨y, hmem, he⟩
    · exact ih h

variable {κ : Type} {c : κ → κ → Ordering} [TransCmp c] {f : ι → κ}

theorem pairwise_insertOrd (hs : l.Pairwise fun p q => c (f p) (f q) = .lt) :
    (insertOrd (fun p q => c (f p) (f q)) x l).Pairwise fun p q => c (f p) (f q) = .lt := by
  induction l with
  | nil => exact pairwise_singleton _ _
  | cons y ys ih =>
    obtain ⟨hy, hys⟩ := pairwise_cons.1 hs
    rw [insertOrd]
    split
    next hlt =>
      refine pairwise_cons.2 ⟨fun z hz => ?_, hs⟩
      rcases mem_cons.1 hz with rfl | hz
      · exact hlt
      · exact TransCmp.lt_trans hlt (hy z hz)
    next => exact hs
    next hgt =>
      refine pairwise_cons.2 ⟨fun z hz => ?_, ih hys⟩
      rcases mem_of_mem_insertOrd hz with rfl | hm
      · exact OrientedCmp.lt_of_gt hgt
      · exact hy z hm

theorem pairwise_insertAll (hs : acc.Pairwise fun p q => c (f p) (f q) = .lt) :
    (insertAll (fun p q => c (f p) (f q)) l acc).Pairwise fun p q => c (f p) (f q) = .lt := by
  induction l generalizing acc with
  | nil => exact hs
  | cons x l ih => exact ih (pairwise_insertOrd hs)

theorem nodup_of_pairwise_lt {l : List ι} (hs : l.Pairwise fun p q => c (f p) (f q) = .lt) :
    (l.map f).Nodup := by
  refine pairwise_map.2 (hs.imp ?_)
  intro p q hlt heq
  rw [heq] at hlt
  cases hlt.symm.trans ReflCmp.compare_self

theorem eq_of_pairwise_lt {as bs : List κ} (ha : as.Pairwise fun p q => c p q = .lt)
    (hb : bs.Pairwise fun p q => c p q = .lt) (hm : ∀ x, x ∈ as ↔ x ∈ bs) : as = bs := by
  refine Perm.eq_of_pairwise (fun p q _ _ hpq hqp => ?_) ha hb ?_
  · cases hpq.symm.trans (OrientedCmp.gt_of_lt hqp)
  · have ha := nodup_of_pairwise_lt (f := id) ha
    have hb := nodup_of_pairwise_lt (f := id) hb
    rw [map_id] at ha hb
    exact (perm_ext_iff_of_nodup ha hb).2 hm

theorem mem_insertAll_range [LawfulEqCmp c] {f : Nat → κ} :
    i ∈ insertAll (fun p q => c (f p) (f q)) (range n) [] ↔ i < n ∧ ∀ j < i, f j ≠ f i := by
  induction n generalizing i with
  | zero => exact iff_of_false nofun nofun
  | succ n ih =>
    have hstep : insertAll (fun p q => c (f p) (f q)) (range (n + 1)) [] =
        insertOrd (fun p q => c (f p) (f q)) n
          (insertAll (fun p q => c (f p) (f q)) (range n) []) := by
      rw [range_succ]
      exact foldl_append
    rw [hstep]
    by_cases hfirst : ∀ j < n, f j ≠ f n
    · rw [(perm_insertOrd fun y hy he => ?_).mem_iff, mem_cons, ih]
      · grind
      · exact hfirst y (ih.1 hy).1 (LawfulEqCmp.eq_of_compare he).symm
    push Not at hfirst
    obtain ⟨j, hj, heq⟩ := hfirst
    obtain ⟨y, hy, he⟩ := @exists_mem_insertAll _ (fun p q => c (f p) (f q))
      (fun _ => ReflCmp.compare_self) (range n) [] j (mem_range.2 hj)
    have hs : (insertAll (fun p q => c (f p) (f q)) (range n) []).Pairwise
        fun p q => c (f p) (f q) = .lt := pairwise_insertAll .nil
    constructor
    · intro hi
      rcases mem_of_mem_insertOrd hi with rfl | hi'
      · have hyi := inj_on_of_nodup_map (nodup_of_pairwise_lt (pairwise_insertOrd hs))
          (mem_insertOrd_of_mem hy) hi
          ((LawfulEqCmp.eq_of_compare he).symm.trans heq)
        exact absurd hyi (Nat.ne_of_lt (ih.1 hy).1)
      · exact ⟨(ih.1 hi').1.trans (Nat.lt_succ_self _), (ih.1 hi').2⟩
    · rintro ⟨hi, hnew⟩
      refine mem_insertOrd_of_mem (ih.2 ⟨?_, hnew⟩)
      refine Nat.lt_of_le_of_ne (Nat.le_of_lt_succ hi) ?_
      rintro rfl
      exact hnew j hj heq

theorem perm_insertAll [LawfulEqCmp c] (hn : (l ++ acc).Nodup)
    (hinj : ∀ p ∈ l ++ acc, ∀ q ∈ l ++ acc, f p = f q → p = q)
    (hs : acc.Pairwise fun p q => c (f p) (f q) = .lt) :
    (insertAll (fun p q => c (f p) (f q)) l acc).Perm (l ++ acc) := by
  have hmem : ∀ q, q ∈ insertAll (fun p q => c (f p) (f q)) l acc → q ∈ l ++ acc := fun q hq =>
    mem_append.2 (mem_of_mem_insertAll hq)
  refine (perm_ext_iff_of_nodup ?_ hn).2 fun p => ⟨hmem p, fun hp => ?_⟩
  · exact (nodup_of_pairwise_lt (pairwise_insertAll hs)).of_map f
  · rcases mem_append.1 hp with hl | hacc
    · obtain ⟨q, hq, he⟩ := @exists_mem_insertAll _ (fun p q => c (f p) (f q))
        (fun _ => ReflCmp.compare_self) l acc p hl
      rw [hinj p hp q (hmem q hq) (LawfulEqCmp.eq_of_compare he)]
      exact hq
    · exact mem_insertAll_of_mem hacc

omit [TransCmp c] in
theorem findLE_none (h : findLE (fun p => c (f p) k) l = none) : ∀ q ∈ l, c (f q) k = .gt := by
  intro q hq
  rw [findLE, getLast?_eq_none_iff, filter_eq_nil_iff] at h
  cases hc : c (f q) k <;> simp_all

theorem findLE_some (hs : l.Pairwise fun p q => c (f p) (f q) = .lt)
    (h : findLE (fun p => c (f p) k) l = some p) :
    p ∈ l ∧ (c (f p) k).isLE ∧ ∀ q ∈ l, (c (f q) k).isLE → (c (f q) (f p)).isLE := by
  obtain ⟨ys, hys⟩ := getLast?_eq_some_iff.1 h
  have hmem : ∀ q, q ∈ ys ++ [p] ↔ q ∈ l ∧ (c (f q) k).isLE := fun q => by
    rw [← hys, mem_filter]
  obtain ⟨hp, hle⟩ := (hmem p).1 (by simp)
  refine ⟨hp, hle, fun q hq hqk => ?_⟩
  have hsub : (ys ++ [p]).Pairwise fun p q => c (f p) (f q) = .lt := by
    rw [← hys]
    exact hs.filter _
  rcases mem_append.1 ((hmem q).2 ⟨hq, hqk⟩) with hm | hm
  · exact Ordering.isLE_of_eq_lt ((pairwise_append.1 hsub).2.2 q hm p (by simp))
  · rw [mem_singleton.1 hm, @ReflCmp.compare_self _ c]
    rfl

theorem nextOf_append [DecidableEq ι] {ys : List ι} (hn : p ∉ xs) :
    nextOf (xs ++ p :: ys) p = ys.head? := by
  have h : (xs ++ p :: ys).dropWhile (fun q => q ≠ p) = p :: ys := by
    rw [dropWhile_append_of_pos]
    · simp
    · intro q hq
      have : q ≠ p := fun he => hn (he ▸ hq)
      simpa using this
  rw [nextOf, h]
  rfl

end ordered

section paths
variable {γ α : Type}

def pathCmp (ct : γ → γ → Ordering) (ca : α → α → Ordering) (a b : γ × List α) : Ordering :=
  (ct a.1 b.1).then (a.2.compareLex ca b.2)

/-- A comparison that looks at a number first, in the way it is written in C. -/
theorem ite_lt_eq_then (a b : UInt16) :
    (if a ≠ b then if a < b then .lt else .gt else o) = (compare a b).then o := by
  have hcmp : compare a b = if a < b then .lt else if a = b then .eq else .gt := rfl
  rw [hcmp]
  by_cases heq : a = b
  · have hlt : ¬ a < b := heq ▸ UInt16.lt_irrefl b
    rw [if_neg (not_not_intro heq), if_neg hlt, if_pos heq]
    rfl
  · rw [if_pos heq, if_neg heq]
    split <;> rfl

variable {ct : γ → γ → Ordering} {ca : α → α → Ordering} [TransCmp ct] [LawfulEqCmp ct]
  [TransCmp ca] [LawfulEqCmp ca]

instance : TransCmp (pathCmp ct ca) where
  eq_swap {a b} := by
    rw [pathCmp, pathCmp, Ordering.swap_then, @OrientedCmp.eq_swap _ ct,
      @OrientedCmp.eq_swap _ (List.compareLex ca)]
  isLE_trans {a b d} hab hbd := by
    rw [pathCmp, Ordering.isLE_then_iff_or] at *
    rcases hab with hab | ⟨hab, hab'⟩ <;> rcases hbd with hbd | ⟨hbd, hbd'⟩
    · exact .inl (TransCmp.lt_trans hab hbd)
    · exact .inl (TransCmp.lt_of_lt_of_eq hab hbd)
    · exact .inl (TransCmp.lt_of_eq_of_lt hab hbd)
    · exact .inr ⟨TransCmp.eq_trans hab hbd, TransCmp.isLE_trans hab' hbd'⟩

omit [TransCmp ct] [TransCmp ca] in
theorem pathCmp_eq_iff : pathCmp ct ca a b = .eq ↔ a = b := by
  rw [pathCmp, Ordering.then_eq_eq, LawfulEqCmp.compare_eq_iff_eq,
    LawfulEqCmp.compare_eq_iff_eq, Prod.ext_iff]

instance : LawfulEqCmp (pathCmp ct ca) where
  eq_of_compare := pathCmp_eq_iff.1

theorem above_of_between (ha : Above a k) (hab : (pathCmp ct ca a b).isLE)
    (hbk : (pathCmp ct ca b k).isLE) : Above a b := by
  rw [pathCmp, Ordering.isLE_then_iff_or] at hab hbk
  have htk : ct a.1 k.1 = .eq := by rw [ha.1]; exact ReflCmp.compare_self
  have htb : ct a.1 b.1 = .eq := by
    rcases hab with hlt | ⟨he, -⟩
    · rcases hbk with hlt' | ⟨he', -⟩
      · rw [TransCmp.lt_trans hlt hlt'] at htk
        cases htk
      · rw [TransCmp.lt_of_lt_of_eq hlt he'] at htk
        cases htk
    · exact he
  have heq : a.1 = b.1 := LawfulEqCmp.eq_of_compare htb
  have hbk1 : ct b.1 k.1 = .eq := by rw [← heq]; exact htk
  rcases hab with hlt | ⟨-, hle⟩
  · rw [htb] at hlt
    cases hlt
  · rcases hbk with hlt | ⟨-, hle'⟩
    · rw [hbk1] at hlt
      cases hlt
    · exact ⟨heq, prefix_of_between (prefix_refl _) ha.2 hle hle'⟩

omit [TransCmp ct] [TransCmp ca] in
theorem above_isLE (h : Above a b) : (pathCmp ct ca a b).isLE := by
  rw [pathCmp, h.1, @ReflCmp.compare_self _ ct]
  exact prefix_isLE h.2

end paths

variable {ι γ α : Type}

def StrictlyAbove (a b : γ × List α) : Prop := Above a b ∧ a.2.length < b.2.length

instance [DecidableEq γ] [DecidableEq α] (a b : γ × List α) : Decidable (StrictlyAbove a b) :=
  inferInstanceAs (Decidable (Above a b ∧ a.2.length < b.2.length))

section strict
variable {a b c : γ × List α}

theorem StrictlyAbove.ne (h : StrictlyAbove a b) : a ≠ b := by
  rintro rfl
  exact Nat.lt_irrefl _ h.2

theorem StrictlyAbove.trans_above (h : StrictlyAbove a b) (h' : Above b c) : StrictlyAbove a c :=
  ⟨h.1.trans h', Nat.lt_of_lt_of_le h.2 h'.2.length_le⟩

theorem Above.eq_or_strict (h : Above a b) : a = b ∨ StrictlyAbove a b := by
  rcases Nat.lt_or_ge a.2.length b.2.length with hlt | hge
  · exact .inr ⟨h, hlt⟩
  · exact .inl (Prod.ext h.1 (h.2.eq_of_length_le hge))

theorem Above.total (ha : Above a c) (hb : Above b c) : Above a b ∨ StrictlyAbove b a := by
  rcases Nat.lt_or_ge b.2.length a.2.length with hlt | hge
  · exact .inr ⟨⟨hb.1.trans ha.1.symm, prefix_of_prefix_length_le hb.2 ha.2 hlt.le⟩, hlt⟩
  · exact .inl ⟨ha.1.trans hb.1.symm, prefix_of_prefix_length_le ha.2 hb.2 hge⟩

end strict

/-- Of the elements whose path has a property, the one that all others are above. -/
def Nearest (l : List ι) (path : ι → γ × List α) (P : γ × List α → Prop) : Option ι → Prop
  | none => ∀ q ∈ l, ¬ P (path q)
  | some p => p ∈ l ∧ P (path p) ∧ ∀ q ∈ l, P (path q) → Above (path q) (path p)

theorem Nearest.isSome_iff (h : Nearest l path P r) : r.isSome = true ↔ ∃ q ∈ l, P (path q) := by
  cases r with
  | none => exact iff_of_false (by simp) fun ⟨q, hq, hP⟩ => h q hq hP
  | some p => exact iff_of_true rfl ⟨p, h.1, h.2.1⟩

theorem Nearest.singleton (h : Nearest [x] path P r) :
    (P (path x) ∧ r = some x) ∨ (¬ P (path x) ∧ r = none) := by
  cases r with
  | none => exact .inr ⟨h x (List.mem_singleton.2 rfl), rfl⟩
  | some p =>
    obtain rfl := List.mem_singleton.1 h.1
    exact .inl ⟨h.2.1, rfl⟩

/-- The parent of an element is the nearest one above it, among the elements `old`. -/
def Parents (old l : List ι) (path : ι → γ × List α) (parent : ι → Option ι) : Prop :=
  ∀ p ∈ l, Nearest old path (fun a => StrictlyAbove a (path p)) (parent p)

theorem Parents.of_none (h : ∀ p, parent p = none) : Parents [] l path parent := by
  intro p _
  rw [h]
  exact nofun

/-- Go up from an element to the first one that fits. -/
def climb (ok : ι → Bool) (parent : ι → Option ι) : Nat → Option ι → Option ι
  | fuel + 1, some p => if ok p then some p else climb ok parent fuel (parent p)
  | _, _ => none

section nearest
variable {l old : List ι} {path : ι → γ × List α} {P Q : γ × List α → Prop} {r : Option ι}
  {parent : ι → Option ι}

theorem Nearest.congr (h : Nearest l path P r)
    (hl : ∀ p, p ∈ l' ∧ Q (path p) ↔ p ∈ l ∧ P (path p)) : Nearest l' path Q r := by
  cases r with
  | none =>
    intro q hq hQ
    obtain ⟨hq', hP⟩ := (hl q).1 ⟨hq, hQ⟩
    exact h q hq' hP
  | some p =>
    obtain ⟨hp, hP, hall⟩ := h
    obtain ⟨hp', hQ⟩ := (hl p).2 ⟨hp, hP⟩
    refine ⟨hp', hQ, ?_⟩
    intro q hq hq'
    obtain ⟨hq, hq'⟩ := (hl q).1 ⟨hq, hq'⟩
    exact hall q hq hq'

theorem Nearest.of_cons (h : Nearest (x :: l) path P r) (hx : x ∈ l) : Nearest l path P r := by
  apply h.congr
  intro q
  refine and_congr_left ?_
  intro _
  refine ⟨mem_cons_of_mem _, fun hq => ?_⟩
  rcases mem_cons.1 hq with rfl | hq
  · exact hx
  · exact hq

theorem climb_nearest (hok : ∀ p ∈ l, ok p = true ↔ (path p).2.length ≤ m) (hold : ∀ p ∈ old, p ∈ l)
    (hpar : Parents old l path parent) (hp : p ∈ l) (hfuel : (path p).2.length < fuel) :
    Nearest (p :: old) path (fun a => Above a (path p) ∧ a.2.length ≤ m)
      (climb ok parent fuel (some p)) := by
  induction fuel generalizing p with
  | zero => exact absurd hfuel (Nat.not_lt_zero _)
  | succ fuel ih =>
    rw [climb]
    by_cases hfit : ok p = true
    · rw [if_pos hfit]
      refine ⟨mem_cons_self, ⟨.refl _, (hok p hp).1 hfit⟩, ?_⟩
      intro q _ hq
      exact hq.1
    · rw [if_neg hfit]
      have hlong : ¬ (path p).2.length ≤ m := by
        rw [← hok p hp]
        exact hfit
      have hstrict : ∀ q, Above (path q) (path p) → (path q).2.length ≤ m →
          StrictlyAbove (path q) (path p) := by
        intro q hq hm
        apply hq.eq_or_strict.resolve_left
        intro heq
        rw [heq] at hm
        exact hlong hm
      have hnear := hpar p hp
      cases hcase : parent p with
      | none =>
        rw [hcase] at hnear
        have hnone : climb ok parent fuel none = none := by cases fuel <;> rfl
        rw [hnone]
        rintro q hq ⟨habove, hm⟩
        rcases mem_cons.1 hq with rfl | hq
        · exact hlong hm
        · exact hnear q hq (hstrict q habove hm)
      | some p' =>
        rw [hcase] at hnear
        obtain ⟨hp', hup, hall⟩ := hnear
        apply (ih (hold p' hp') (Nat.lt_of_lt_of_le hup.2 (Nat.le_of_lt_succ hfuel))).congr
        intro q
        constructor
        · rintro ⟨hq, habove, hm⟩
          have hs := hstrict q habove hm
          rcases mem_cons.1 hq with rfl | hq
          · exact absurd rfl hs.ne
          · exact ⟨mem_cons_of_mem _ hq, hall q hq hs, hm⟩
        · rintro ⟨hq, habove, hm⟩
          have hq' : q ∈ old := by
            rcases mem_cons.1 hq with rfl | hq
            · exact hp'
            · exact hq
          exact ⟨mem_cons_of_mem _ hq', habove.trans hup.1, hm⟩

theorem Parents.congr (h : Parents old l path parent) (hold : ∀ p ∈ old, p ∈ l)
    (hparent : ∀ p ∈ l, parent' p = parent p) (hpath : ∀ p ∈ l, path' p = path p) :
    Parents old l path' parent' := by
  intro p hp
  have hp' := h p hp
  rw [hparent p hp]
  cases hcase : parent p with
  | none =>
    rw [hcase] at hp'
    intro q hq
    rw [hpath p hp, hpath q (hold q hq)]
    exact hp' q hq
  | some t =>
    rw [hcase] at hp'
    obtain ⟨ht, hup, hall⟩ := hp'
    refine ⟨ht, ?_, ?_⟩
    · rw [hpath p hp, hpath t (hold t ht)]
      exact hup
    · intro q hq
      rw [hpath p hp, hpath t (hold t ht), hpath q (hold q hq)]
      exact hall q hq

end nearest

section change
variable {l l' : List ι} {path : ι → γ × List α} {parent parent' : ι → Option ι} {z : ι}
  {P : γ × List α → Prop} {r : Option ι}

theorem Nearest.grow_other (h : Nearest l path P r) (hl : ∀ p, p ∈ l' ↔ p = z ∨ p ∈ l)
    (hz : ¬ P (path z)) : Nearest l' path P r := by
  apply h.congr
  intro q
  refine and_congr_left ?_
  intro hq
  rw [hl q]
  refine ⟨fun h => h.resolve_left ?_, .inr⟩
  rintro rfl
  exact hz hq

theorem Nearest.grow_new (h : Nearest l path P r) (hl : ∀ p, p ∈ l' ↔ p = z ∨ p ∈ l)
    (hz : P (path z)) (hr : ∀ t, r = some t → Above (path t) (path z)) :
    Nearest l' path P (some z) := by
  refine ⟨(hl z).2 (.inl rfl), hz, ?_⟩
  intro q hq hP
  rcases (hl q).1 hq with rfl | hq
  · exact .refl _
  · cases r with
    | none => exact absurd hP (h q hq)
    | some t => exact (h.2.2 q hq hP).trans (hr t rfl)

theorem Nearest.grow_keep (h : Nearest l path P (some t)) (hl : ∀ p, p ∈ l' ↔ p = z ∨ p ∈ l)
    (hz : Above (path z) (path t)) : Nearest l' path P (some t) := by
  obtain ⟨ht, hP, hall⟩ := h
  refine ⟨(hl t).2 (.inr ht), hP, ?_⟩
  intro q hq hq'
  rcases (hl q).1 hq with rfl | hq
  · exact hz
  · exact hall q hq hq'

theorem Nearest.between (hinj : ∀ p ∈ l, ∀ q ∈ l, path p = path q → p = q)
    (hp : Nearest l path (fun a => StrictlyAbove a (path p)) r)
    (hz : Nearest l path (fun a => StrictlyAbove a (path z)) rz)
    (hzp : StrictlyAbove (path z) (path p)) (hne : r ≠ rz) :
    ∃ t, r = some t ∧ Above (path z) (path t) := by
  cases r with
  | none =>
    cases rz with
    | none => exact absurd rfl hne
    | some u => exact absurd (hz.2.1.trans_above hzp.1) (hp u hz.1)
  | some t =>
    obtain ⟨ht, htp, hall⟩ := hp
    refine ⟨t, rfl, (hzp.1.total htp.1).resolve_right ?_⟩
    intro htz
    cases rz with
    | none => exact hz t ht htz
    | some u =>
      obtain ⟨hu, huz, huall⟩ := hz
      have heq := (huall t ht htz).antisymm (hall u hu (huz.trans_above hzp.1))
      exact hne (congrArg some (hinj t ht u hu heq))

/-- A new element takes over, from the elements below it, the parent that it has itself. -/
theorem Parents.insert [DecidableEq ι] (h : Parents l l path parent)
    (hinj : ∀ p ∈ l, ∀ q ∈ l, path p = path q → p = q) (hl : ∀ p, p ∈ l' ↔ p = z ∨ p ∈ l)
    (hz : Nearest l path (fun a => StrictlyAbove a (path z)) (parent' z))
    (hbelow : ∀ p ∈ l, StrictlyAbove (path z) (path p) →
      parent' p = if parent p = parent' z then some z else parent p)
    (hrest : ∀ p ∈ l, ¬ StrictlyAbove (path z) (path p) → parent' p = parent p) :
    Parents l' l' path parent' := by
  intro p hp
  rcases (hl p).1 hp with rfl | hpl
  · exact hz.grow_other hl fun h => h.ne rfl
  have hnear := h p hpl
  by_cases hzp : StrictlyAbove (path z) (path p)
  · rw [hbelow p hpl hzp]
    split
    case isTrue hsame =>
      apply hnear.grow_new hl hzp
      intro t ht
      rw [← hsame, ht] at hz
      exact hz.2.1.1
    case isFalse hdiff =>
      obtain ⟨t, ht, hzt⟩ := hnear.between hinj hz hzp hdiff
      rw [ht] at hnear ⊢
      exact hnear.grow_keep hl hzt
  · rw [hrest p hpl hzp]
    exact hnear.grow_other hl hzp

/-- An element that goes leaves its parent to those that it is the parent of. -/
theorem Parents.erase [DecidableEq ι] (h : Parents l l path parent)
    (hinj : ∀ p ∈ l, ∀ q ∈ l, path p = path q → p = q) (hz : z ∈ l)
    (hl : ∀ p, p ∈ l' ↔ p ≠ z ∧ p ∈ l)
    (hparent : ∀ p ∈ l', parent' p = if parent p = some z then parent z else parent p) :
    Parents l' l' path parent' := by
  intro p hp
  have hnear := h p ((hl p).1 hp).2
  rw [hparent p hp]
  split
  case isTrue hpz =>
    rw [hpz] at hnear
    obtain ⟨-, hzp, hall⟩ := hnear
    apply (h z hz).congr
    intro q
    constructor
    · rintro ⟨hq, hqp⟩
      obtain ⟨hne, hql⟩ := (hl q).1 hq
      have hqz := (hall q hql hqp).eq_or_strict
      exact ⟨hql, hqz.resolve_left fun heq => hne (hinj q hql z hz heq)⟩
    · rintro ⟨hq, hqz⟩
      have hne : q ≠ z := fun heq => hqz.ne (congrArg path heq)
      exact ⟨(hl q).2 ⟨hne, hq⟩, hqz.trans_above hzp.1⟩
  case isFalse hpz =>
    cases hcase : parent p with
    | none =>
      rw [hcase] at hnear
      intro q hq
      exact hnear q ((hl q).1 hq).2
    | some t =>
      rw [hcase] at hnear hpz
      obtain ⟨ht, htp, hall⟩ := hnear
      have hne : t ≠ z := fun heq => hpz (congrArg some heq)
      refine ⟨(hl t).2 ⟨hne, ht⟩, htp, ?_⟩
      intro q hq
      exact hall q ((hl q).1 hq).2

end change

section ordered
variable {ct : γ → γ → Ordering} {ca : α → α → Ordering} [TransCmp ct] [LawfulEqCmp ct]
  [TransCmp ca] [LawfulEqCmp ca] [DecidableEq α] {l : List ι} {path : ι → γ × List α}
  {parent : ι → Option ι}

theorem above_iff_commonLen {k x a : γ × List α} (hlast : Above a k → Above a x)
    (htree : x.1 = k.1) :
    Above a k ↔ Above a x ∧ a.2.length ≤ commonLen x.2 k.2 := by
  constructor
  · intro h
    exact ⟨hlast h, length_le_commonLen (hlast h).2 h.2⟩
  · rintro ⟨h, hlen⟩
    refine ⟨h.1.trans htree, ?_⟩
    rw [prefix_iff_eq_take.1 h.2]
    exact take_prefix_of_le_commonLen hlen

omit [TransCmp ct] [TransCmp ca] [DecidableEq α] in
theorem ne_of_pathCmp_lt (h : pathCmp ct ca a b = .lt) : a ≠ b := by
  rintro rfl
  rw [pathCmp_eq_iff.2 rfl] at h
  cases h

omit [TransCmp ct] [TransCmp ca] [DecidableEq α] in
theorem path_inj_of_ordered (hs : l.Pairwise fun p q => pathCmp ct ca (path p) (path q) = .lt) :
    ∀ p ∈ l, ∀ q ∈ l, path p = path q → p = q := by
  have hnodup := pairwise_map.2 (hs.imp fun hlt => ne_of_pathCmp_lt hlt)
  intro p hp q hq heq
  exact inj_on_of_nodup_map hnodup hp hq heq

omit [DecidableEq α] in
theorem not_above_of_lt (h : pathCmp ct ca a b = .lt) : ¬ Above b a := by
  intro habove
  exact OrientedCmp.not_lt_of_isLE (above_isLE habove) h

omit [DecidableEq α] in
theorem Parents.snoc (h : Parents l l path parent)
    (hlast : ∀ p ∈ l, pathCmp ct ca (path p) (path z) = .lt)
    (hz : Nearest l path (fun a => Above a (path z)) (parent z)) :
    Parents (l ++ [z]) (l ++ [z]) path parent := by
  have hl : ∀ p, p ∈ l ++ [z] ↔ p = z ∨ p ∈ l := by
    intro p
    rw [mem_append, mem_singleton, or_comm]
  intro p hp
  rcases (hl p).1 hp with rfl | hpl
  · have hz' : Nearest l path (fun a => StrictlyAbove a (path p)) (parent p) := by
      apply hz.congr
      intro q
      refine and_congr_right ?_
      intro hq
      refine ⟨fun h => h.1, fun h => h.eq_or_strict.resolve_left ?_⟩
      exact ne_of_pathCmp_lt (hlast q hq)
    exact hz'.grow_other hl fun h => h.ne rfl
  · apply (h p hpl).grow_other hl
    intro hzp
    exact not_above_of_lt (hlast p hpl) hzp.1

omit [DecidableEq α] in
theorem mem_takeWhile_below (hbelow : ∀ p ∈ ys, below p = true ↔ StrictlyAbove (path z) (path p))
    (hs : (z :: ys).Pairwise fun p q => pathCmp ct ca (path p) (path q) = .lt) :
    p ∈ ys.takeWhile below ↔ p ∈ ys ∧ StrictlyAbove (path z) (path p) := by
  induction ys with
  | nil => simp
  | cons y ys ih =>
    obtain ⟨hz, hys⟩ := pairwise_cons.1 hs
    obtain ⟨hy, hys⟩ := pairwise_cons.1 hys
    have hsub := pairwise_cons.2 ⟨(forall_mem_cons.1 hz).2, hys⟩
    have ih := ih (forall_mem_cons.1 hbelow).2 hsub
    have hyb := hbelow y mem_cons_self
    rw [takeWhile_cons]
    split
    case isTrue hin =>
      rw [mem_cons, mem_cons, ih]
      constructor
      · rintro (rfl | ⟨hp, hzp⟩)
        · exact ⟨.inl rfl, hyb.1 hin⟩
        · exact ⟨.inr hp, hzp⟩
      · rintro ⟨rfl | hp, hzp⟩
        · exact .inl rfl
        · exact .inr ⟨hp, hzp⟩
    case isFalse hout =>
      simp only [not_mem_nil, false_iff]
      rintro ⟨hp, hzp⟩
      apply hout
      rw [hyb]
      rcases mem_cons.1 hp with rfl | hp
      · exact hzp
      · have hzy := Ordering.isLE_of_eq_lt (hz y mem_cons_self)
        have hyp := Ordering.isLE_of_eq_lt (hy p hp)
        apply (above_of_between hzp.1 hzy hyp).eq_or_strict.resolve_left
        exact ne_of_pathCmp_lt (hz y mem_cons_self)

end ordered

end

open Function

/-- The entries of a tree in order, and their parents. -/
structure NestTree (ι : Type) where
  tree : List ι
  parent : ι → Option ι

def NestTree.insert {ι : Type} [DecidableEq ι] (c : ι → ι → Ordering) (t : NestTree ι) (x : ι) :
    NestTree ι :=
  ⟨insertOrd c x t.tree, update t.parent x none⟩

/-- The family of a node, how deep it is, how deep two agree, and a bound for the search upward. -/
structure NestOps (κ : Type) where
  same : κ → κ → Bool
  depth : κ → Nat
  common : κ → κ → Nat
  turns : κ → Nat

variable {ι κ : Type} (N : NestOps κ) (node : ι → κ)

/-- Up from a node to the first one that is no deeper than it agrees with a key. -/
def NestOps.goUp (parent : ι → Option ι) (p : ι) (k : κ) : Option ι :=
  climb (fun q => N.depth (node q) ≤ N.common (node p) k) parent (N.turns (node p)) (some p)

/-- Set the parent of a node, from the node before it. -/
def NestOps.initParent [DecidableEq ι] (parent : ι → Option ι) (prev : Option ι) (x : ι) : ι → Option ι :=
  let parent := update parent x none
  match prev with
  | none => parent
  | some p =>
    if N.same (node p) (node x) then update parent x (N.goUp node parent p (node x))
    else parent

/-- Set the parents of nodes in order, after the node `prev`. -/
def NestOps.initParents [DecidableEq ι] (parent : ι → Option ι) (prev : Option ι) :
    List ι → ι → Option ι
  | [] => parent
  | x :: rest => initParents (N.initParent node parent prev x) (some x) rest

def NestOps.link [DecidableEq ι] (t : NestTree ι) : NestTree ι :=
  { t with parent := N.initParents node t.parent none t.tree }

/-- The node that a key is at, or else a search upward from the node before it. -/
def NestOps.lookup (cmp : κ → κ → Ordering) (t : NestTree ι) (k : κ) : Option ι :=
  match findLE (fun p => cmp (node p) k) t.tree with
  | none => none
  | some p =>
    if cmp (node p) k = .eq then some p
    else if N.same (node p) k then N.goUp node t.parent p k
    else none

variable {γ α : Type} [DecidableEq α] {ct : γ → γ → Ordering} {ca : α → α → Ordering}
  {path : κ → γ × List α} {N} {node}

/-- The order of the nodes and what the code looks at in them are those of their paths. -/
structure NestOps.Spec (N : NestOps κ) (cmp : κ → κ → Ordering) (ct : γ → γ → Ordering)
    (ca : α → α → Ordering) (path : κ → γ × List α) : Prop where
  cmp : ∀ a b, cmp a b = pathCmp ct ca (path a) (path b)
  same : ∀ a b, N.same a b = true ↔ (path a).1 = (path b).1
  depth : ∀ z a b, N.depth z ≤ N.common a b ↔ (path z).2.length ≤ commonLen (path a).2 (path b).2
  turns : ∀ z, (path z).2.length < N.turns z

namespace NestOps.Spec
variable {cmp : κ → κ → Ordering} {tree old : List ι} {parent : ι → Option ι} {k : κ} {x : ι}

theorem goUp_nearest (h : N.Spec cmp ct ca path) (hold : ∀ p ∈ old, p ∈ tree)
    (hpar : Parents old tree (path ∘ node) parent) (hx : x ∈ tree)
    (hsame : N.same (node x) k = true)
    (hlast : ∀ q ∈ tree, Above (path (node q)) (path k) → Above (path (node q)) (path (node x))) :
    Nearest (x :: old) (path ∘ node) (fun a => Above a (path k)) (N.goUp node parent x k) := by
  have hfits : ∀ p ∈ tree, decide (N.depth (node p) ≤ N.common (node x) k) = true ↔
      ((path ∘ node) p).2.length ≤ commonLen (path (node x)).2 (path k).2 := by
    intro p _
    rw [decide_eq_true_eq]
    exact h.depth ..
  apply (climb_nearest hfits hold hpar hx (h.turns (node x))).congr
  intro q
  refine and_congr_right ?_
  intro hq
  apply above_iff_commonLen (hlast q ?_) ((h.same ..).1 hsame)
  rcases mem_cons.1 hq with rfl | hq
  · exact hx
  · exact hold q hq

variable [TransCmp ct] [LawfulEqCmp ct] [TransCmp ca] [LawfulEqCmp ca]

omit [TransCmp ct] [TransCmp ca] in
theorem not_above_of_findLE (h : N.Spec cmp ct ca path)
    (hx : findLE (fun p => cmp (node p) k) tree = none) :
    ∀ q ∈ tree, ¬ Above (path (node q)) (path k) := by
  intro q hq habove
  have hgt := findLE_none hx q hq
  have hle : (pathCmp ct ca (path (node q)) (path k)).isLE := above_isLE habove
  rw [← h.cmp, hgt] at hle
  cases hle

theorem above_of_findLE (h : N.Spec cmp ct ca path)
    (hs : tree.Pairwise fun p q => cmp (node p) (node q) = .lt)
    (hx : findLE (fun p => cmp (node p) k) tree = some x) :
    x ∈ tree ∧
      ∀ q ∈ tree, Above (path (node q)) (path k) → Above (path (node q)) (path (node x)) := by
  simp only [h.cmp] at hs hx
  obtain ⟨hmem, hle, hlast⟩ := findLE_some hs hx
  refine ⟨hmem, ?_⟩
  intro q hq hqk
  exact above_of_between hqk (hlast q hq (above_isLE hqk)) hle

theorem initParent_parents [DecidableEq ι] (h : N.Spec cmp ct ca path)
    (hs : (tree ++ [x]).Pairwise fun p q => cmp (node p) (node q) = .lt)
    (hpar : Parents tree tree (path ∘ node) parent) :
    Parents (tree ++ [x]) (tree ++ [x]) (path ∘ node)
      (N.initParent node parent tree.getLast? x) := by
  simp only [h.cmp] at hs
  obtain ⟨htree, -, hlt⟩ := pairwise_append.1 hs
  have hlt : ∀ p ∈ tree, pathCmp ct ca (path (node p)) (path (node x)) = .lt :=
    fun p hp => hlt p hp x (mem_singleton.2 rfl)
  have hne : ∀ p ∈ tree, p ≠ x := by
    rintro p hp rfl
    exact ne_of_pathCmp_lt (hlt p hp) rfl
  have hkeep : ∀ q, Parents tree tree (path ∘ node) (update parent x q) := by
    intro q
    apply hpar.congr (fun _ hp => hp)
    · intro p hp
      exact update_of_ne (hne p hp) _ _
    · exact fun _ _ => rfl
  have hset : ∀ q, Nearest tree (path ∘ node) (fun a => Above a (path (node x))) q →
      Parents (tree ++ [x]) (tree ++ [x]) (path ∘ node) (update parent x q) := by
    intro q hq
    apply (hkeep q).snoc hlt
    rw [update_self]
    exact hq
  cases hprev : tree.getLast? with
  | none =>
    apply hset none
    rw [getLast?_eq_none_iff.1 hprev]
    exact nofun
  | some p =>
    have hp := mem_of_getLast? hprev
    have hlast : ∀ q ∈ tree, Above (path (node q)) (path (node x)) →
        Above (path (node q)) (path (node p)) := by
      intro q hq hqx
      obtain ⟨ys, rfl⟩ := getLast?_eq_some_iff.1 hprev
      rcases mem_append.1 hq with hq | hq
      · have hqp := (pairwise_append.1 htree).2.2 q hq p (mem_singleton.2 rfl)
        exact above_of_between hqx (Ordering.isLE_of_eq_lt hqp) (Ordering.isLE_of_eq_lt (hlt p hp))
      · rw [mem_singleton.1 hq]
        exact .refl _
    rw [initParent]
    split
    case isTrue hsame =>
      rw [update_idem]
      apply hset
      exact (h.goUp_nearest (fun _ hq => hq) (hkeep none) hp hsame hlast).of_cons hp
    case isFalse hsame =>
      apply hset none
      intro q hq hqx
      apply hsame
      rw [h.same]
      exact (hlast q hq hqx).1.symm.trans hqx.1

theorem initParents_parents [DecidableEq ι] (h : N.Spec cmp ct ca path) (done : List ι)
    (hs : (done ++ rest).Pairwise fun p q => cmp (node p) (node q) = .lt)
    (hpar : Parents done done (path ∘ node) parent) :
    Parents (done ++ rest) (done ++ rest) (path ∘ node)
      (N.initParents node parent done.getLast? rest) := by
  induction rest generalizing done parent with
  | nil =>
    rw [append_nil]
    exact hpar
  | cons x rest ih =>
    rw [append_cons] at hs ⊢
    have hloop := ih _ hs (h.initParent_parents (pairwise_append.1 hs).1 hpar)
    rw [getLast?_concat] at hloop
    exact hloop

section
variable {t : NestTree ι} (h : N.Spec cmp ct ca path)
  (hs : t.tree.Pairwise fun p q => cmp (node p) (node q) = .lt)

include h hs

theorem lookup_cases (hold : ∀ p ∈ old, p ∈ t.tree)
    (hpar : Parents old t.tree (path ∘ node) t.parent) (k : κ) :
    (N.lookup node cmp t k = none ∧ ∀ q ∈ t.tree, ¬ Above (path (node q)) (path k)) ∨
    ∃ x, findLE (fun p => cmp (node p) k) t.tree = some x ∧
      Nearest (x :: old) (path ∘ node) (fun a => Above a (path k)) (N.lookup node cmp t k) := by
  rw [lookup]
  split
  case h_1 hnone => exact .inl ⟨rfl, h.not_above_of_findLE hnone⟩
  case h_2 x hx =>
    obtain ⟨hmem, hlast⟩ := h.above_of_findLE hs hx
    split
    case isTrue heq =>
      rw [h.cmp, pathCmp_eq_iff] at heq
      refine .inr ⟨x, hx, mem_cons_self, ?_, ?_⟩
      · rw [comp, heq]
        exact .refl _
      · intro q _ hqk
        rw [comp, comp, heq]
        exact hqk
    case isFalse =>
      split
      case isTrue hsame => exact .inr ⟨x, hx, h.goUp_nearest hold hpar hmem hsame hlast⟩
      case isFalse hsame =>
        refine .inl ⟨rfl, ?_⟩
        intro q hq hqk
        apply hsame
        rw [h.same]
        exact (hlast q hq hqk).1.symm.trans hqk.1

/-- With all parents right, a lookup finds the nearest node at or above the key. -/
theorem lookup_nearest (hpar : Parents t.tree t.tree (path ∘ node) t.parent) (k : κ) :
    Nearest t.tree (path ∘ node) (fun a => Above a (path k)) (N.lookup node cmp t k) := by
  rcases h.lookup_cases hs (fun _ hp => hp) hpar k with ⟨hnone, hall⟩ | ⟨x, hx, hnear⟩
  · rw [hnone]
    exact hall
  · exact hnear.of_cons (h.above_of_findLE hs hx).1

theorem lookup_unlinked_some (hpar : ∀ p, t.parent p = none)
    (hlook : N.lookup node cmp t k = some p) :
    Nearest t.tree (path ∘ node) (fun a => Above a (path k)) (some p) := by
  rcases h.lookup_cases hs (forall_mem_nil _) (Parents.of_none hpar) k with
    ⟨hnone, -⟩ | ⟨x, hx, hnear⟩
  · rw [hlook] at hnone
    cases hnone
  · rw [hlook] at hnear
    obtain ⟨hmem, hlast⟩ := h.above_of_findLE hs hx
    obtain rfl := mem_singleton.1 hnear.1
    exact ⟨hmem, hnear.2.1, hlast⟩

/-- Without parents a lookup is right just when each node above the key, with one below it not
behind the key, has a nearer one. -/
theorem lookup_unlinked_iff (hpar : ∀ p, t.parent p = none) (k : κ) :
    Nearest t.tree (path ∘ node) (fun a => Above a (path k)) (N.lookup node cmp t k) ↔
      ∀ p ∈ t.tree, ∀ q ∈ t.tree, Above (path (node p)) (path k) →
        StrictlyAbove (path (node p)) (path (node q)) → (cmp (node q) k).isLE →
        ∃ r ∈ t.tree, StrictlyAbove (path (node p)) (path (node r)) ∧
          Above (path (node r)) (path k) := by
  rcases h.lookup_cases hs (forall_mem_nil _) (Parents.of_none hpar) k with
    ⟨hlook, hall⟩ | ⟨x, hx, hnear⟩
  · rw [hlook]
    exact iff_of_true hall fun p hp _ _ hpk => absurd hpk (hall p hp)
  obtain ⟨hmem, hlast⟩ := h.above_of_findLE hs hx
  simp only [h.cmp] at hs hx ⊢
  obtain ⟨-, hle, hbefore⟩ := findLE_some hs hx
  rcases hnear.singleton with ⟨hxk, hlook⟩ | ⟨hxk, hlook⟩
  · rw [hlook]
    refine iff_of_true ⟨hmem, hxk, hlast⟩ ?_
    intro p hp q hq hpk hpq hqk
    refine ⟨x, hmem, (hlast p hp hpk).eq_or_strict.resolve_left ?_, hxk⟩
    intro heq
    have hqx := hbefore q hq hqk
    rw [← heq] at hqx
    exact hpq.ne (pathCmp_eq_iff.1 (OrientedCmp.isLE_antisymm (above_isLE hpq.1) hqx))
  · rw [hlook]
    constructor
    · intro hall p hp q _ hpk
      exact absurd hpk (hall p hp)
    intro hnearer p hp hpk
    -- there would be nearer and nearer nodes above the key
    generalize hn : (path k).2.length - (path (node p)).2.length = n
    induction n using Nat.strong_induction_on generalizing p with
    | _ n ih =>
      have hpx : StrictlyAbove (path (node p)) (path (node x)) := by
        apply (hlast p hp hpk).eq_or_strict.resolve_left
        intro heq
        rw [comp, heq] at hpk
        exact hxk hpk
      obtain ⟨r, hr, hpr, hrk⟩ := hnearer p hp x hmem hpk hpx hle
      have hlt := hpr.2
      have hlen := hrk.2.length_le
      exact ih _ (by omega) r hr hrk rfl

end

/-- The tree of the entries of a list is in order, and has an entry at the place of each of them. -/
theorem tree_insert [DecidableEq ι] (h : N.Spec cmp ct ca path) (node : ι → κ) (l : List ι)
    (parent : ι → Option ι) :
    let tree := (l.foldl (NestTree.insert fun p q => cmp (node p) (node q)) ⟨[], parent⟩).tree
    tree.Pairwise (fun p q => cmp (node p) (node q) = .lt) ∧ (∀ p ∈ tree, p ∈ l) ∧
      ∀ q ∈ l, ∃ p ∈ tree, path (node q) = path (node p) := by
  intro tree
  have htree : tree = insertAll (fun p q => cmp (node p) (node q)) l [] :=
    (foldl_hom NestTree.tree fun _ _ => rfl).symm
  have hcmp := funext₂ h.cmp
  rw [htree]
  refine ⟨?_, ?_, ?_⟩
  · rw [hcmp]
    exact pairwise_insertAll .nil
  · intro p hp
    exact (mem_of_mem_insertAll hp).resolve_right not_mem_nil
  · intro q hq
    have hself : ∀ p, cmp (node p) (node p) = .eq := by
      intro p
      rw [h.cmp, pathCmp_eq_iff]
    obtain ⟨p, hp, heq⟩ :=
      exists_mem_insertAll (c := fun p q => cmp (node p) (node q)) hself hq
    rw [h.cmp, pathCmp_eq_iff] at heq
    exact ⟨p, hp, heq⟩

theorem lookup_insert_link [DecidableEq ι] (h : N.Spec cmp ct ca path) (l : List ι)
    (parent : ι → Option ι) (k : κ) :
    Nearest l (path ∘ node) (fun a => Above a (path k)) (N.lookup node cmp
      (N.link node (l.foldl (NestTree.insert fun p q => cmp (node p) (node q)) ⟨[], parent⟩)) k) := by
  obtain ⟨hs, hmem, hrep⟩ := h.tree_insert node l parent
  generalize l.foldl (NestTree.insert fun p q => cmp (node p) (node q)) ⟨[], parent⟩ = t at *
  have hpar : Parents t.tree t.tree (path ∘ node) (N.link node t).parent :=
    h.initParents_parents [] hs nofun
  have hnear := h.lookup_nearest (t := N.link node t) hs hpar k
  cases hr : N.lookup node cmp (N.link node t) k with
  | none =>
    rw [hr] at hnear
    intro q hq
    obtain ⟨p, hp, heq⟩ := hrep q hq
    rw [comp, heq]
    exact hnear p hp
  | some r =>
    rw [hr] at hnear
    obtain ⟨hrmem, habove, hall⟩ := hnear
    refine ⟨hmem r hrmem, habove, ?_⟩
    intro q hq
    obtain ⟨p, hp, heq⟩ := hrep q hq
    rw [comp, heq]
    exact hall p hp

end NestOps.Spec

end CwdGate.Lib
