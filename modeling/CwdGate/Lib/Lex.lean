import Mathlib

/-! The lexicographic order, sorted lists as circles, and the bits of numbers and bytes. -/
namespace CwdGate.Lib
open Std List

def commonLen {α : Type _} [DecidableEq α] : List α → List α → Nat
  | a :: as, b :: bs => if a = b then commonLen as bs + 1 else 0
  | _, _ => 0

section commonLen
variable {α : Type _} [DecidableEq α]

@[simp] theorem commonLen_nil_left (bs : List α) : commonLen [] bs = 0 := by
  cases bs <;> rfl

@[simp] theorem commonLen_nil_right (as : List α) : commonLen as [] = 0 := by
  cases as <;> rfl

theorem commonLen_comm (as bs : List α) : commonLen as bs = commonLen bs as := by
  induction as generalizing bs with
  | nil => simp
  | cons a as ih =>
    cases bs with
    | nil => simp
    | cons b bs => simp only [commonLen, ih bs, eq_comm]

theorem commonLen_le_left (as bs : List α) : commonLen as bs ≤ as.length := by
  induction as generalizing bs with
  | nil => simp
  | cons a as ih =>
    cases bs with
    | nil => simp
    | cons b bs =>
      simp only [commonLen, length_cons]
      split
      · exact Nat.succ_le_succ (ih bs)
      · exact Nat.zero_le _

theorem commonLen_le_right (as bs : List α) : commonLen as bs ≤ bs.length := by
  rw [commonLen_comm]
  exact commonLen_le_left bs as

theorem take_commonLen (as bs : List α) :
    as.take (commonLen as bs) = bs.take (commonLen as bs) := by
  induction as generalizing bs with
  | nil => simp
  | cons a as ih =>
    cases bs with
    | nil => simp
    | cons b bs =>
      simp only [commonLen]
      split
      next h => simp [h, ih bs]
      next => simp

theorem length_le_commonLen {p : List α} (ha : p <+: as) (hb : p <+: bs) :
    p.length ≤ commonLen as bs := by
  induction p generalizing as bs with
  | nil => exact Nat.zero_le _
  | cons c p ih =>
    obtain ⟨as', rfl⟩ := ha
    obtain ⟨bs', rfl⟩ := hb
    simp only [cons_append, commonLen, ↓reduceIte, length_cons]
    exact Nat.succ_le_succ (ih ⟨as', rfl⟩ ⟨bs', rfl⟩)

theorem take_prefix_of_le_commonLen {as : List α} (h : k ≤ commonLen as bs) : as.take k <+: bs := by
  have ht : as.take k = bs.take k := by
    have := congrArg (take k) (take_commonLen as bs)
    simpa only [take_take, Nat.min_eq_left h] using this
  rw [ht]
  exact take_prefix k bs

theorem commonLen_eq_length_iff {as : List α} : commonLen as bs = as.length ↔ as <+: bs := by
  constructor
  · intro h
    have := take_prefix_of_le_commonLen (Nat.le_of_eq h.symm)
    rwa [take_length] at this
  · intro h
    exact Nat.le_antisymm (commonLen_le_left as bs) (length_le_commonLen (prefix_refl as) h)

end commonLen

section order
variable {α : Type _} {c : α → α → Ordering}

theorem compareLex_append_left [ReflCmp c] (p as bs : List α) :
    (p ++ as).compareLex c (p ++ bs) = as.compareLex c bs := by
  induction p with
  | nil => rfl
  | cons a p ih =>
    simp only [List.cons_append, List.compareLex_cons_cons, ReflCmp.compare_self, ih]
    rfl

theorem prefix_isLE [ReflCmp c] (h : p <+: as) : (p.compareLex c as).isLE := by
  obtain ⟨t, rfl⟩ := h
  have he := compareLex_append_left (c := c) p [] t
  rw [append_nil] at he
  rw [he]
  exact List.isLE_compareLex_nil_left

theorem prefix_lt [ReflCmp c] (h : p <+: as) (hl : p.length < as.length) :
    p.compareLex c as = .lt := by
  obtain ⟨t, rfl⟩ := h
  have he := compareLex_append_left (c := c) p [] t
  rw [append_nil] at he
  rw [he]
  cases t with
  | nil => simp at hl
  | cons b t => rfl

theorem prefix_of_between [TransCmp c] [LawfulEqCmp c] (ha : p <+: as) (hc : p <+: cs)
    (hab : (as.compareLex c bs).isLE) (hbc : (bs.compareLex c cs).isLE) : p <+: bs := by
  induction p generalizing as bs cs with
  | nil => exact nil_prefix
  | cons x p ih =>
    obtain ⟨as', rfl⟩ := ha
    obtain ⟨cs', rfl⟩ := hc
    cases bs with
    | nil => simp [List.compareLex_cons_nil] at hab
    | cons y bs =>
      simp only [List.cons_append, List.compareLex_cons_cons] at hab hbc
      have hxy : (c x y).isLE := by
        cases h : c x y <;> simp_all
      have hyx : (c y x).isLE := by
        cases h : c y x <;> simp_all
      have he : c x y = .eq := OrientedCmp.isLE_antisymm hxy hyx
      have he' : c y x = .eq := OrientedCmp.eq_symm he
      have heq : x = y := LawfulEqCmp.eq_of_compare he
      subst heq
      rw [he] at hab
      rw [he'] at hbc
      exact List.prefix_cons_inj x |>.2 (ih ⟨as', rfl⟩ ⟨cs', rfl⟩ hab hbc)

theorem lt_take_of_commonLen_lt [DecidableEq α] [TransCmp c] [LawfulEqCmp c]
    {as d : List α} (h : as.compareLex c d = .lt) (hk : commonLen as d < k)
    (hd : k ≤ d.length) : as.compareLex c (d.take k) = .lt := by
  apply OrientedCmp.lt_of_not_isLE
  intro hle
  have hp := prefix_of_between (prefix_refl _) ( take_prefix k d) hle (Ordering.isLE_of_eq_lt h)
  have hl := length_le_commonLen hp ( take_prefix k d)
  rw [length_take, Nat.min_eq_left hd] at hl
  exact Nat.lt_irrefl _ (Nat.lt_of_le_of_lt hl hk)

theorem compareLex_append (hl : as.length = bs.length) (cs ds : List α) :
    (as ++ cs).compareLex c (bs ++ ds) = (as.compareLex c bs).then (cs.compareLex c ds) := by
  induction as generalizing bs with
  | nil =>
    cases bs with
    | nil => rfl
    | cons b bs => cases hl
  | cons a as ih =>
    cases bs with
    | nil => cases hl
    | cons b bs =>
      simp only [List.cons_append, List.compareLex_cons_cons, ih (Nat.succ.inj hl)]
      cases c a b <;> rfl

theorem compareLex_take_min (as bs : List α) :
    as.compareLex c bs = ((as.take (min as.length bs.length)).compareLex c
      (bs.take (min as.length bs.length))).then (compare as.length bs.length) := by
  induction as generalizing bs with
  | nil => cases bs <;> rfl
  | cons a as ih =>
    cases bs with
    | nil => rfl
    | cons b bs =>
      have hlen : compare (a :: as).length (b :: bs).length = compare as.length bs.length := by
        simp only [length_cons, Nat.compare_eq_ite_lt, Nat.add_lt_add_iff_right]
      rw [hlen, length_cons, length_cons, Nat.add_min_add_right, take_succ_cons, take_succ_cons,
        List.compareLex_cons_cons, List.compareLex_cons_cons, ih bs]
      cases c a b <;> rfl

theorem compareLex_map {β : Type _} {c' : β → β → Ordering} {f : α → β} {as bs : List α}
    (h : ∀ a ∈ as, ∀ b ∈ bs, c' (f a) (f b) = c a b) :
    (as.map f).compareLex c' (bs.map f) = as.compareLex c bs := by
  induction as generalizing bs with
  | nil => cases bs <;> rfl
  | cons a as ih =>
    cases bs with
    | nil => rfl
    | cons b bs =>
      simp only [List.map_cons, List.compareLex_cons_cons]
      rw [h a List.mem_cons_self b List.mem_cons_self,
        ih fun x hx y hy => h x (List.mem_cons_of_mem _ hx) y (List.mem_cons_of_mem _ hy)]

end order

theorem compare_toNat (a b : UInt8) : compare a.toNat b.toNat = compare a b := by
  simp only [compare, compareOfLessAndEq, UInt8.lt_iff_toNat_lt, ← UInt8.toNat_inj]

/-- The value of digits in a base, the most significant first. -/
def beValue (base : Nat) : List Nat → Nat
  | [] => 0
  | d :: ds => d * base ^ ds.length + beValue base ds

theorem beValue_lt (h : ∀ d ∈ ds, d < base) : beValue base ds < base ^ ds.length := by
  induction ds with
  | nil => exact Nat.one_pos
  | cons d ds ih =>
    have ih := ih (forall_mem_cons.1 h).2
    have hd := Nat.mul_le_mul_right (base ^ ds.length) (h d mem_cons_self)
    rw [beValue, length_cons, Nat.pow_succ']
    calc d * base ^ ds.length + beValue base ds
      _ < d * base ^ ds.length + base ^ ds.length := Nat.add_lt_add_left ih _
      _ = (d + 1) * base ^ ds.length := (Nat.succ_mul _ _).symm
      _ ≤ base * base ^ ds.length := hd

theorem compareLex_eq_compare_beValue (hl : as.length = bs.length) (ha : ∀ d ∈ as, d < base)
    (hb : ∀ d ∈ bs, d < base) :
    as.compareLex compare bs = compare (beValue base as) (beValue base bs) := by
  induction as generalizing bs with
  | nil =>
    cases bs with
    | nil => rfl
    | cons b bs => cases hl
  | cons a as ih =>
    cases bs with
    | nil => cases hl
    | cons b bs =>
      have hl' := Nat.succ.inj hl
      have has := (forall_mem_cons.1 ha).2
      have hbs := (forall_mem_cons.1 hb).2
      have hlta := beValue_lt has
      have hltb := beValue_lt hbs
      rw [List.compareLex_cons_cons, ih hl' has hbs, beValue, beValue, hl']
      rw [hl'] at hlta
      generalize base ^ bs.length = w at hlta hltb
      rcases Nat.lt_trichotomy a b with hab | hab | hab
      · have hw := Nat.mul_le_mul_right w hab
        rw [Nat.succ_mul] at hw
        have hlt : a * w + beValue base as < b * w + beValue base bs := by omega
        rw [Nat.compare_eq_lt.2 hab, Nat.compare_eq_lt.2 hlt]
        rfl
      · subst hab
        have hadd : compare (a * w + beValue base as) (a * w + beValue base bs) =
            compare (beValue base as) (beValue base bs) := by
          simp only [Nat.compare_eq_ite_lt, Nat.add_lt_add_iff_left]
        rw [Nat.compare_eq_eq.2 rfl, hadd]
        rfl
      · have hw := Nat.mul_le_mul_right w hab
        rw [Nat.succ_mul] at hw
        have hgt : b * w + beValue base bs < a * w + beValue base as := by omega
        rw [Nat.compare_eq_gt.2 hab, Nat.compare_eq_gt.2 hgt]
        rfl

def natBits : Nat → Nat → List Bool
  | 0, _ => []
  | w + 1, n => n.testBit w :: natBits w n

@[simp] theorem length_natBits : (natBits w n).length = w := by
  induction w with
  | zero => rfl
  | succ w ih => simp [natBits, ih]

theorem compareLex_natBits :
    (natBits w n).compareLex compare (natBits w m) = compare (n % 2 ^ w) (m % 2 ^ w) := by
  induction w with
  | zero =>
    rw [Nat.pow_zero, Nat.mod_one, Nat.mod_one]
    rfl
  | succ w ih =>
    have hn := Nat.mod_lt n (Nat.two_pow_pos w)
    have hm := Nat.mod_lt m (Nat.two_pow_pos w)
    rw [natBits, natBits, List.compareLex_cons_cons, ih, Nat.mod_pow_succ, Nat.mod_pow_succ,
      Nat.testBit_eq_decide_div_mod_eq, Nat.testBit_eq_decide_div_mod_eq]
    rcases Nat.mod_two_eq_zero_or_one (n / 2 ^ w) with hn' | hn' <;>
      rcases Nat.mod_two_eq_zero_or_one (m / 2 ^ w) with hm' | hm' <;>
      rw [hn', hm']
    · rfl
    · exact (Nat.compare_eq_lt.2 (by omega)).symm
    · exact (Nat.compare_eq_gt.2 (by omega)).symm
    · simp only [Nat.compare_eq_ite_lt, Nat.add_lt_add_iff_right]
      rfl

theorem commonLen_natBits :
    commonLen (natBits w n) (natBits w m) = ((natBits w (n ^^^ m)).takeWhile (!·)).length := by
  induction w with
  | zero => rfl
  | succ w ih =>
    rw [natBits, natBits, natBits, commonLen, ih, Nat.testBit_xor, takeWhile_cons]
    cases n.testBit w <;> cases m.testBit w <;> rfl

theorem commonLen_append {α : Type} [DecidableEq α] {as bs : List α} (hl : as.length = bs.length)
    (cs ds : List α) :
    commonLen (as ++ cs) (bs ++ ds) =
      if as = bs then as.length + commonLen cs ds else commonLen as bs := by
  induction as generalizing bs with
  | nil => simp [length_eq_zero_iff.1 hl.symm]
  | cons a as ih =>
    cases bs with
    | nil => cases hl
    | cons b bs =>
      rw [cons_append, cons_append, commonLen, commonLen, ih (Nat.succ.inj hl)]
      grind

theorem commonLen_take {α : Type} [DecidableEq α] (as bs : List α) :
    commonLen (as.take n) (bs.take m) = min (commonLen as bs) (min n m) := by
  induction as generalizing bs n m with
  | nil => simp
  | cons a as ih =>
    cases n with
    | zero => simp
    | succ n =>
      cases bs with
      | nil => simp
      | cons b bs =>
        cases m with
        | zero => simp
        | succ m =>
          rw [take_succ_cons, take_succ_cons, commonLen, commonLen, ih]
          split <;> omega

def byteBits (bytes : List UInt8) : List Bool := bytes.flatMap fun b => natBits 8 b.toNat

theorem byteBits_cons :
    byteBits (b :: bytes) = natBits 8 b.toNat ++ byteBits bytes := rfl

@[simp] theorem length_byteBits :
    (byteBits bytes).length = 8 * bytes.length := by
  induction bytes with
  | nil => rfl
  | cons b bytes ih =>
    rw [byteBits_cons, length_append, ih, length_natBits, length_cons]
    omega

theorem compareLex_natBits_toNat (a b : UInt8) :
    (natBits 8 a.toNat).compareLex compare (natBits 8 b.toNat) = compare a b := by
  rw [compareLex_natBits, Nat.mod_eq_of_lt a.toNat_lt, Nat.mod_eq_of_lt b.toNat_lt]
  exact compare_toNat a b

theorem compareLex_byteBits (as bs : List UInt8) (h : as.length = bs.length) :
    (byteBits as).compareLex compare (byteBits bs) = as.compareLex compare bs := by
  induction as generalizing bs with
  | nil =>
    cases bs with
    | nil => rfl
    | cons b bs => cases h
  | cons a as ih =>
    cases bs with
    | nil => cases h
    | cons b bs =>
      rw [byteBits_cons, byteBits_cons, compareLex_append (by simp), compareLex_natBits_toNat,
        ih bs (Nat.succ.inj h), List.compareLex_cons_cons]

theorem zeros_isLE {as bs : List Bool} (hl : as.length ≤ bs.length)
    (has : ∀ b ∈ as, b = false) : (as.compareLex compare bs).isLE := by
  induction as generalizing bs with
  | nil => exact List.isLE_compareLex_nil_left
  | cons a as ih =>
    cases bs with
    | nil => cases hl
    | cons b bs =>
      rw [forall_mem_cons] at has
      have ih := ih (Nat.le_of_succ_le_succ hl) has.2
      rw [List.compareLex_cons_cons, has.1]
      cases b with
      | false => exact ih
      | true => rfl

theorem compareLex_take_of_zeros {as bs : List Bool} {n m : Nat} (hl : as.length = bs.length)
    (hn : n ≤ as.length) (hm : m ≤ bs.length) (has : ∀ b ∈ as.drop n, b = false)
    (hbs : ∀ b ∈ bs.drop m, b = false) :
    (as.take n).compareLex compare (bs.take m) = (as.compareLex compare bs).then (compare n m) := by
  induction as generalizing bs n m with
  | nil =>
    cases bs with
    | nil =>
      rw [Nat.le_zero.1 hn, Nat.le_zero.1 hm]
      rfl
    | cons b bs => cases hl
  | cons a as ih =>
    cases bs with
    | nil => cases hl
    | cons b bs =>
      cases n with
      | zero =>
        have hle := zeros_isLE hl.le has
        cases m with
        | zero =>
          have hge := zeros_isLE hl.ge hbs
          rw [OrientedCmp.isLE_antisymm hle hge]
          rfl
        | succ m =>
          have hthen : ∀ o : Ordering, o.isLE → o.then .lt = .lt := by decide
          exact (hthen _ hle).symm
      | succ n =>
        cases m with
        | zero =>
          have hge := zeros_isLE hl.ge hbs
          have hthen : ∀ o : Ordering, o.isLE → o.swap.then .gt = .gt := by decide
          have hswap := hthen _ hge
          rw [← @OrientedCmp.eq_swap _ (List.compareLex compare)] at hswap
          exact hswap.symm
        | succ m =>
          rw [List.take_succ_cons, List.take_succ_cons, List.compareLex_cons_cons,
            List.compareLex_cons_cons, Ordering.then_assoc,
            ih (Nat.succ.inj hl) (Nat.le_of_succ_le_succ hn) (Nat.le_of_succ_le_succ hm) has hbs]
          simp only [Nat.compare_eq_ite_lt, Nat.add_lt_add_iff_right]

section circular
variable {α : Type _} {c : α → α → Ordering} [TransCmp c] {xs : List α} {i : Nat} {o x : α}

theorem pairwise_around (hs : xs.Pairwise (c · · = .lt)) (hi : xs[i]? = some o) (hx : x ∈ xs) :
    (c x o).isLE ∨ ∃ o', xs[i + 1]? = some o' ∧ (c o' x).isLE := by
  obtain ⟨j, hj⟩ := List.mem_iff_getElem?.1 hx
  obtain ⟨hil, hio⟩ := List.getElem?_eq_some_iff.1 hi
  obtain ⟨hjl, hjx⟩ := List.getElem?_eq_some_iff.1 hj
  have hpair := List.pairwise_iff_getElem.1 hs
  rcases Nat.lt_trichotomy j i with hji | hji | hji
  · left
    have hlt := hpair j i hjl hil hji
    rw [hjx, hio] at hlt
    exact Ordering.isLE_of_eq_lt hlt
  · left
    subst hji
    rw [hio] at hjx
    subst hjx
    rw [@ReflCmp.compare_self _ c]
    rfl
  · right
    have hnl : i + 1 < xs.length := by omega
    use xs[i + 1], getElem?_eq_getElem hnl
    rcases Nat.lt_or_eq_of_le (Nat.succ_le_of_lt hji) with hlt | heq
    · have hlt := hpair (i + 1) j hnl hjl hlt
      rw [hjx] at hlt
      exact Ordering.isLE_of_eq_lt hlt
    · subst heq
      rw [hjx, @ReflCmp.compare_self _ c]
      rfl

theorem lt_next_of_pairwise (hs : xs.Pairwise (c · · = .lt)) (hi : xs[i]? = some o)
    (hn : xs[i + 1]? = some o') : c o o' = .lt := by
  obtain ⟨hil, hio⟩ := List.getElem?_eq_some_iff.1 hi
  obtain ⟨hjl, hjo⟩ := List.getElem?_eq_some_iff.1 hn
  have hlt := List.pairwise_iff_getElem.1 hs i (i + 1) hil hjl (Nat.lt_succ_self i)
  rwa [hio, hjo] at hlt

def circNext (xs : List α) (d : α) (i : Nat) : α := (xs[i + 1]?).getD (xs.headD d)

theorem head_isLE (hs : xs.Pairwise (c · · = .lt)) (d : α) (hx : x ∈ xs) :
    (c (xs.headD d) x).isLE := by
  cases xs with
  | nil => cases hx
  | cons y ys =>
    rcases mem_cons.1 hx with rfl | hx
    · rw [headD_cons, @ReflCmp.compare_self _ c]
      rfl
    · exact Ordering.isLE_of_eq_lt ((pairwise_cons.1 hs).1 x hx)

theorem not_mem_of_between (hs : xs.Pairwise (c · · = .lt)) {d : α} (hi : xs[i]? = some o)
    (h : (c o x = .lt ∧ c x (circNext xs d i) = .lt) ∨
      ((c (circNext xs d i) o).isLE ∧ (c x o = .gt ∨ c x (circNext xs d i) = .lt))) : x ∉ xs := by
  intro hx
  have haround := pairwise_around hs hi hx
  cases hn : xs[i + 1]? with
  | some o' =>
    have hnext : circNext xs d i = o' := by
      unfold circNext
      rw [hn]
      rfl
    rw [hnext] at h
    have hlt := lt_next_of_pairwise hs hi hn
    rcases h with ⟨hox, hxn⟩ | ⟨hle, -⟩
    · rcases haround with hxo | ⟨o'', ho'', hle⟩
      · exact OrientedCmp.not_isLE_of_lt hox hxo
      · rw [hn] at ho''
        cases ho''
        exact OrientedCmp.not_isLE_of_lt hxn hle
    · exact OrientedCmp.not_isLE_of_lt hlt hle
  | none =>
    have hxo : (c x o).isLE := by
      rcases haround with hxo | ⟨o', ho', -⟩
      · exact hxo
      · rw [hn] at ho'
        cases ho'
    have hnext : circNext xs d i = xs.headD d := by
      unfold circNext
      rw [hn]
      rfl
    have hhead := head_isLE hs d hx
    rw [hnext] at h
    rcases h with ⟨hox, -⟩ | ⟨-, hgt | hlt⟩
    · exact OrientedCmp.not_isLE_of_lt hox hxo
    · rw [hgt] at hxo
      cases hxo
    · exact OrientedCmp.not_isLE_of_lt hlt hhead

end circular

end CwdGate.Lib
