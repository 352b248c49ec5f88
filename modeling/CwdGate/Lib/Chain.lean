import Mathlib

namespace CwdGate.Lib
open Relation

def Acyclic {α : Type} (R : α → α → Prop) : Prop := ∀ a, ¬ TransGen R a a

section Acyclic
variable {α : Type} {R S : α → α → Prop} {s t : α}

theorem Acyclic.mono (h : Acyclic R) (hsub : ∀ a b, S a b → R a b) : Acyclic S := by
  intro a hcycle
  exact h a (TransGen.mono hsub a a hcycle)

theorem path_of_addEdge (hadd : ∀ a b, S a b → R a b ∨ (a = s ∧ b = t)) {a b : α}
    (hpath : TransGen S a b) : TransGen R a b ∨ (ReflTransGen R a s ∧ (ReflTransGen R t b)) := by
  induction hpath with
  | single hstep =>
    rcases hadd _ _ hstep with hR | ⟨rfl, rfl⟩
    · exact .inl (.single hR)
    · exact .inr ⟨.refl, .refl⟩
  | @tail b c _ hstep ih =>
    rcases hadd _ _ hstep with hR | ⟨rfl, rfl⟩
    · rcases ih with hold | ⟨hfirst, hlast⟩
      · exact .inl (hold.tail hR)
      · exact .inr ⟨hfirst, hlast.tail hR⟩
    · rcases ih with hold | ⟨hfirst, _⟩
      · exact .inr ⟨hold.to_reflTransGen, .refl⟩
      · exact .inr ⟨hfirst, .refl⟩

theorem Acyclic.addEdge (h : Acyclic R) (hadd : ∀ a b, S a b → R a b ∨ (a = s ∧ b = t))
    (hnot : ¬ ReflTransGen R t s) : Acyclic S := by
  intro a hcycle
  rcases path_of_addEdge hadd hcycle with hold | ⟨hfirst, hlast⟩
  · exact h a hold
  · exact hnot (hlast.trans hfirst)

end Acyclic

open List Function

/-- Following `next` from `a` visits exactly `xs` and stops at `b`. -/
def Seg (next : Nat → Option Nat) : Option Nat → List Nat → Option Nat → Prop
  | a, [], b => a = b
  | a, x :: xs, b => a = some x ∧ Seg next (next x) xs b

abbrev Chain (next : Nat → Option Nat) (a : Option Nat) (xs : List Nat) : Prop :=
  Seg next a xs none

section seg
variable {next : Nat → Option Nat} {a b : Option Nat} {xs : List Nat}

@[simp] theorem seg_nil : Seg next a [] b ↔ a = b := Iff.rfl

@[simp] theorem seg_cons : Seg next a (x :: xs) b ↔ a = some x ∧ Seg next (next x) xs b := Iff.rfl

theorem seg_append : Seg next a (xs ++ ys) b ↔ ∃ m, Seg next a xs m ∧ Seg next m ys b := by
  induction xs generalizing a with
  | nil => simp
  | cons x xs ih =>
    simp only [cons_append, seg_cons, ih]
    constructor
    · rintro ⟨ha, m, h1, h2⟩
      exact ⟨m, ⟨ha, h1⟩, h2⟩
    · rintro ⟨m, ⟨ha, h1⟩, h2⟩
      exact ⟨ha, m, h1, h2⟩

theorem Seg.congr (h : Seg next a xs b) (he : ∀ x ∈ xs, next' x = next x) : Seg next' a xs b := by
  induction xs generalizing a with
  | nil => exact h
  | cons x xs ih =>
    refine ⟨h.1, ?_⟩
    rw [he x mem_cons_self]
    exact ih h.2 (forall_mem_cons.1 he).2

theorem Seg.update (h : Seg next a xs b) (hp : p ∉ xs) (v : Option Nat) :
    Seg (update next p v) a xs b :=
  h.congr fun _ hx => update_of_ne (ne_of_mem_of_not_mem hx hp) _ _

theorem Seg.update_last (h : Seg next a (xs ++ [p]) b) (hp : p ∉ xs) (v : Option Nat) :
    Seg (Function.update next p v) a (xs ++ [p]) v := by
  obtain ⟨m, h1, h2, -⟩ := seg_append.1 h
  exact seg_append.2 ⟨m, h1.update hp v, h2, update_self ..⟩

theorem Chain.unique (hx : Chain next a xs) (hy : Chain next a ys) : xs = ys := by
  induction xs generalizing a ys with
  | nil =>
    cases ys with
    | nil => rfl
    | cons y ys => rw [seg_nil.1 hx] at hy; cases hy.1
  | cons x xs ih =>
    cases ys with
    | nil => rw [seg_nil.1 hy] at hx; cases hx.1
    | cons y ys =>
      have he : x = y := Option.some.inj (hx.1.symm.trans hy.1)
      subst he
      rw [ih hx.2 hy.2]

theorem Chain.nodup (h : Chain next a xs) : xs.Nodup := by
  induction xs generalizing a with
  | nil => exact nodup_nil
  | cons x xs ih =>
    refine nodup_cons.2 ⟨fun hmem => ?_, ih h.2⟩
    obtain ⟨l, r, rfl⟩ := append_of_mem hmem
    obtain ⟨m, -, hm, h2⟩ := seg_append.1 h.2
    have := congrArg length (Chain.unique h.2 h2)
    simp only [length_append, length_cons] at this
    omega

/-- The first `fuel` elements of a list read through its links. -/
def walk (next : Nat → Option Nat) : Nat → Option Nat → List Nat
  | fuel + 1, some p => p :: walk next fuel (next p)
  | _, _ => []

theorem Chain.walk_eq (h : Chain next a xs) (hf : xs.length ≤ fuel) : walk next fuel a = xs := by
  induction xs generalizing a fuel with
  | nil =>
    rw [seg_nil.1 h]
    cases fuel <;> rfl
  | cons x xs ih =>
    obtain ⟨rfl, h2⟩ := h
    cases fuel with
    | zero => simp at hf
    | succ fuel => rw [walk, ih h2 (by simpa using hf)]

end seg

/-- Walk a null-terminated list and cut out `e`, keeping the link that led to the current
element. -/
def unlinkLoop (next : Nat → Option Nat) (head : Option Nat) (e : Nat) :
    Nat → Option Nat → Option Nat → (Nat → Option Nat) × Option Nat
  | fuel + 1, before, some p =>
    if p = e then
      match before with
      | none => (next, next p)
      | some q => (update next q (next p), head)
    else unlinkLoop next head e fuel (some p) (next p)
  | _, _, _ => (next, head)

def unlink (next : Nat → Option Nat) (head : Option Nat) (e fuel : Nat) :
    (Nat → Option Nat) × Option Nat :=
  unlinkLoop next head e fuel none head

theorem unlinkLoop_spec {next : Nat → Option Nat} {head : Option Nat} {e fuel : Nat}
    {pre xs ys : List Nat} {a : Option Nat} (hpre : Seg next head pre a)
    (h : Chain next a (xs ++ e :: ys)) (he : e ∉ pre) (hd : ∀ x ∈ pre, x ∉ xs ++ e :: ys)
    (hpn : pre.Nodup) (hf : xs.length < fuel) : let r := unlinkLoop next head e fuel pre.getLast? a
    Chain r.1 r.2 (pre ++ xs ++ ys) ∧ ∀ q, q ∉ pre ++ xs → r.1 q = next q := by
  induction xs generalizing pre a fuel with
  | nil =>
    obtain ⟨fuel, rfl⟩ : ∃ k, fuel = k + 1 := ⟨fuel - 1, by simp at hf; omega⟩
    obtain ⟨rfl, h2⟩ := h
    rcases eq_nil_or_concat pre with rfl | ⟨pre, q, rfl⟩
    · simp only [getLast?_nil, unlinkLoop, ↓reduceIte]
      exact ⟨h2, fun _ _ => trivial⟩
    · rw [concat_eq_append] at *
      have hq : q ∉ pre := fun hm => (nodup_append.1 hpn).2.2 q hm q (by simp) rfl
      have hqy : q ∉ ys := fun hm => hd q (by simp) (by simp [hm])
      simp only [getLast?_concat, unlinkLoop, ↓reduceIte, append_nil]
      refine ⟨seg_append.2 ⟨_, hpre.update_last hq _, h2.update hqy _⟩, fun x hx => ?_⟩
      exact update_of_ne (fun hxq => hx (by simp [hxq])) _ _
  | cons x xs ih =>
    obtain ⟨fuel, rfl⟩ : ∃ k, fuel = k + 1 := ⟨fuel - 1, by simp at hf; omega⟩
    obtain ⟨rfl, h2⟩ := h
    have hnd := (show Chain next (some x) (x :: (xs ++ e :: ys)) from ⟨rfl, h2⟩).nodup
    have hxe : x ≠ e := fun hh => (nodup_cons.1 hnd).1 (by simp [hh])
    have hxp : x ∉ pre := fun hm => hd x hm (by simp)
    have hstep := @ih fuel (pre ++ [x]) (next x)
      (seg_append.2 ⟨_, hpre, rfl, rfl⟩) h2
      (by simpa using ⟨he, Ne.symm hxe⟩)
      (by
        intro y hy hm
        rcases mem_append.1 hy with hy | hy
        · exact hd y hy (mem_cons_of_mem _ hm)
        · rw [mem_singleton.1 hy] at hm
          exact (nodup_cons.1 hnd).1 hm)
      (nodup_append.2 ⟨hpn, nodup_singleton x, by
        intro y hy z hz hyz
        rw [mem_singleton.1 hz] at hyz
        exact hxp (hyz ▸ hy)⟩)
      (by simpa using hf)
    rw [getLast?_concat] at hstep
    simp only [unlinkLoop, if_neg hxe]
    simpa only [append_assoc, singleton_append] using hstep

theorem unlink_spec {next : Nat → Option Nat} {head : Option Nat} {e fuel : Nat}
    (h : Chain next head (xs ++ e :: ys)) (hf : xs.length < fuel) :
    Chain (unlink next head e fuel).1 (unlink next head e fuel).2 (xs ++ ys) ∧
      ∀ q, q ∉ xs → (unlink next head e fuel).1 q = next q := by
  have := unlinkLoop_spec (show Seg next head [] head from rfl) h (by simp) (by simp) nodup_nil hf
  simpa only [nil_append, getLast?_nil, unlink] using this

/-- The links of a doubly linked list: the two pointer fields and the two ends. -/
structure Links where
  next : Nat → Option Nat
  prev : Nat → Option Nat
  first : Option Nat
  last : Option Nat

/-- The links read `xs` forward from the first element and backward from the last. -/
structure Links.Reads (l : Links) (xs : List Nat) : Prop where
  fwd : Chain l.next l.first xs
  bwd : Chain l.prev l.last xs.reverse

def Links.pushFront (l : Links) (e : Nat) : Links :=
  let l := { l with prev := update l.prev e none,
                    next := update l.next e l.first }
  let l := match l.first with
    | none => { l with last := some e }
    | some s => { l with prev := update l.prev s (some e) }
  { l with first := some e }

def Links.pushBack (l : Links) (e : Nat) : Links :=
  let l := { l with next := update l.next e none, prev := update l.prev e l.last }
  let l := match l.last with
    | none => { l with first := some e }
    | some s => { l with next := update l.next s (some e) }
  { l with last := some e }

def Links.remove (l : Links) (e : Nat) : Links :=
  let l := match l.prev e with
    | some p => { l with next := update l.next p (l.next e) }
    | none => { l with first := l.next e }
  match l.next e with
  | some n => { l with prev := update l.prev n (l.prev e) }
  | none => { l with last := l.prev e }

theorem Links.Reads.nodup {l : Links} {xs : List Nat} (h : l.Reads xs) : xs.Nodup := h.fwd.nodup

theorem Links.Reads.last_eq {l : Links} {xs : List Nat} (h : l.Reads xs) :
    l.last = xs.getLast? := by
  have hb := h.bwd
  rcases eq_nil_or_concat xs with rfl | ⟨ys, y, rfl⟩
  · simpa using hb
  · rw [concat_eq_append, reverse_append] at hb
    rw [concat_eq_append, getLast?_concat]
    exact hb.1

theorem Links.Reads.pushFront {l : Links} (h : l.Reads xs)
    (he : e ∉ xs) : (l.pushFront e).Reads (e :: xs) := by
  cases xs with
  | nil =>
    have hf : l.first = none := h.fwd
    constructor
    · simp [Links.pushFront, hf]
    · simp [Links.pushFront, hf]
  | cons x xs =>
    have hf : l.first = some x := h.fwd.1
    have hne : x ≠ e := fun hxe => he (hxe ▸ mem_cons_self)
    have hexs : e ∉ xs := fun hm => he (mem_cons_of_mem _ hm)
    have hxs : x ∉ xs := (nodup_cons.1 h.nodup).1
    constructor
    · simp only [Links.pushFront, hf, seg_cons, update_self, true_and, update_of_ne hne]
      exact h.fwd.2.update hexs _
    · have hb := h.bwd
      rw [reverse_cons] at hb
      have h1 := hb.update (p := e) (by simpa using ⟨hexs, Ne.symm hne⟩) none
      have h2 := h1.update_last (by simpa using hxs) (some e)
      simp only [Links.pushFront, hf]
      rw [reverse_cons, reverse_cons]
      refine seg_append.2 ⟨_, h2, rfl, ?_⟩
      rw [update_of_ne (Ne.symm hne), update_self]
      rfl

def Links.mirror (l : Links) : Links := ⟨l.prev, l.next, l.last, l.first⟩

theorem Links.Reads.mirror {l : Links} {xs : List Nat} (h : l.Reads xs) :
    l.mirror.Reads xs.reverse :=
  ⟨h.bwd, by rw [reverse_reverse]; exact h.fwd⟩

theorem Links.pushBack_eq (l : Links) : l.pushBack e = (l.mirror.pushFront e).mirror := by
  cases hl : l.last <;> simp [Links.pushBack, Links.pushFront, Links.mirror, hl]

theorem Links.Reads.pushBack {l : Links} (h : l.Reads xs)
    (he : e ∉ xs) : (l.pushBack e).Reads (xs ++ [e]) := by
  have := (h.mirror.pushFront (by simpa using he)).mirror
  rw [← Links.pushBack_eq] at this
  simpa using this

theorem Links.Reads.split {l : Links} {xs ys : List Nat} (h : l.Reads (xs ++ e :: ys)) :
    Seg l.next l.first xs (some e) ∧ Chain l.next (l.next e) ys ∧
    Seg l.prev l.last ys.reverse (some e) ∧ Chain l.prev (l.prev e) xs.reverse := by
  obtain ⟨m, h1, rfl, h2⟩ := seg_append.1 h.fwd
  have hb := h.bwd
  rw [reverse_append, reverse_cons, append_assoc] at hb
  obtain ⟨m, h3, rfl, h4⟩ := seg_append.1 hb
  exact ⟨h1, h2, h3, h4⟩

theorem Links.Reads.remove {l : Links}
    (h : l.Reads (xs ++ e :: ys)) : (l.remove e).Reads (xs ++ ys) := by
  obtain ⟨h1, h2, h3, h4⟩ := h.split
  have hnd := h.nodup
  rw [nodup_append] at hnd
  obtain ⟨hxs, heys, hdisj⟩ := hnd
  have hys : ys.Nodup := (nodup_cons.1 heys).2
  have hex : e ∉ xs := fun hm => hdisj e hm e mem_cons_self rfl
  -- the predecessor, if any, is redirected to the successor
  have hfwd : ∀ l1 : Links, l1 = (match l.prev e with
      | some p => { l with next := update l.next p (l.next e) }
      | none => { l with first := l.next e } : Links) →
      Chain l1.next l1.first (xs ++ ys) ∧ l1.next e = l.next e ∧ l1.prev = l.prev ∧
        l1.last = l.last := by
    rintro l1 rfl
    rcases eq_nil_or_concat xs with rfl | ⟨xs, p, rfl⟩
    · have hp : l.prev e = none := h4
      simpa only [hp, nil_append, and_true] using h2
    · rw [concat_eq_append] at *
      rw [reverse_append] at h4
      have hp := h4.1
      have hpx : p ∉ xs := fun hm => (nodup_append.1 hxs).2.2 p hm p (by simp) rfl
      have hpy : p ∉ ys := fun hm => hdisj p (by simp) p (mem_cons_of_mem _ hm) rfl
      have hpe : e ≠ p := fun hh => hex (by simp [hh])
      simp only [hp]
      exact ⟨seg_append.2 ⟨_, h1.update_last hpx _, h2.update hpy _⟩,
        update_of_ne hpe _ _, by trivial, by trivial⟩
  obtain ⟨hc, hn, hpr, hla⟩ := hfwd _ rfl
  simp only [Links.remove]
  generalize (match l.prev e with
      | some p => { l with next := update l.next p (l.next e) }
      | none => { l with first := l.next e } : Links) = l1 at hc hn hpr hla
  rw [hn, hpr]
  cases ys with
  | nil =>
    have hne : l.next e = none := h2
    simp only [hne]
    exact ⟨hc, by simpa using h4⟩
  | cons y ys =>
    have hne := h2.1
    have hyx : y ∉ xs := fun hm => hdisj y hm y (by simp) rfl
    have hyy : y ∉ ys := (nodup_cons.1 hys).1
    simp only [hne]
    refine ⟨hc, ?_⟩
    rw [reverse_append, reverse_cons]
    rw [reverse_cons] at h3
    rw [hla]
    exact seg_append.2 ⟨_, h3.update_last (by simpa using hyy) _, h4.update (by simpa using hyx) _⟩

theorem Links.Reads.dropLast {l : Links} (h : l.Reads (xs ++ [p, d])) :
    l.last = some d ∧ l.prev d = some p ∧
    Links.Reads { l with last := some p, next := update l.next p none } (xs ++ [p]) := by
  have h' : l.Reads ((xs ++ [p]) ++ d :: []) := by simpa using h
  obtain ⟨h1, -, h3, h4⟩ := h'.split
  rw [reverse_append] at h4
  have hnd := h'.nodup
  have hpx : p ∉ xs := fun hm => by
    have := (nodup_append.1 (nodup_append.1 hnd).1).2.2 p hm p (by simp)
    exact this rfl
  refine ⟨h3, h4.1, ⟨h1.update_last hpx none, ?_⟩⟩
  rw [reverse_append]
  exact ⟨rfl, h4.2⟩

open List Function

/-- The path `a` leads to `b` or to a place above it, in one tree of a forest. -/
def Above {γ α : Type} (a b : γ × List α) : Prop := a.1 = b.1 ∧ a.2 <+: b.2

instance {γ α : Type} [DecidableEq γ] [DecidableEq α] (a b : γ × List α) : Decidable (Above a b) :=
  inferInstanceAs (Decidable (a.1 = b.1 ∧ a.2 <+: b.2))

section above
variable {b : γ × List α}

theorem Above.refl (a : γ × List α) : Above a a := ⟨rfl, List.prefix_refl _⟩

theorem Above.trans (h : Above a b) (h' : Above b c) : Above a c :=
  ⟨h.1.trans h'.1, h.2.trans h'.2⟩

theorem Above.antisymm (h : Above a b) (h' : Above b a) : a = b :=
  Prod.ext h.1 (h.2.eq_of_length_le h'.2.length_le)

theorem above_concat_iff : Above a (t, k ++ [x]) ↔ a = (t, k ++ [x]) ∨ Above a (t, k) := by
  constructor
  · intro h
    rcases prefix_concat_iff.1 h.2 with he | hp
    · exact .inl (Prod.ext h.1 he)
    · exact .inr ⟨h.1, hp⟩
  · rintro (rfl | h)
    · exact .refl _
    · exact ⟨h.1, h.2.trans (prefix_append _ _)⟩

end above

/-- A forest, each element one step below its parent, with the number of those in use at or below
it. -/
structure CountTree {γ α : Type} [DecidableEq γ] [DecidableEq α] (elems : List Nat)
    (path : Nat → γ × List α) (parent : Nat → Option Nat) (used : Nat → Bool)
    (count : Nat → Int) : Prop where
  nodup : elems.Nodup
  inj : ∀ p ∈ elems, ∀ q ∈ elems, path p = path q → p = q
  up : ∀ p ∈ elems, ((path p).2 = [] ∧ parent p = none) ∨
    ∃ q ∈ elems, ∃ x, parent p = some q ∧ path p = ((path q).1, (path q).2 ++ [x])
  count : ∀ p ∈ elems, count p = elems.countP fun q => used q && decide (Above (path p) (path q))

/-- Add `d` to the count of an element and of all above it. -/
def addCounts (parent : Nat → Option Nat) (d : Int) : Nat → (Nat → Int) → Option Nat → (Nat → Int)
  | fuel + 1, count, some p =>
    addCounts parent d fuel (update count p (count p + d)) (parent p)
  | _, count, _ => count

/-- Take out the elements without count, from one up to the first with a count, and their cost. -/
def dropEmpty (parent : Nat → Option Nat) (count : Nat → Int) (cost : Nat → Nat) :
    Nat → List Nat × Nat → Option Nat → List Nat × Nat
  | fuel + 1, s, some p =>
    if count p = 0 then
      dropEmpty parent count cost fuel (s.1.erase p, s.2 - cost p) (parent p)
    else s
  | _, s, _ => s

theorem addCounts_eq (h : Chain parent a xs) (hf : xs.length ≤ fuel) (count : Nat → Int) :
    addCounts parent d fuel count a q = if q ∈ xs then count q + d else count q := by
  induction xs generalizing a fuel count with
  | nil =>
    rw [seg_nil.1 h]
    cases fuel <;> simp [addCounts]
  | cons x xs ih =>
    have hx : x ∉ xs := (nodup_cons.1 h.nodup).1
    obtain ⟨rfl, h2⟩ := h
    cases fuel with
    | zero => simp at hf
    | succ fuel =>
      rw [addCounts, ih h2 (by simpa using hf)]
      by_cases hq : q = x
      · subst hq
        simp [hx]
      · simp [hq]

namespace CountTree
variable [DecidableEq γ] [DecidableEq α] {elems : List Nat} {path : Nat → γ × List α}
  {used : Nat → Bool} {count : Nat → Int}

theorem nil : CountTree [] path parent used count where
  nodup := List.nodup_nil
  inj := nofun
  up := nofun
  count := nofun

section
variable (h : CountTree elems path parent used count) (hp : p ∈ elems)
include h hp

/-- The parents of an element are the elements above it, one for each step of its path. -/
theorem chain :
    ∃ xs, Chain parent (some p) xs ∧ xs.length = (path p).2.length + 1 ∧
      ∀ q, q ∈ xs ↔ q ∈ elems ∧ Above (path q) (path p) := by
  obtain ⟨n, hn⟩ : ∃ n, (path p).2.length = n := ⟨_, rfl⟩
  induction n generalizing p with
  | zero =>
    have hnil : (path p).2 = [] := eq_nil_of_length_eq_zero hn
    rcases h.up p hp with ⟨-, hpar⟩ | ⟨q, -, x, -, hpath⟩
    · refine ⟨[p], ⟨rfl, hpar⟩, by simp [hnil], fun q => ?_⟩
      rw [mem_singleton]
      constructor
      · rintro rfl
        exact ⟨hp, .refl _⟩
      · rintro ⟨hq, ht, hpre⟩
        rw [hnil] at hpre
        exact h.inj q hq p hp (Prod.ext ht (by rw [hnil, prefix_nil.1 hpre]))
    · rw [hpath] at hnil
      simp at hnil
  | succ n ih =>
    rcases h.up p hp with ⟨hnil, -⟩ | ⟨q, hq, x, hpar, hpath⟩
    · rw [hnil] at hn
      cases hn
    have hlen : (path p).2.length = (path q).2.length + 1 := by rw [hpath]; simp
    obtain ⟨xs, hxs, hl, hmem⟩ := ih hq (by omega)
    refine ⟨p :: xs, ⟨rfl, hpar ▸ hxs⟩, by simp only [length_cons]; omega, fun r => ?_⟩
    rw [mem_cons, hmem]
    constructor
    · rintro (rfl | ⟨hr, hab⟩)
      · exact ⟨hp, .refl _⟩
      · rw [hpath]
        exact ⟨hr, above_concat_iff.2 (.inr hab)⟩
    · rintro ⟨hr, hab⟩
      rw [hpath] at hab
      rcases above_concat_iff.1 hab with he | hab
      · exact .inl (h.inj r hr p hp (he.trans hpath.symm))
      · exact .inr ⟨hr, hab⟩

theorem exists_above (ha : Above a (path p)) : ∃ q ∈ elems, path q = a := by
  obtain ⟨n, hn⟩ : ∃ n, (path p).2.length = n := ⟨_, rfl⟩
  induction n generalizing p with
  | zero =>
    have hnil : (path p).2 = [] := eq_nil_of_length_eq_zero hn
    refine ⟨p, hp, Prod.ext ha.1.symm ?_⟩
    have hpre := ha.2
    rw [hnil] at hpre ⊢
    exact (prefix_nil.1 hpre).symm
  | succ n ih =>
    rcases h.up p hp with ⟨hnil, -⟩ | ⟨q, hq, x, -, hpath⟩
    · rw [hnil] at hn
      cases hn
    · rw [hpath] at ha
      rcases above_concat_iff.1 ha with he | hab
      · exact ⟨p, hp, hpath.trans he.symm⟩
      · have hlen : (path p).2.length = (path q).2.length + 1 := by rw [hpath]; simp
        exact ih hq hab (by omega)

theorem count_pos_iff : 0 < count p ↔ ∃ q ∈ elems, used q = true ∧ Above (path p) (path q) := by
  rw [h.count p hp, Int.natCast_pos, countP_pos_iff]
  simp

theorem count_nonneg : 0 ≤ count p := by
  rw [h.count p hp]
  exact Int.natCast_nonneg _

end

theorem congr (h : CountTree elems path parent used count) (hpath : ∀ p ∈ elems, path' p = path p)
    (hparent : ∀ p ∈ elems, parent' p = parent p) (hused : ∀ p ∈ elems, used' p = used p)
    (hcount : ∀ p ∈ elems, count' p = count p) : CountTree elems path' parent' used' count' where
  nodup := h.nodup
  inj p hp q hq he := by
    rw [hpath p hp, hpath q hq] at he
    exact h.inj p hp q hq he
  up p hp := by
    rw [hpath p hp, hparent p hp]
    rcases h.up p hp with hroot | ⟨q, hq, x, hpar, hpq⟩
    · exact .inl hroot
    · refine .inr ⟨q, hq, x, hpar, ?_⟩
      rw [hpath q hq]
      exact hpq
  count p hp := by
    rw [hcount p hp, h.count p hp, hpath p hp]
    congr 1
    apply countP_congr
    intro q hq
    rw [hused q hq, hpath q hq]

theorem countP_update {elems : List Nat} (hn : elems.Nodup) {used : Nat → Bool} {p : Nat}
    (hp : p ∈ elems) (b : Bool) (f : Nat → Bool) :
    (elems.countP fun q => update used p b q && f q) =
      ((elems.erase p).countP fun q => used q && f q) + if b && f p then 1 else 0 := by
  rw [(perm_cons_erase hp).countP_eq, countP_cons, update_self]
  congr 1
  apply countP_congr
  intro q hq
  have hqp : q ≠ p := fun he => (hn.not_mem_erase) (he ▸ hq)
  rw [update_of_ne hqp]

theorem setUsed (h : CountTree elems path parent used count) (hp : p ∈ elems) (hb : used p = !b)
    (hf : (path p).2.length + 1 ≤ fuel) :
    CountTree elems path parent (update used p b)
      (addCounts parent (if b then 1 else -1) fuel count (some p)) where
  nodup := h.nodup
  inj := h.inj
  up := h.up
  count q hq := by
    obtain ⟨xs, hxs, hl, hmem⟩ := h.chain hp
    have hold := @countP_update elems h.nodup used p hp (used p)
      fun r => decide (Above (path q) (path r))
    rw [update_eq_self] at hold
    rw [addCounts_eq hxs (by omega), countP_update h.nodup hp, h.count q hq, hold, hb]
    by_cases hab : Above (path q) (path p)
    · rw [if_pos ((hmem q).2 ⟨hq, hab⟩)]
      cases b <;> simp [hab]
    · rw [if_neg fun hm => hab ((hmem q).1 hm).2]
      cases b <;> simp [hab]

theorem erase (h : CountTree elems path parent used count) (hp : p ∈ elems) (h0 : count p = 0)
    (hpos : ∀ q ∈ elems, 0 < count q ∨ Above (path q) (path p)) :
    CountTree (elems.erase p) path parent used count where
  nodup := h.nodup.erase p
  inj q hq r hr := h.inj q (List.mem_of_mem_erase hq) r (List.mem_of_mem_erase hr)
  up q hq := by
    have hqe := mem_of_mem_erase hq
    rcases h.up q hqe with hroot | ⟨r, hr, x, hpar, hpath⟩
    · exact .inl hroot
    refine .inr ⟨r, (h.nodup.mem_erase_iff).2 ⟨?_, hr⟩, x, hpar, hpath⟩
    rintro rfl
    have hbelow : Above (path r) (path q) := by
      rw [hpath]
      exact above_concat_iff.2 (.inr (.refl _))
    rcases hpos q hqe with hq0 | hab
    · obtain ⟨u, hu, huse, huq⟩ := (h.count_pos_iff hqe).1 hq0
      have := (h.count_pos_iff hp).2 ⟨u, hu, huse, hbelow.trans huq⟩
      omega
    · have := congrArg (fun a => a.2.length) (hbelow.antisymm hab)
      rw [hpath] at this
      simp at this
  count q hq := by
    have hqe := mem_of_mem_erase hq
    have hup : used p = false := by
      by_contra hc
      have := (h.count_pos_iff hp).2 ⟨p, hp, by simpa using hc, .refl _⟩
      omega
    rw [h.count q hqe, (perm_cons_erase hp).countP_eq, countP_cons, hup]
    simp

/-- What taking out the elements without count leaves. -/
structure Dropped (elems : List Nat) (path : Nat → γ × List α) (count : Nat → Int)
    (cost : Nat → Nat) (use : Nat) (p : Nat) (r : List Nat × Nat) : Prop where
  sublist : r.1.Sublist elems
  mem_iff : ∀ q, q ∈ r.1 ↔ q ∈ elems ∧ 0 < count q
  above : ∀ q ∈ elems, q ∉ r.1 → Above (path q) (path p)
  use : r.2 + (elems.map cost).sum = use + (r.1.map cost).sum

theorem dropEmpty (h : CountTree elems path parent used count) (hp : p ∈ elems)
    (hpos : ∀ q ∈ elems, 0 < count q ∨ Above (path q) (path p)) (huse : (elems.map cost).sum ≤ use)
    (hf : (path p).2.length + 1 ≤ fuel) :
    CountTree (dropEmpty parent count cost fuel (elems, use) (some p)).1 path parent used count ∧
      Dropped elems path count cost use p
        (dropEmpty parent count cost fuel (elems, use) (some p)) := by
  induction fuel generalizing elems p use with
  | zero => simp at hf
  | succ fuel ih =>
    rw [Lib.dropEmpty]
    by_cases h0 : count p = 0
    · rw [if_pos h0]
      have he := h.erase hp h0 hpos
      have hsum := sum_map_erase cost hp
      have hlast : ∀ r : List Nat × Nat, r.1.Sublist (elems.erase p) →
          (∀ q, q ∈ r.1 ↔ q ∈ elems.erase p ∧ 0 < count q) →
          (∀ q ∈ elems.erase p, q ∉ r.1 → Above (path q) (path p)) →
          r.2 + ((elems.erase p).map cost).sum = use - cost p + (r.1.map cost).sum →
          Dropped elems path count cost use p r := by
        intro r hsub hmem hab hu
        refine ⟨hsub.trans erase_sublist, fun q => ?_, fun q hq hqr => ?_, by omega⟩
        · rw [hmem, h.nodup.mem_erase_iff]
          constructor
          · rintro ⟨⟨-, hq⟩, hc⟩
            exact ⟨hq, hc⟩
          · rintro ⟨hq, hc⟩
            refine ⟨⟨?_, hq⟩, hc⟩
            rintro rfl
            omega
        · by_cases hqp : q = p
          · rw [hqp]
            exact .refl _
          · exact hab q ((h.nodup.mem_erase_iff).2 ⟨hqp, hq⟩) hqr
      rcases h.up p hp with ⟨hnil, hpar⟩ | ⟨q, hq, x, hpar, hpath⟩
      · have hend : Lib.dropEmpty parent count cost fuel (elems.erase p, use - cost p) none =
            (elems.erase p, use - cost p) := by cases fuel <;> rfl
        rw [hpar, hend]
        refine ⟨he, hlast _ (List.Sublist.refl _) (fun q => ?_) (fun q hq hn => absurd hq hn) ?_⟩
        · constructor
          · intro hq
            refine ⟨hq, ?_⟩
            have hqe := mem_of_mem_erase hq
            rcases hpos q hqe with hc | hab
            · exact hc
            · have hpre := hab.2
              rw [hnil] at hpre
              have heq : path q = path p :=
                Prod.ext hab.1 (by rw [hnil, prefix_nil.1 hpre])
              exact absurd (h.inj q hqe p hp heq) ((h.nodup.mem_erase_iff).1 hq).1
          · exact fun hq => hq.1
        · rfl
      · rw [hpar]
        have hqp : q ≠ p := by
          rintro rfl
          have := congrArg (fun a => a.2.length) hpath
          simp at this
        have hqe : q ∈ elems.erase p := (h.nodup.mem_erase_iff).2 ⟨hqp, hq⟩
        have hlen : (path p).2.length = (path q).2.length + 1 := by rw [hpath]; simp
        have hpos' : ∀ r ∈ elems.erase p, 0 < count r ∨ Above (path r) (path q) := by
          intro r hr
          have hre := mem_of_mem_erase hr
          rcases hpos r hre with hc | hab
          · exact .inl hc
          · rw [hpath] at hab
            rcases above_concat_iff.1 hab with heq | hab
            · exact absurd (h.inj r hre p hp (heq.trans hpath.symm))
                ((h.nodup.mem_erase_iff).1 hr).1
            · exact .inr hab
        have huse' : ((elems.erase p).map cost).sum ≤ use - cost p := by omega
        obtain ⟨htree, hd⟩ := ih he hqe hpos' huse' (by omega)
        refine ⟨htree, hlast _ hd.sublist hd.mem_iff (fun r hr hn => ?_) hd.use⟩
        rw [hpath]
        exact above_concat_iff.2 (.inr (hd.above r hr hn))
    · rw [if_neg h0]
      have hcp : 0 < count p := by
        have := h.count_nonneg hp
        omega
      refine ⟨h, List.Sublist.refl _, fun q => ?_, fun q hq hn => absurd hq hn, rfl⟩
      constructor
      · intro hq
        refine ⟨hq, ?_⟩
        rcases hpos q hq with hc | hab
        · exact hc
        · obtain ⟨u, hu, huse, hpu⟩ := (h.count_pos_iff hp).1 hcp
          exact (h.count_pos_iff hq).2 ⟨u, hu, huse, hab.trans hpu⟩
      · exact fun hq => hq.1

theorem extend (h : CountTree elems path parent used count)
    (hperm : elems'.Perm (new ++ elems)) (hnd : (new ++ elems).Nodup)
    (hinj : ∀ p ∈ new ++ elems, ∀ q ∈ new ++ elems, path p = path q → p = q)
    (hnew : ∀ p ∈ new, used p = false ∧ count p = 0)
    (hup : ∀ p ∈ new, ((path p).2 = [] ∧ parent p = none) ∨
      ∃ q ∈ new ++ elems, ∃ x, parent p = some q ∧ path p = ((path q).1, (path q).2 ++ [x])) :
    CountTree elems' path parent used count where
  nodup := hperm.nodup_iff.2 hnd
  inj p hp q hq := hinj p (hperm.subset hp) q (hperm.subset hq)
  up p hp := by
    have hkeep : ((path p).2 = [] ∧ parent p = none) ∨ ∃ q ∈ new ++ elems, ∃ x,
        parent p = some q ∧ path p = ((path q).1, (path q).2 ++ [x]) := by
      rcases mem_append.1 (hperm.subset hp) with hp | hp
      · exact hup p hp
      · exact (h.up p hp).imp_right fun ⟨q, hq, hx⟩ => ⟨q, mem_append_right _ hq, hx⟩
    exact hkeep.imp_right fun ⟨q, hq, hx⟩ => ⟨q, hperm.mem_iff.2 hq, hx⟩
  count p hp := by
    have hnone : (new.countP fun q => used q && decide (Above (path p) (path q))) = 0 := by
      rw [countP_eq_zero]
      intro q hq
      simp [(hnew q hq).1]
    rw [hperm.countP_eq, countP_append, hnone, Nat.zero_add]
    rcases mem_append.1 (hperm.subset hp) with hp | hp
    · have h0 : (elems.countP fun q => used q && decide (Above (path p) (path q))) = 0 := by
        rw [countP_eq_zero]
        intro q hq
        simp only [Bool.and_eq_true, decide_eq_true_eq, not_and]
        intro _ hab
        obtain ⟨r, hr, hrp⟩ := h.exists_above hq hab
        have heq := hinj r (mem_append_right _ hr) p (mem_append_left _ hp) hrp
        exact (nodup_append.1 hnd).2.2 p hp r hr heq.symm
      rw [h0, (hnew p hp).2]
      rfl
    · exact h.count p hp

end CountTree

end CwdGate.Lib
