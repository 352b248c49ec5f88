import Mathlib

namespace CwdGate.Lib
open Relation List

/-- Nodes with bit strings: child `i` extends the string of its parent by `i`, and only the root is
no child. -/
structure IsTrie {N : Type} (root : N) (Live : N → Prop) (child : N → Bool → N → Prop)
    (key : N → List Bool) : Prop where
  root_key : key root = []
  up : ∀ n, Live n → n = root ∨ ∃ p i, Live p ∧ child p i n
  extend : ∀ p i c, Live p → child p i c → key p ++ [i] <+: key c
  unique : ∀ p i c c', Live p → child p i c → child p i c' → c = c'

namespace IsTrie
variable {key : N → List Bool}

variable (h : IsTrie root Live child key)
include h

def Below (Live : N → Prop) (child : N → Bool → N → Prop) (p c : N) : Prop :=
  Live p ∧ ∃ i, child p i c

theorem reach (hn : Live n) : ReflTransGen (Below Live child) root n := by
  generalize hlen : (key n).length = len
  induction len using Nat.strong_induction_on generalizing n with
  | _ len ih =>
    rcases h.up n hn with rfl | ⟨p, i, hp, hc⟩
    · exact .refl
    · have hle := (h.extend p i n hp hc).length_le
      rw [length_append, length_singleton] at hle
      exact (ih _ (by omega) hp rfl).tail ⟨hp, i, hc⟩

theorem key_mono (hpath : ReflTransGen (Below Live child) p n) : key p <+: key n := by
  induction hpath with
  | refl => exact prefix_refl _
  | tail _ hstep ih =>
    obtain ⟨hp, i, hc⟩ := hstep
    exact ih.trans ((prefix_append _ _).trans (h.extend _ i _ hp hc))

theorem eq_of_path (hn : ReflTransGen (Below Live child) p n)
    (hm : ReflTransGen (Below Live child) p m) (hkey : key n = key m) : n = m := by
  induction hn using ReflTransGen.head_induction_on with
  | refl =>
    rcases hm.cases_head with heq | ⟨c, ⟨hp, i, hc⟩, hrest⟩
    · exact heq
    · have hle := ((h.extend _ i c hp hc).trans (h.key_mono hrest)).length_le
      rw [hkey, length_append, length_singleton] at hle
      omega
  | @head p c hstep hrest ih =>
    obtain ⟨hp, i, hc⟩ := hstep
    have hpre := (h.extend p i c hp hc).trans (h.key_mono hrest)
    rcases hm.cases_head with rfl | ⟨c', ⟨_, i', hc'⟩, hrest'⟩
    · have hle := hpre.length_le
      rw [hkey, length_append, length_singleton] at hle
      omega
    · have hpre' := (h.extend p i' c' hp hc').trans (h.key_mono hrest')
      rw [hkey] at hpre
      have hindex := prefix_of_prefix_length_le hpre hpre' (by simp) |>.eq_of_length (by simp)
      obtain rfl : i = i' := by simpa using hindex
      obtain rfl : c = c' := h.unique p i c c' hp hc hc'
      exact ih hrest'

theorem key_inj (hn : Live n) (hm : Live m) (hkey : key n = key m) : n = m :=
  h.eq_of_path (h.reach hn) (h.reach hm) hkey

end IsTrie

end CwdGate.Lib
