import Mathlib

namespace CwdGate.Lib

/-- What holds of the result of a computation that may give none. -/
def Post (x : Option α) (P : α → Prop) : Prop := ∀ a, x = some a → P a

theorem Post.none : Post none P := nofun

theorem Post.some (h : P a) : Post (some a) P := by
  intro b hb
  cases hb
  exact h

theorem Post.get (h : Post (Option.some a) P) : P a := h a rfl

theorem Post.mono (h : Post x P) (hPQ : ∀ a, P a → Q a) : Post x Q := fun a ha => hPQ a (h a ha)

theorem Post.map (h : Post x fun a => P (f a)) : Post (x.map f) P := by
  cases x with
  | none => exact .none
  | some a => exact .some h.get

open Relation

/-- One turn of a loop: it ends the loop, goes on with a new state, or fails. -/
inductive Turn (S : Type) where
  | stop
  | next (s : S)
  | fail

/-- What holds of the state after a turn, and what holds when the turn ends the loop. -/
def Turn.Does {S : Type} (next : S → Prop) (stop : Prop) : Turn S → Prop
  | .stop => stop
  | .next s => next s
  | .fail => True

theorem Turn.Does.mono {S : Type} {next next' : S → Prop} {stop : Prop} {t : Turn S}
    (h : t.Does next stop) (hnext : ∀ s, next s → next' s) : t.Does next' stop := by
  cases t with
  | next s => exact hnext s h
  | _ => exact h

theorem Turn.Does.of_next {S : Type} {next : S → Prop} {stop : Prop} {t : Turn S} {s : S}
    (h : t.Does next stop) (ht : t = .next s) : next s := by
  rw [ht] at h
  exact h

theorem Turn.Does.of_stop {S : Type} {next : S → Prop} {stop : Prop} {t : Turn S}
    (h : t.Does next stop) (ht : t = .stop) : stop := by
  rw [ht] at h
  exact h

/-- A loop of at most so many turns, or nothing when a turn fails. -/
def loop {S : Type} (body : S → Turn S) : Nat → S → Option S
  | 0, s => some s
  | n + 1, s =>
    match body s with
    | .stop => some s
    | .next s' => loop body n s'
    | .fail => none

def Turns {S : Type} (body : S → Turn S) : S → S → Prop :=
  ReflTransGen fun s s' => body s = .next s'

variable {S : Type} {body : S → Turn S} {s t : S}

/-- A loop whose turns keep an invariant and lower a measure ends, if it has turns enough. -/
theorem loop_turns {P : S → Prop} {measure : S → Nat}
    (hstep : ∀ s s', P s → body s = .next s' → P s' ∧ measure s' < measure s) {n : Nat} (hs : P s)
    (hn : measure s < n) (h : loop body n s = some t) : Turns body s t ∧ P t ∧ body t = .stop := by
  induction n generalizing s with
  | zero => exact absurd hn (Nat.not_lt_zero _)
  | succ n ih =>
    rw [loop] at h
    split at h
    case h_1 hstop =>
      cases h
      exact ⟨.refl, hs, hstop⟩
    case h_2 s' hnext =>
      obtain ⟨hs', hlt⟩ := hstep s s' hs hnext
      obtain ⟨hrest, ht, hstop⟩ := ih hs' (by omega) h
      exact ⟨.head hnext hrest, ht, hstop⟩
    case h_3 => cases h

theorem Turns.inv {P : S → Prop} (hstep : ∀ s s', P s → body s = .next s' → P s')
    (h : Turns body s t) (hs : P s) : P t := by
  induction h with
  | refl => exact hs
  | tail _ hnext ih => exact hstep _ _ ih hnext

theorem Turns.to_end (ht : Turns body s t) (hu : Turns body s u) (hstop : body u = .stop) :
    Turns body t u := by
  induction ht using ReflTransGen.head_induction_on with
  | refl => exact hu
  | @head s s' hnext _ ih =>
    rcases hu.cases_head with rfl | ⟨s'', hnext', hrest⟩
    · rw [hstop] at hnext
      cases hnext
    · rw [hnext, Turn.next.injEq] at hnext'
      rw [← hnext'] at hrest
      exact ih hrest

theorem loop_beside {T : Type} {body' : T → Turn T} {R : S → T → Prop}
    (hstep : ∀ s s' t, R s t → body s = .next s' → ∃ t', body' t = .next t' ∧ R s' t')
    (hstop : ∀ s t, R s t → body s = .stop → body' t = .stop) {n : Nat} {s' : S} {t : T}
    (hR : R s t) (h : loop body n s = some s') : ∃ t', loop body' n t = some t' ∧ R s' t' := by
  induction n generalizing s t with
  | zero =>
    cases h
    exact ⟨t, rfl, hR⟩
  | succ n ih =>
    rw [loop] at h
    rw [loop]
    cases hbody : body s with
    | stop =>
      rw [hbody] at h
      rw [hstop s t hR hbody]
      cases h
      exact ⟨t, rfl, hR⟩
    | next u =>
      rw [hbody] at h
      obtain ⟨t', hnext, hR'⟩ := hstep s u t hR hbody
      rw [hnext]
      exact ih hR' h
    | fail =>
      rw [hbody] at h
      cases h

end CwdGate.Lib
