namespace CwdGate.Lib

/-- A program that changes a state and returns a value or an error; the state is kept in both
cases. -/
def Prog (σ ε α : Type) := σ → Except ε α × σ

namespace Prog
variable {σ ε α β : Type}

instance : Monad (Prog σ ε) where
  pure a := fun s => (.ok a, s)
  bind x f := fun s =>
    match x s with
    | (.ok a, t) => f a t
    | (.error e, t) => (.error e, t)

def fail (e : ε) : Prog σ ε α := fun s => (.error e, s)

def read (f : σ → α) : Prog σ ε α := fun s => (.ok (f s), s)

def update (f : σ → σ) : Prog σ ε Unit := fun s => (.ok (), f s)

def require (p : σ → Bool) (e : ε) : Prog σ ε Unit := fun s =>
  if p s then (.ok (), s) else (.error e, s)

def each (f : α → Prog σ ε Unit) : List α → Prog σ ε Unit
  | [] => pure ()
  | a :: as => do
    f a
    each f as

theorem bind_apply_ok {x : Prog σ ε α} {f : α → Prog σ ε β} {s t : σ} {a : α}
    (h : x s = (.ok a, t)) : (x >>= f) s = f a t := by
  change (match x s with | (.ok a, t) => f a t | (.error e, t) => (.error e, t)) = _
  rw [h]

theorem bind_apply_error {x : Prog σ ε α} {f : α → Prog σ ε β} {s t : σ} {e : ε}
    (h : x s = (.error e, t)) : (x >>= f) s = (.error e, t) := by
  change (match x s with | (.ok a, t) => f a t | (.error e, t) => (.error e, t)) = _
  rw [h]

theorem each_append :
    each f (as ++ bs) = (do each f as; each f bs) := by
  induction as with
  | nil => rfl
  | cons a as ih =>
    funext s
    rcases h : f a s with ⟨e | u, t⟩
    · have hl : each f (a :: as ++ bs) s = (.error e, t) := bind_apply_error h
      have hr : each f (a :: as) s = (.error e, t) := bind_apply_error h
      rw [hl, bind_apply_error hr]
    · have hl : each f (a :: as ++ bs) s = each f (as ++ bs) t := bind_apply_ok h
      have hr : each f (a :: as) s = each f as t := bind_apply_ok h
      rw [hl, ih]
      rcases h' : each f as t with ⟨e | v, w⟩
      · rw [bind_apply_error h', bind_apply_error (hr.trans h')]
      · rw [bind_apply_ok h', bind_apply_ok (hr.trans h')]

theorem each_map :
    each f (as.map g) = each (fun a => f (g a)) as := by
  induction as with
  | nil => rfl
  | cons a as ih => rw [List.map_cons, each, each, ih]

theorem require_ok (h : require p e s = (.ok u, t)) : p s = true ∧ s = t := by
  unfold require at h
  split at h
  · rename_i hp
    simp only [Prod.mk.injEq] at h
    exact ⟨hp, h.2⟩
  · simp at h

theorem bind_ok {x : Prog σ ε α} {f : α → Prog σ ε β} {s t : σ} {b : β}
    (h : (x >>= f) s = (.ok b, t)) : ∃ a u, x s = (.ok a, u) ∧ f a u = (.ok b, t) := by
  rcases hx : x s with ⟨_ | a, u⟩
  · rw [bind_apply_error hx] at h
    simp at h
  · rw [bind_apply_ok hx] at h
    exact ⟨a, u, rfl, h⟩

theorem bind_error {x : Prog σ ε α} {f : α → Prog σ ε β} {s t : σ} {e : ε}
    (h : (x >>= f) s = (.error e, t)) :
    x s = (.error e, t) ∨ ∃ a u, x s = (.ok a, u) ∧ f a u = (.error e, t) := by
  rcases hx : x s with ⟨_ | a, u⟩
  · rw [bind_apply_error hx] at h
    simp only [Prod.mk.injEq, Except.error.injEq] at h
    exact .inl (by rw [h.1, h.2])
  · rw [bind_apply_ok hx] at h
    exact .inr ⟨a, u, rfl, h⟩

/-- `R` relates the state a program starts in to the state it ends in, error or not. -/
def Keeps (R : σ → σ → Prop) (x : Prog σ ε α) (s : σ) : Prop := R s (x s).2

variable {R : σ → σ → Prop}

theorem keeps_require (hR : ∀ s, R s s) : Keeps R (require p e) s := by
  unfold Keeps require
  split <;> exact hR s

theorem Keeps.of_run (h : Keeps R x s) (hx : x s = (r, t)) : R s t := by
  unfold Keeps at h
  rwa [hx] at h

theorem Keeps.bind (hR : ∀ s t u, R s t → R t u → R s u) {x : Prog σ ε α}
    {f : α → Prog σ ε β} {s : σ} (hx : Keeps R x s)
    (hf : ∀ a t, x s = (.ok a, t) → Keeps R (f a) t) : Keeps R (x >>= f) s := by
  rcases hr : x s with ⟨_ | a, t⟩
  · unfold Keeps at hx ⊢
    rw [bind_apply_error hr]
    rwa [hr] at hx
  · have hf := hf a t hr
    unfold Keeps at hx hf ⊢
    rw [bind_apply_ok hr]
    rw [hr] at hx
    exact hR _ _ _ hx hf

/-- From `s` the program keeps `R`, and where it returns, `Q` holds of the value and the state. -/
def Spec (R : σ → σ → Prop) (x : Prog σ ε α) (s : σ) (Q : α → σ → Prop) : Prop :=
  Keeps R x s ∧ ∀ a t, x s = (.ok a, t) → Q a t

namespace Spec
variable {s : σ} {Q : α → σ → Prop}

protected theorem pure (hR : ∀ s, R s s) (h : Q a s) : Spec R (pure a : Prog σ ε α) s Q := by
  refine ⟨hR s, ?_⟩
  rintro _ _ ⟨⟩
  exact h

protected theorem update {f : σ → σ} (h : R s (f s)) :
    Spec R (update f : Prog σ ε Unit) s fun _ t => t = f s := by
  refine ⟨h, ?_⟩
  rintro _ _ ⟨⟩
  rfl

protected theorem require (hR : ∀ s, R s s) (p : σ → Bool) (e : ε) :
    Spec R (require p e) s fun _ t => p s = true ∧ s = t :=
  ⟨keeps_require hR, fun _ _ h => require_ok h⟩

protected theorem mono (h : Spec R x s Q) (hQ : ∀ a t, R s t → Q a t → Q' a t) : Spec R x s Q' :=
  ⟨h.1, fun a t hx => hQ a t (h.1.of_run hx) (h.2 a t hx)⟩

protected theorem bind (hR : ∀ s t u, R s t → R t u → R s u) {f : α → Prog σ ε β}
    {Q' : β → σ → Prop} (hx : Spec R x s Q)
    (hf : ∀ a t, R s t → Q a t → Spec R (f a) t Q') : Spec R (x >>= f) s Q' := by
  constructor
  · refine Keeps.bind hR hx.1 fun a t h => ?_
    exact (hf a t (hx.1.of_run h) (hx.2 a t h)).1
  · intro b u h
    obtain ⟨a, t, h1, h2⟩ := bind_ok h
    exact (hf a t (hx.1.of_run h1) (hx.2 a t h1)).2 b u h2

/-- A last change of the state may undo what `R` forbids, as long as `R` holds of the whole. -/
protected theorem bind_update {f : σ → σ} {Q' : Unit → σ → Prop} (hx : Spec R x s Q)
    (hf : ∀ a t, R s t → Q a t → R s (f t) ∧ Q' () (f t)) :
    Spec R (x >>= fun _ => update f) s Q' := by
  rcases hr : x s with ⟨_ | a, t⟩
  · refine ⟨?_, fun b u h => ?_⟩
    · unfold Keeps
      rw [bind_apply_error hr]
      have h := hx.1
      unfold Keeps at h
      rwa [hr] at h
    · rw [bind_apply_error hr] at h
      cases h
  · obtain ⟨h1, h2⟩ := hf a t (hx.1.of_run hr) (hx.2 a t hr)
    refine ⟨?_, fun b u h => ?_⟩
    · unfold Keeps
      rw [bind_apply_ok hr]
      exact h1
    · rw [bind_apply_ok hr] at h
      cases h
      exact h2

protected theorem each (hR : ∀ s, R s s) (hT : ∀ s t u, R s t → R t u → R s u)
    (I : List α → σ → Prop) (done : List α) (h0 : I done s)
    (hf : ∀ done a s, a ∈ as → I done s → Spec R (f a) s fun _ t => I (done ++ [a]) t) :
    Spec R (Prog.each f as) s fun _ t => I (done ++ as) t := by
  induction as generalizing s done with
  | nil =>
    rw [List.append_nil]
    exact Spec.pure hR h0
  | cons a as ih =>
    refine Spec.bind hT (hf done a s List.mem_cons_self h0) fun _ t _ ht => ?_
    have h := ih (done ++ [a]) ht fun done b s hb => hf done b s (List.mem_cons_of_mem _ hb)
    rwa [List.append_assoc] at h

end Spec

/-- A `Spec` that moreover keeps `I`, and does not end with the error `e` from a state with `I`. -/
structure Safe (R : σ → σ → Prop) (I : σ → Prop) (e : ε) (x : Prog σ ε α) (s : σ)
    (Q : α → σ → Prop) : Prop where
  spec : Spec R x s Q
  keeps : I s → I (x s).2
  never : I s → (x s).1 ≠ .error e

namespace Safe
variable {s : σ}

theorem of_ok (hx : x s = (.ok a, t)) (hR : R s t) (hI : I s → I t) (hQ : Q a t) :
    Safe R I e x s Q := by
  refine ⟨⟨?_, ?_⟩, ?_, ?_⟩
  · unfold Keeps
    rwa [hx]
  · intro b u hu
    cases hx.symm.trans hu
    exact hQ
  · rwa [hx]
  · rw [hx]
    exact nofun

theorem of_error (hx : x s = (.error e', t)) (hR : R s t) (hI : I s → I t)
    (hne : I s → e' ≠ e) : Safe R I e x s Q := by
  refine ⟨⟨?_, ?_⟩, ?_, ?_⟩
  · unfold Keeps
    rwa [hx]
  · intro b u hu
    cases hx.symm.trans hu
  · rwa [hx]
  · rw [hx]
    exact fun hI he => hne hI (Except.error.inj he)

theorem keeps_run (h : Safe R I e x s Q) (hx : x s = (r, t)) (hI : I s) : I t := by
  have := h.keeps hI
  rwa [hx] at this

protected theorem pure (hR : ∀ s, R s s) (h : Q a s) :
    Safe R I e (pure a : Prog σ ε α) s Q := of_ok rfl (hR s) id h

protected theorem update {f : σ → σ} (h : R s (f s)) (hI : I s → I (f s)) :
    Safe R I e (update f : Prog σ ε Unit) s fun _ t => t = f s := of_ok rfl h hI rfl

protected theorem require (hR : ∀ s, R s s) (p : σ → Bool) (h : e' ≠ e) :
    Safe R I e (require p e') s fun _ t => p s = true ∧ s = t := by
  by_cases hp : p s = true
  · exact of_ok (if_pos hp) (hR s) id ⟨hp, rfl⟩
  · exact of_error (if_neg hp) (hR s) id fun _ => h

protected theorem mono (h : Safe R I e x s Q)
    (hQ : ∀ a t, R s t → Q a t → Q' a t) : Safe R I e x s Q' := ⟨h.spec.mono hQ, h.keeps, h.never⟩

protected theorem bind (hR : ∀ s t u, R s t → R t u → R s u) {f : α → Prog σ ε β}
    {Q' : β → σ → Prop} (hx : Safe R I e x s Q)
    (hf : ∀ a t, R s t → Q a t → Safe R I e (f a) t Q') : Safe R I e (x >>= f) s Q' := by
  rcases hr : x s with ⟨e' | a, t⟩
  · refine of_error (bind_apply_error hr) (hx.spec.1.of_run hr) (hx.keeps_run hr) fun hI he => ?_
    rw [he] at hr
    exact hx.never hI (congrArg Prod.fst hr)
  · have hfa := hf a t (hx.spec.1.of_run hr) (hx.spec.2 a t hr)
    refine ⟨hx.spec.bind hR fun a t hR hQ => (hf a t hR hQ).spec, ?_, ?_⟩ <;>
      rw [bind_apply_ok hr]
    · exact fun hI => hfa.keeps (hx.keeps_run hr hI)
    · exact fun hI => hfa.never (hx.keeps_run hr hI)

protected theorem each (hR : ∀ s, R s s) (hT : ∀ s t u, R s t → R t u → R s u)
    (hf : ∀ a s, Safe R I e (f a) s fun _ _ => True) (as : List α) (s : σ) :
    Safe R I e (Prog.each f as) s fun _ _ => True := by
  induction as generalizing s with
  | nil => exact Safe.pure hR trivial
  | cons a as ih => exact Safe.bind hT (hf a s) fun _ t _ _ => ih t

end Safe

end Prog
end CwdGate.Lib
