import Mathlib.Data.List.Basic
import Mathlib.Tactic.Cases

/-!
Computations that either return or stop the machine, and the rules for reasoning
about them. A tolerated stop is one the specification allows, such as running
out of a resource; every other stop is excluded by a `Meets` judgement. Loops are
monadic folds, and their rule carries an invariant indexed by the part of the
list already visited.
-/
namespace ReduceOS.Outcome

universe u v
variable {ε : Type v} {α β σ : Type u}

/-- The computation returns a value satisfying `Q`, or stops in a tolerated way. -/
def Meets (tol : ε → Prop) (r : Except ε α) (Q : α → Prop) : Prop :=
  match r with
  | .ok a => Q a
  | .error e => tol e

variable {tol : ε → Prop}

@[simp] theorem meets_ok (a : α) (Q : α → Prop) :
    Meets tol (.ok a : Except ε α) Q ↔ Q a := Iff.rfl

@[simp] theorem meets_pure (a : α) (Q : α → Prop) :
    Meets tol (pure a : Except ε α) Q ↔ Q a := Iff.rfl

@[simp] theorem meets_error (e : ε) (Q : α → Prop) :
    Meets tol (.error e : Except ε α) Q ↔ tol e := Iff.rfl

theorem meets_mono {r : Except ε α} {Q R : α → Prop} (h : Meets tol r Q)
    (himp : ∀ a, Q a → R a) : Meets tol r R := by
  cases r with
  | ok a => exact himp a h
  | error e => exact h

theorem meets_weaken {tol' : ε → Prop} {r : Except ε α} {Q : α → Prop} (h : Meets tol r Q)
    (himp : ∀ e, tol e → tol' e) : Meets tol' r Q := by
  cases r with
  | ok a => exact h
  | error e => exact himp e h

/-- Sequencing: the second computation may use what the first established. -/
theorem meets_bind {r : Except ε α} {f : α → Except ε β} {Q : α → Prop} {R : β → Prop}
    (h : Meets tol r Q) (hf : ∀ a, Q a → Meets tol (f a) R) : Meets tol (r >>= f) R := by
  cases r with
  | ok a => exact hf a h
  | error e => exact h

theorem meets_map {r : Except ε α} {f : α → β} {Q : β → Prop} :
    Meets tol (f <$> r) Q ↔ Meets tol r fun a => Q (f a) := by
  cases r with
  | ok a => exact Iff.rfl
  | error e => exact Iff.rfl

theorem meets_of_eq_ok {r : Except ε α} {Q : α → Prop} {a : α}
    (h : Meets tol r Q) (hr : r = .ok a) : Q a := by
  subst hr
  exact h

theorem bind_eq_ok {r : Except ε α} {f : α → Except ε β} {b : β} (h : r >>= f = .ok b) :
    ∃ a, r = .ok a ∧ f a = .ok b := by
  cases r with
  | ok a => exact ⟨a, rfl, h⟩
  | error e => contradiction

def holds (r : Except ε α) (P : α → Bool) : Bool :=
  match r with
  | .ok a => P a
  | .error _ => false

theorem ok_of_holds {r : Except ε α} {P : α → Bool} (h : holds r P = true) :
    ∃ a, r = .ok a ∧ P a = true := by
  cases r with
  | ok a => exact ⟨a, rfl, h⟩
  | error e => contradiction

private theorem meets_foldlM_from {f : σ → α → Except ε σ} (P : List α → σ → Prop)
    (done rest : List α) (s : σ) (h0 : P done s)
    (hstep : ∀ pre a post t, done ++ rest = pre ++ a :: post → P pre t →
      Meets tol (f t a) (P (pre ++ [a]))) :
    Meets tol (rest.foldlM f s) (P (done ++ rest)) := by
  induction rest generalizing done s with
  | nil => simpa using h0
  | cons a rest ih =>
    rw [List.foldlM_cons]
    refine meets_bind (hstep done a rest s rfl h0) ?_
    intro t ht
    have hsplit : done ++ a :: rest = (done ++ [a]) ++ rest := by simp
    rw [hsplit]
    apply ih (done ++ [a]) t ht
    intro pre b post u hpre hu
    exact hstep pre b post u (hsplit.trans hpre) hu

/-- Loop rule. `P pre s` is the invariant after the elements of `pre` have been
visited in order; a body run may use the exact split of the list. -/
theorem meets_foldlM {f : σ → α → Except ε σ} (P : List α → σ → Prop) (l : List α) (s : σ)
    (h0 : P [] s)
    (hstep : ∀ pre a post t, l = pre ++ a :: post → P pre t →
      Meets tol (f t a) (P (pre ++ [a]))) :
    Meets tol (l.foldlM f s) (P l) := by
  simpa using meets_foldlM_from P [] l s h0 (by simpa using hstep)

variable {bad : ε → Prop}

/-- Both computations do the same, and it meets `Q`, or the first stops in a bad way. -/
def Runs (bad tol : ε → Prop) (r r' : Except ε α) (Q : α → Prop) : Prop :=
  (∃ e, bad e ∧ r = .error e) ∨ (r = r' ∧ Meets tol r' Q)

theorem runs_refl {r : Except ε α} {Q : α → Prop} (h : Meets tol r Q) : Runs bad tol r r Q :=
  Or.inr ⟨rfl, h⟩

theorem runs_mono {r r' : Except ε α} {Q R : α → Prop} (h : Runs bad tol r r' Q)
    (himp : ∀ a, Q a → R a) : Runs bad tol r r' R :=
  h.imp_right fun hsame => ⟨hsame.1, meets_mono hsame.2 himp⟩

theorem runs_bind {r r' : Except ε α} {f f' : α → Except ε β} {Q : α → Prop} {R : β → Prop}
    (h : Runs bad tol r r' Q) (hf : ∀ a, Q a → Runs bad tol (f a) (f' a) R) :
    Runs bad tol (r >>= f) (r' >>= f') R := by
  obtain ⟨e, hbad, rfl⟩ | ⟨rfl, hmeets⟩ := h
  · exact Or.inl ⟨e, hbad, rfl⟩
  · cases r with
    | ok a => exact hf a hmeets
    | error e => exact Or.inr ⟨rfl, hmeets⟩

private theorem runs_foldlM_from {f f' : σ → α → Except ε σ} (P : List α → List α → σ → Prop)
    (done rest : List α) (s : σ) (h0 : P done rest s)
    (hstep : ∀ pre a post t, done ++ rest = pre ++ a :: post → P pre (a :: post) t →
      Runs bad tol (f t a) (f' t a) (P (pre ++ [a]) post)) :
    Runs bad tol (rest.foldlM f s) (rest.foldlM f' s) (P (done ++ rest) []) := by
  induction rest generalizing done s with
  | nil => exact Or.inr ⟨rfl, by simpa using h0⟩
  | cons a rest ih =>
    rw [List.foldlM_cons, List.foldlM_cons]
    refine runs_bind (hstep done a rest s rfl h0) fun t ht => ?_
    have hsplit : done ++ a :: rest = (done ++ [a]) ++ rest := by simp
    rw [hsplit]
    exact ih (done ++ [a]) t ht fun pre b post u hpre hu =>
      hstep pre b post u (hsplit.trans hpre) hu

/-- Loop rule for two bodies; the invariant also sees the elements that are still to come. -/
theorem runs_foldlM {f f' : σ → α → Except ε σ} (P : List α → List α → σ → Prop) (l : List α)
    (s : σ) (h0 : P [] l s)
    (hstep : ∀ pre a post t, l = pre ++ a :: post → P pre (a :: post) t →
      Runs bad tol (f t a) (f' t a) (P (pre ++ [a]) post)) :
    Runs bad tol (l.foldlM f s) (l.foldlM f' s) (P l []) := by
  simpa using runs_foldlM_from P [] l s h0 (by simpa using hstep)

end ReduceOS.Outcome
