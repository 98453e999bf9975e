import Mathlib.Logic.Function.Iterate
import Mathlib.Order.Basic

/-!
Machines that take step after step and may come to a result, where they stay. The result of a
run is unique, and it comes from a step of its own.
-/
namespace ReduceOS.Halting

variable {σ ρ : Type*} {step : σ → σ} {result : σ → Option ρ} {s : σ} {r r' : ρ}

def Stays (step : σ → σ) (result : σ → Option ρ) : Prop :=
  ∀ s, (result s).isSome → step s = s

def Returns (step : σ → σ) (result : σ → Option ρ) (s : σ) (r : ρ) : Prop :=
  ∃ n, result (step^[n] s) = some r

def Reaches (step : σ → σ) (s t : σ) : Prop := ∃ n, step^[n] s = t

theorem Stays.iterate (h : Stays step result) (hr : result s = some r) (n : ℕ) :
    step^[n] s = s :=
  Function.iterate_fixed (h s (by simp [hr])) n

theorem Stays.returns_unique (h : Stays step result) (hr : Returns step result s r)
    (hr' : Returns step result s r') : r = r' := by
  obtain ⟨m, hm⟩ := hr
  obtain ⟨n, hn⟩ := hr'
  rcases Nat.le_total m n with hle | hle
  · obtain ⟨k, rfl⟩ := Nat.exists_eq_add_of_le' hle
    rw [Function.iterate_add_apply, h.iterate hm, hm] at hn
    exact Option.some.inj hn
  · obtain ⟨k, rfl⟩ := Nat.exists_eq_add_of_le' hle
    rw [Function.iterate_add_apply, h.iterate hn, hn] at hm
    exact (Option.some.inj hm).symm

theorem Reaches.refl (step : σ → σ) (s : σ) : Reaches step s s := ⟨0, rfl⟩

theorem Reaches.trans {t u : σ} (h : Reaches step s t) (h' : Reaches step t u) :
    Reaches step s u := by
  obtain ⟨m, rfl⟩ := h
  obtain ⟨n, rfl⟩ := h'
  exact ⟨n + m, Function.iterate_add_apply step n m s⟩

theorem Reaches.next {t : σ} (h : Reaches step s t) : Reaches step s (step t) :=
  h.trans ⟨1, rfl⟩

/-- What holds at the start and is kept by every step holds of every state reached. -/
theorem Reaches.induct {P : σ → Prop} {t : σ} (h : Reaches step s t) (h0 : P s)
    (hstep : ∀ u, Reaches step s u → P u → P (step u)) : P t := by
  obtain ⟨n, rfl⟩ := h
  induction n with
  | zero => exact h0
  | succ n ih =>
    rw [Function.iterate_succ_apply']
    exact hstep _ ⟨n, rfl⟩ ih

/-- A machine that returns comes to its result from every state on the way. -/
theorem Stays.returns_of_reaches (h : Stays step result) {t : σ} (ht : Reaches step s t)
    (hr : Returns step result s r) : Returns step result t r := by
  obtain ⟨m, rfl⟩ := ht
  obtain ⟨n, hn⟩ := hr
  rcases Nat.le_total m n with hle | hle
  · obtain ⟨k, rfl⟩ := Nat.exists_eq_add_of_le' hle
    exact ⟨k, by rwa [← Function.iterate_add_apply]⟩
  · obtain ⟨k, rfl⟩ := Nat.exists_eq_add_of_le' hle
    refine ⟨0, ?_⟩
    rw [Function.iterate_zero, id, Function.iterate_add_apply, h.iterate hn, hn]

theorem Reaches.returns {t : σ} (h : Reaches step s t) (hr : Returns step result t r) :
    Returns step result s r := by
  obtain ⟨m, rfl⟩ := h
  obtain ⟨n, hn⟩ := hr
  exact ⟨n + m, by rwa [Function.iterate_add_apply]⟩

/-- A result is there from the start, or one of the steps gives it. -/
theorem Stays.last_step (hstay : Stays step result) (h : Returns step result s r) :
    result s = some r ∨
      ∃ t, Reaches step s t ∧ result t = none ∧ result (step t) = some r := by
  obtain ⟨n, hn⟩ := h
  induction n with
  | zero => exact .inl hn
  | succ n ih =>
    rw [Function.iterate_succ_apply'] at hn
    cases hbefore : result (step^[n] s) with
    | none => exact .inr ⟨_, ⟨n, rfl⟩, hbefore, hn⟩
    | some r' =>
      rw [hstay _ (by simp [hbefore])] at hn
      exact ih hn

/-- A machine returns if something becomes less with every step that it takes without a result. -/
theorem returns_of_decreasing (measure : σ → ℕ) (h : ∀ t, Reaches step s t → result t = none →
    measure (step t) < measure t) : ∃ r, Returns step result s r := by
  generalize hn : measure s = n
  induction n using Nat.strongRecOn generalizing s with
  | ind n ih =>
    cases hresult : result s with
    | some r => exact ⟨r, 0, hresult⟩
    | none =>
      have hless := h s (Reaches.refl step s) hresult
      obtain ⟨r, hr⟩ := ih (measure (step s)) (hn ▸ hless)
        (fun t ht => h t (((Reaches.refl step s).next).trans ht)) rfl
      exact ⟨r, ((Reaches.refl step s).next).returns hr⟩

/-- A machine that stays where it is without a result never returns. -/
theorem not_returns_of_fixed (hstep : step s = s) (hresult : result s = none) :
    ¬ Returns step result s r := by
  rintro ⟨n, hn⟩
  rw [Function.iterate_fixed hstep, hresult] at hn
  cases hn

end ReduceOS.Halting
