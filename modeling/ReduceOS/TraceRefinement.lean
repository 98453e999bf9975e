import Mathlib.Data.List.Basic

/-!
Runs of a system that answers calls, and what is seen of them: each call with its answer. One
system refines another when whatever is seen of a run of the former can be seen of the latter.
-/
namespace ReduceOS.TraceRefinement

variable {σ τ κ ρ : Type*} {step : σ → κ → ρ → σ → Prop} {step' : τ → κ → ρ → τ → Prop}
  {s t : σ} {m : τ} {tr : List (κ × ρ)}

inductive Run (step : σ → κ → ρ → σ → Prop) (s : σ) : List (κ × ρ) → σ → Prop
  | start : Run step s [] s
  | call {tr : List (κ × ρ)} {t u : σ} {c : κ} {r : ρ} (hrun : Run step s tr t)
      (hstep : step t c r u) : Run step s (tr ++ [(c, r)]) u

theorem Run.mono {step' : σ → κ → ρ → σ → Prop} (hrun : Run step s tr t)
    (hstep : ∀ s c r s', step s c r s' → step' s c r s') : Run step' s tr t := by
  induction hrun with
  | start => exact Run.start
  | call _ hcall ih => exact ih.call (hstep _ _ _ _ hcall)

def Simulates (rel : σ → τ → Prop) (step : σ → κ → ρ → σ → Prop) (step' : τ → κ → ρ → τ → Prop) :
    Prop :=
  ∀ s m c r s', rel s m → step s c r s' → ∃ m', step' m c r m' ∧ rel s' m'

theorem Simulates.run {rel : σ → τ → Prop} (hsim : Simulates rel step step') (hrel : rel s m)
    (hrun : Run step s tr t) : ∃ m', Run step' m tr m' ∧ rel t m' := by
  induction hrun with
  | start => exact ⟨m, Run.start, hrel⟩
  | call _ hstep ih =>
    obtain ⟨m₁, hrun, hrel₁⟩ := ih
    obtain ⟨m₂, hstep', hrel₂⟩ := hsim _ _ _ _ _ hrel₁ hstep
    exact ⟨m₂, Run.call hrun hstep', hrel₂⟩

end ReduceOS.TraceRefinement
