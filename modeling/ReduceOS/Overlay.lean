import Mathlib.Data.List.Induction

/-!
Layers that are laid over each other: each covers some of the places with its value, and what is
seen at a place is the value of the last layer that covers it.
-/
namespace ReduceOS.Overlay

variable {σ α β : Type*} (covers : β → Bool) (value : β → α)

def top (layers : List β) : Option β := layers.reverse.find? covers

def seen (layers : List β) (under : α) : α := ((top covers layers).map value).getD under

@[simp] theorem seen_nil (under : α) : seen covers value [] under = under := rfl

theorem seen_concat (layers : List β) (r : β) (under : α) :
    seen covers value (layers ++ [r]) under =
      if covers r then value r else seen covers value layers under := by
  by_cases hr : covers r <;> simp [seen, top, hr]

/-- What is seen at a place, once each layer has been laid in turn. -/
theorem view_foldl (step : σ → β → σ) (view : σ → α)
    (hstep : ∀ s r, view (step s r) = if covers r then value r else view s)
    (layers : List β) (s : σ) :
    view (layers.foldl step s) = seen covers value layers (view s) := by
  induction layers using List.reverseRecOn with
  | nil => simp
  | append_singleton layers r ih =>
    rw [List.foldl_append, List.foldl_cons, List.foldl_nil, hstep, ih, seen_concat]

end ReduceOS.Overlay
