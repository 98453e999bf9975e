import Mathlib.Data.List.Basic
import Mathlib.Data.List.Nodup
import Mathlib.Data.List.Perm.Subperm

/-!
Names in an order that puts the first of each pair before the second. Such an order exists only
if no set of the names is stuck, with every name of it waiting for one that comes no earlier.
-/
namespace ReduceOS.Precedence

variable {α : Type*}

def Respects (pairs : List (α × α)) (l : List α) : Prop :=
  ∀ e ∈ pairs, [e.1, e.2].Sublist l

/-- All the names, each as often as it is given, in an order that respects the pairs. -/
structure Arrangement (names : List α) (pairs : List (α × α)) (l : List α) : Prop where
  perm : l.Perm names
  respects : Respects pairs l

theorem pair_sublist_append {a b : α} {l m : List α} (ha : a ∈ l) (hb : b ∈ m) :
    [a, b].Sublist (l ++ m) :=
  (List.singleton_sublist.2 ha).append (List.singleton_sublist.2 hb)

theorem snd_mem_of_pair_sublist {a b : α} {l : List α} (h : [a, b].Sublist l) : b ∈ l :=
  h.subset (List.mem_cons_of_mem _ (List.mem_cons_self ..))

theorem pair_sublist_of_sublist {a b : α} {l m : List α} (hnodup : l.Nodup) (hsub : m.Sublist l)
    (h : [a, b].Sublist l) (ha : a ∈ m) (hb : b ∈ m) : [a, b].Sublist m := by
  induction hsub with
  | slnil => simp at ha
  | @cons m l x hsub ih =>
    obtain ⟨hx, hnodup⟩ := List.nodup_cons.1 hnodup
    rcases List.sublist_cons_iff.1 h with h | ⟨r, hr, -⟩
    · exact ih hnodup h ha hb
    · obtain ⟨rfl, -⟩ := List.cons.inj hr
      exact absurd (hsub.subset ha) hx
  | @cons_cons m l x hsub ih =>
    obtain ⟨hx, hnodup⟩ := List.nodup_cons.1 hnodup
    rcases List.sublist_cons_iff.1 h with h | ⟨r, hr, h⟩
    · have hne : ∀ y ∈ [a, b], y ≠ x := fun y hy hyx => hx (hyx ▸ h.subset hy)
      exact (ih hnodup h (List.mem_of_ne_of_mem (hne a (by simp)) ha)
        (List.mem_of_ne_of_mem (hne b (by simp)) hb)).cons x
    · obtain ⟨rfl, rfl⟩ := List.cons.inj hr
      have hbl : b ≠ a := fun hba => hx (hba ▸ List.singleton_sublist.1 h)
      exact (List.singleton_sublist.2 (List.mem_of_ne_of_mem hbl hb)).cons_cons a

/-- A name without duplicates that comes before another is in any prefix that ends there. -/
theorem fst_mem_take {a b : α} {front rest : List α} (hnodup : (front ++ b :: rest).Nodup)
    (h : [a, b].Sublist (front ++ b :: rest)) : a ∈ front := by
  obtain ⟨l₁, l₂, heq, h₁, h₂⟩ := List.sublist_append_iff.1 h
  have hb : b ∉ front := fun hmem =>
    (List.nodup_append.1 hnodup).2.2 b hmem b (List.mem_cons_self ..) rfl
  have hrest : b ∉ rest := (List.nodup_cons.1 (List.nodup_append.1 hnodup).2.1).1
  match l₁, l₂, heq with
  | [], l₂, heq =>
    obtain rfl : [a, b] = l₂ := heq
    rcases List.sublist_cons_iff.1 h₂ with hsub | ⟨r, hr, hsub⟩
    · exact absurd (snd_mem_of_pair_sublist hsub) hrest
    · obtain ⟨rfl, rfl⟩ := List.cons.inj hr
      exact absurd (List.singleton_sublist.1 hsub) hrest
  | x :: l₁, l₂, heq =>
    obtain ⟨rfl, -⟩ := List.cons.inj heq
    exact h₁.subset (List.mem_cons_self ..)

/-- The earliest of a set of the names that all wait for one another, or for a name that is not
there, cannot be placed. -/
theorem no_arrangement {names : List α} {pairs : List (α × α)} {R : α → Prop}
    (hnodup : names.Nodup) (hsome : ∃ r ∈ names, R r)
    (hstuck : ∀ r ∈ names, R r → ∃ a, (a, r) ∈ pairs ∧ (a ∈ names → R a)) (l : List α) :
    ¬ Arrangement names pairs l := by
  classical
  intro ⟨hperm, hrespects⟩
  obtain ⟨r₀, hr₀, hR₀⟩ := hsome
  have hl : l.Nodup := hperm.nodup_iff.2 hnodup
  obtain ⟨r, front, rest, hfront, hRr, rfl⟩ :
      ∃ r front rest, (∀ a ∈ front, ¬ R a) ∧ R r ∧ l = front ++ r :: rest := by
    have hsome' : ∃ x ∈ l, decide (R x) = true := ⟨r₀, hperm.mem_iff.2 hr₀, by simpa using hR₀⟩
    obtain ⟨r, hr⟩ := Option.isSome_iff_exists.1 (List.find?_isSome.2 hsome')
    obtain ⟨hRr, front, rest, rfl, hfront⟩ := List.find?_eq_some_iff_append.1 hr
    exact ⟨r, front, rest, fun a ha => by simpa using hfront a ha, by simpa using hRr, rfl⟩
  have hmem : r ∈ names := hperm.mem_iff.1 (by simp)
  obtain ⟨a, hpair, hwait⟩ := hstuck r hmem hRr
  have ha : a ∈ front := fst_mem_take hl (hrespects _ hpair)
  exact hfront a ha (hwait (hperm.mem_iff.1 (by simp [ha])))

end ReduceOS.Precedence
