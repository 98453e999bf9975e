import Mathlib.Data.List.Basic
import Mathlib.Data.List.Lex
import Mathlib.Order.Lattice

/-!
Where two words differ first. Behind its end a word goes on with a letter below all others, and so
the letters at that place decide which word comes first in the lexicographic order.
-/
namespace ReduceOS.FirstDifference

variable {α : Type} {e : α} {x y : List α} {k l n : ℕ}

/-- The words have the same first `k` letters, and another one there. -/
def FirstDiffers (e : α) (x y : List α) (k : ℕ) : Prop :=
  x.take k = y.take k ∧ x.getD k e ≠ y.getD k e

theorem FirstDiffers.symm (h : FirstDiffers e x y k) : FirstDiffers e y x k :=
  ⟨h.1.symm, h.2.symm⟩

theorem FirstDiffers.ne (h : FirstDiffers e x y k) : x ≠ y := by
  rintro rfl
  exact h.2 rfl

theorem firstDiffers_cons_iff {a : α} :
    FirstDiffers e (a :: x) (a :: y) (k + 1) ↔ FirstDiffers e x y k := by
  simp [FirstDiffers]

theorem FirstDiffers.zero {a b : α} (h : a ≠ b) : FirstDiffers e (a :: x) (b :: y) 0 := ⟨rfl, h⟩

/-- Words with different first letters differ first there. -/
theorem firstDiffers_cons_of_ne {a b : α} (h : a ≠ b) :
    FirstDiffers e (a :: x) (b :: y) k ↔ k = 0 := by
  constructor
  · rintro ⟨htake, -⟩
    cases k with
    | zero => rfl
    | succ k =>
      rw [List.take_succ_cons, List.take_succ_cons] at htake
      exact absurd (List.cons.inj htake).1 h
  · rintro rfl
    exact .zero h

theorem not_firstDiffers_nil : ¬ FirstDiffers e ([] : List α) [] k := fun h => h.ne rfl

theorem firstDiffers_nil_cons {b : α} (hb : e ≠ b) : FirstDiffers e [] (b :: y) k ↔ k = 0 := by
  constructor
  · rintro ⟨htake, -⟩
    cases k with
    | zero => rfl
    | succ k => exact absurd htake (by simp)
  · rintro rfl
    exact ⟨rfl, hb⟩

/-- What is taken of the words differs first at the same place, if that is in it. -/
theorem FirstDiffers.take (h : FirstDiffers e x y k) (hk : k < n) :
    FirstDiffers e (x.take n) (y.take n) k := by
  obtain ⟨htake, hne⟩ := h
  refine ⟨?_, ?_⟩
  · rw [List.take_take, List.take_take, Nat.min_eq_left hk.le, htake]
  · simpa [List.getD_eq_getElem?_getD, List.getElem?_take, hk] using hne

theorem FirstDiffers.take_eq (h : FirstDiffers e x y k) (hk : n ≤ k) : x.take n = y.take n := by
  have htake := congrArg (List.take n) h.1
  rwa [List.take_take, List.take_take, Nat.min_eq_left hk] at htake

theorem FirstDiffers.unique (h : FirstDiffers e x y k) (h' : FirstDiffers e x y l) : k = l := by
  by_contra hne
  obtain hlt | hlt := Nat.lt_or_gt_of_ne hne
  · exact (h.take hlt).ne h'.1
  · exact (h'.take hlt).ne h.1

section Order

variable [LinearOrder α]

theorem exists_firstDiffers (hx : ∀ a ∈ x, e < a) (hy : ∀ b ∈ y, e < b) (hne : x ≠ y) :
    ∃ k, FirstDiffers e x y k := by
  induction x generalizing y with
  | nil =>
    cases y with
    | nil => exact absurd rfl hne
    | cons b y => exact ⟨0, rfl, (hy b List.mem_cons_self).ne⟩
  | cons a x ih =>
    cases y with
    | nil => exact ⟨0, rfl, (hx a List.mem_cons_self).ne'⟩
    | cons b y =>
      by_cases hab : a = b
      · subst hab
        have hrest : x ≠ y := fun h => hne (congrArg (a :: ·) h)
        obtain ⟨k, hk⟩ := ih (fun c hc => hx c (List.mem_cons_of_mem _ hc))
          (fun c hc => hy c (List.mem_cons_of_mem _ hc)) hrest
        exact ⟨k + 1, firstDiffers_cons_iff.mpr hk⟩
      · exact ⟨0, .zero hab⟩

theorem FirstDiffers.lt_iff (h : FirstDiffers e x y k) (hx : ∀ a ∈ x, e < a) (hy : ∀ b ∈ y, e < b) :
    x < y ↔ x.getD k e < y.getD k e := by
  induction x generalizing y k with
  | nil =>
    cases y with
    | nil => exact absurd h not_firstDiffers_nil
    | cons b y =>
      have hb := hy b List.mem_cons_self
      obtain rfl := (firstDiffers_nil_cons hb.ne).mp h
      exact iff_of_true (List.nil_lt_cons b y) hb
  | cons a x ih =>
    cases y with
    | nil =>
      have ha := hx a List.mem_cons_self
      obtain rfl := (firstDiffers_nil_cons ha.ne).mp h.symm
      exact iff_of_false (List.not_lt_nil _) ha.not_gt
    | cons b y =>
      by_cases hab : a = b
      · subst hab
        cases k with
        | zero => exact absurd rfl h.2
        | succ k =>
          rw [List.cons_lt_cons_iff, ih (firstDiffers_cons_iff.mp h)
            (fun c hc => hx c (List.mem_cons_of_mem _ hc))
            (fun c hc => hy c (List.mem_cons_of_mem _ hc))]
          simp
      · obtain rfl := (firstDiffers_cons_of_ne hab).mp h
        rw [List.cons_lt_cons_iff]
        simp [hab]

end Order

end ReduceOS.FirstDifference
