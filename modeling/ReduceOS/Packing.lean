import Mathlib.Algebra.GroupWithZero.Nat
import Mathlib.Algebra.Order.BigOperators.Group.List
import Mathlib.Data.List.Pairwise

/-!
Intervals packed between two bounds. They are given in order and do not overlap, so an interval
goes in wherever there is room for it between two neighbours, and the others stay as they are when
one of them is taken out. The first fit is the gap furthest to the left that has the room.
-/
namespace ReduceOS.Packing

variable {α : Type} {start stop : α → ℕ} {lo hi n : ℕ} {l xs ys : List α} {a b : α}

def Packed (start stop : α → ℕ) (hi : ℕ) : ℕ → List α → Prop
  | lo, [] => lo ≤ hi
  | lo, a :: l => lo ≤ start a ∧ start a ≤ stop a ∧ Packed start stop hi (stop a) l

def endOf (stop : α → ℕ) : ℕ → List α → ℕ
  | lo, [] => lo
  | _, a :: l => endOf stop (stop a) l

def headStart (start : α → ℕ) (hi : ℕ) : List α → ℕ
  | [] => hi
  | a :: _ => start a

def taken (start stop : α → ℕ) (l : List α) : ℕ := (l.map fun a => stop a - start a).sum

def Fits (start stop : α → ℕ) (lo hi n : ℕ) (l : List α) : Prop :=
  ∃ xs ys, l = xs ++ ys ∧ endOf stop lo xs + n ≤ headStart start hi ys

@[simp]
theorem endOf_nil : endOf stop lo [] = lo := rfl

@[simp]
theorem headStart_nil : headStart start hi [] = hi := rfl

@[simp]
theorem headStart_cons : headStart start hi (a :: l) = start a := rfl

@[simp]
theorem taken_cons : taken start stop (a :: l) = stop a - start a + taken start stop l := by
  simp [taken]

@[simp]
theorem taken_append : taken start stop (xs ++ ys) = taken start stop xs + taken start stop ys := by
  simp [taken]

theorem endOf_append_cons : endOf stop lo (xs ++ [a]) = stop a := by
  induction xs generalizing lo with
  | nil => rfl
  | cons x xs ih => exact ih

theorem Packed.append_iff :
    Packed start stop hi lo (xs ++ ys) ↔
      Packed start stop (endOf stop lo xs) lo xs ∧ Packed start stop hi (endOf stop lo xs) ys := by
  induction xs generalizing lo with
  | nil => exact ⟨fun h => ⟨Nat.le_refl lo, h⟩, fun h => h.2⟩
  | cons x xs ih =>
    constructor
    · rintro ⟨hlo, hx, hrest⟩
      obtain ⟨hxs, hys⟩ := ih.mp hrest
      exact ⟨⟨hlo, hx, hxs⟩, hys⟩
    · rintro ⟨⟨hlo, hx, hxs⟩, hys⟩
      exact ⟨hlo, hx, ih.mpr ⟨hxs, hys⟩⟩

theorem Packed.le (h : Packed start stop hi lo l) : lo ≤ hi := by
  induction l generalizing lo with
  | nil => exact h
  | cons a l ih => exact (h.1.trans h.2.1).trans (ih h.2.2)

/-- Nothing but the room up to the first interval is asked of the lower bound. -/
theorem Packed.headStart (h : Packed start stop hi lo l) :
    lo ≤ headStart start hi l ∧ Packed start stop hi (Packing.headStart start hi l) l := by
  cases l with
  | nil => exact ⟨h, Nat.le_refl hi⟩
  | cons a l => exact ⟨h.1, Nat.le_refl _, h.2⟩

theorem Packed.lower (h : Packed start stop hi lo l) {lo' : ℕ}
    (hlo : lo' ≤ Packing.headStart start hi l) :
    Packed start stop hi lo' l := by
  cases l with
  | nil => exact hlo
  | cons a l => exact ⟨hlo, h.2⟩

theorem Packed.insert (h : Packed start stop hi lo (xs ++ ys)) (hlo : endOf stop lo xs ≤ start a)
    (ha : start a ≤ stop a) (hhi : stop a ≤ Packing.headStart start hi ys) :
    Packed start stop hi lo (xs ++ a :: ys) := by
  obtain ⟨hxs, hys⟩ := Packed.append_iff.mp h
  exact Packed.append_iff.mpr ⟨hxs, hlo, ha, hys.lower hhi⟩

theorem Packed.erase (h : Packed start stop hi lo (xs ++ a :: ys)) :
    Packed start stop hi lo (xs ++ ys) := by
  obtain ⟨hxs, hlo, ha, hys⟩ := Packed.append_iff.mp h
  have hroom := hys.headStart.1
  exact Packed.append_iff.mpr ⟨hxs, hys.lower (hlo.trans (ha.trans hroom))⟩

theorem Packed.bounds (h : Packed start stop hi lo l) (ha : a ∈ l) :
    lo ≤ start a ∧ start a ≤ stop a ∧ stop a ≤ hi := by
  induction l generalizing lo with
  | nil => exact absurd ha List.not_mem_nil
  | cons b l ih =>
    rcases List.mem_cons.mp ha with rfl | hmem
    · exact ⟨h.1, h.2.1, h.2.2.le⟩
    · obtain ⟨hb, hrest⟩ := ih h.2.2 hmem
      exact ⟨(h.1.trans h.2.1).trans hb, hrest⟩

/-- Of two intervals one ends before the other starts. -/
theorem Packed.pairwise (h : Packed start stop hi lo l) :
    l.Pairwise fun a b => stop a ≤ start b := by
  induction l generalizing lo with
  | nil => exact List.Pairwise.nil
  | cons a l ih =>
    exact List.pairwise_cons.mpr ⟨fun b hb => (h.2.2.bounds hb).1, ih h.2.2⟩

theorem Packed.apart (h : Packed start stop hi lo (xs ++ a :: ys)) (hb : b ∈ xs ++ ys) :
    stop b ≤ start a ∨ stop a ≤ start b := by
  obtain ⟨-, hrest, hacross⟩ := List.pairwise_append.mp h.pairwise
  rcases List.mem_append.mp hb with hxs | hys
  · exact Or.inl (hacross b hxs a List.mem_cons_self)
  · exact Or.inr ((List.pairwise_cons.mp hrest).1 b hys)

theorem Packed.taken_le (h : Packed start stop hi lo l) : lo + taken start stop l ≤ hi := by
  induction l generalizing lo with
  | nil => exact h
  | cons a l ih =>
    have hrest := ih h.2.2
    have hlo := h.1
    have ha := h.2.1
    rw [taken_cons]
    omega

/-- What is taken and a gap have room in the bounds together. -/
theorem Packed.taken_add_le (h : Packed start stop hi lo l) (hfits : Fits start stop lo hi n l) :
    lo + taken start stop l + n ≤ hi := by
  obtain ⟨xs, ys, rfl, hroom⟩ := hfits
  obtain ⟨hxs, hys⟩ := Packed.append_iff.mp h
  have hleft := hxs.taken_le
  have hright := hys.headStart.2.taken_le
  rw [taken_append]
  omega

def Passed (start stop : α → ℕ) (lo hi n : ℕ) (l : List α) (k : ℕ) : Prop :=
  ∀ xs ys, l = xs ++ ys → xs.length ≤ k → headStart start hi ys < endOf stop lo xs + n

def IsFirstFit (start stop : α → ℕ) (lo hi n : ℕ) (xs ys : List α) : Prop :=
  endOf stop lo xs + n ≤ headStart start hi ys ∧
    ∀ k < xs.length, Passed start stop lo hi n (xs ++ ys) k

theorem Passed.zero (h : headStart start hi l < lo + n) : Passed start stop lo hi n l 0 := by
  intro xs ys hsplit hlength
  have hnil : xs = [] := List.length_eq_zero_iff.mp (Nat.le_zero.mp hlength)
  subst hnil
  rw [List.nil_append] at hsplit
  rwa [← hsplit]

theorem Passed.succ (h : Passed start stop lo hi n (xs ++ a :: ys) xs.length)
    (hgap : headStart start hi ys < stop a + n) :
    Passed start stop lo hi n (xs ++ a :: ys) (xs.length + 1) := by
  intro zs ws hsplit hlength
  rcases Nat.le_or_eq_of_le_succ hlength with hle | heq
  · exact h zs ws hsplit hle
  · rw [List.append_cons] at hsplit
    obtain ⟨rfl, rfl⟩ := List.append_inj hsplit (by simpa using heq.symm)
    rwa [endOf_append_cons]

theorem Passed.mono {k m : ℕ} (h : Passed start stop lo hi n l k) (hm : m ≤ k) :
    Passed start stop lo hi n l m := fun xs ys hsplit hlength => h xs ys hsplit (hlength.trans hm)

theorem Passed.not_fits (h : Passed start stop lo hi n l l.length) :
    ¬ Fits start stop lo hi n l := by
  rintro ⟨xs, ys, rfl, hroom⟩
  have hshort := h xs ys rfl (by simp)
  omega

/-- Behind the gaps that were passed the next one that has the room is the first. -/
theorem Passed.isFirstFit (h : Passed start stop lo hi n (xs ++ a :: ys) xs.length)
    (hgap : stop a + n ≤ headStart start hi ys) :
    IsFirstFit start stop lo hi n (xs ++ [a]) ys := by
  refine ⟨by rwa [endOf_append_cons], fun k hk => ?_⟩
  rw [List.append_assoc]
  refine h.mono ?_
  rw [List.length_append, List.length_singleton] at hk
  omega

theorem IsFirstFit.head (h : lo + n ≤ headStart start hi l) :
    IsFirstFit start stop lo hi n [] l :=
  ⟨h, fun k hk => absurd hk (Nat.not_lt_zero k)⟩

theorem IsFirstFit.fits (h : IsFirstFit start stop lo hi n xs ys) :
    Fits start stop lo hi n (xs ++ ys) := ⟨xs, ys, rfl, h.1⟩

end ReduceOS.Packing
