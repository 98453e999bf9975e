import Mathlib.Data.List.Basic
import Mathlib.Logic.Function.Basic

/-!
Positions of a ring of slots. Between a position that is read and one that is written
lie the slots in use, and no slot is in use where the two are the same: a ring of `n`
slots has room for `n - 1` entries.
-/
namespace ReduceOS.RingIndex

variable {n : ℕ} {α : Type*}

def next (i : Fin n) : Fin n :=
  if h : i.val + 1 < n then ⟨i.val + 1, h⟩ else ⟨0, by omega⟩

def distance (i j : Fin n) : ℕ :=
  if i.val ≤ j.val then j.val - i.val else n - i.val + j.val

theorem next_val (i : Fin n) : (next i).val = if i.val + 1 < n then i.val + 1 else 0 := by
  unfold next
  split <;> rfl

@[simp] theorem distance_self (i : Fin n) : distance i i = 0 := by
  simp [distance]

theorem distance_lt (i j : Fin n) : distance i j < n := by
  unfold distance
  split <;> omega

theorem distance_eq_zero_iff (i j : Fin n) : distance i j = 0 ↔ i = j := by
  constructor
  · intro h
    unfold distance at h
    split at h <;> omega
  · rintro rfl
    exact distance_self i

theorem distance_next_right (i j : Fin n) (h : distance i j + 1 < n) :
    distance i (next j) = distance i j + 1 := by
  have hnext := next_val j
  unfold distance at h ⊢
  split at hnext <;> split at h <;> split <;> omega

/-- One more entry than there is room for, and the ring is empty. -/
theorem next_eq_of_full (i j : Fin n) (h : distance i j + 1 = n) : next j = i := by
  have hnext := next_val j
  unfold distance at h
  split at hnext <;> split at h <;> omega

theorem distance_next_left (i j : Fin n) (h : i ≠ j) :
    distance i j = distance (next i) j + 1 := by
  have hnext := next_val i
  have hval : i.val ≠ j.val := fun heq => h (Fin.ext heq)
  unfold distance
  split at hnext <;> split <;> split <;> omega

def segment (slots : Fin n → α) (i : Fin n) : ℕ → List α
  | 0 => []
  | k + 1 => slots i :: segment slots (next i) k

@[simp] theorem segment_length (slots : Fin n → α) (i : Fin n) (k : ℕ) :
    (segment slots i k).length = k := by
  induction k generalizing i with
  | zero => rfl
  | succ k ih => simp [segment, ih]

theorem segment_update (slots : Fin n → α) (i j : Fin n) (v : α) (k : ℕ)
    (hk : k ≤ distance i j) : segment (Function.update slots j v) i k = segment slots i k := by
  induction k generalizing i with
  | zero => rfl
  | succ k ih =>
    have hne : i ≠ j := by
      intro h
      simp [(distance_eq_zero_iff i j).mpr h] at hk
    have hstep := distance_next_left i j hne
    simp [segment, Function.update_of_ne hne, ih (next i) (by omega)]

theorem segment_snoc (slots : Fin n → α) (i j : Fin n) (k : ℕ) (hk : distance i j = k) :
    segment slots i (k + 1) = segment slots i k ++ [slots j] := by
  induction k generalizing i with
  | zero => simp [segment, (distance_eq_zero_iff i j).mp hk]
  | succ k ih =>
    have hne : i ≠ j := by
      rintro rfl
      simp at hk
    have hstep := distance_next_left i j hne
    have hrest := ih (next i) (by omega)
    rw [segment, hrest]
    simp [segment]

def pending (slots : Fin n → α) (i j : Fin n) : List α := segment slots i (distance i j)

@[simp] theorem pending_length (slots : Fin n → α) (i j : Fin n) :
    (pending slots i j).length = distance i j :=
  segment_length slots i _

@[simp] theorem pending_self (slots : Fin n → α) (i : Fin n) : pending slots i i = [] := by
  simp [pending, segment]

/-- With room for it, an entry is added behind the others. -/
theorem pending_push (slots : Fin n → α) (i j : Fin n) (v : α)
    (hroom : distance i j + 1 < n) :
    pending (Function.update slots j v) i (next j) = pending slots i j ++ [v] := by
  unfold pending
  rw [distance_next_right i j hroom, segment_snoc _ i j _ rfl,
    segment_update slots i j v _ (Nat.le_refl _), Function.update_self]

theorem pending_pop (slots : Fin n → α) (i j : Fin n) (h : i ≠ j) :
    pending slots i j = slots i :: pending slots (next i) j := by
  unfold pending
  rw [distance_next_left i j h, segment]

end ReduceOS.RingIndex
