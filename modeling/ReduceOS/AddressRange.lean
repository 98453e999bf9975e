import Mathlib.Data.Nat.Notation
import Mathlib.Data.BitVec
import Mathlib.Logic.Function.Basic

/-!
Ranges of addresses. Memory is a function from words to cells, and a range is some cells one
behind the other, of which none lies behind the end of the address space.
-/
namespace ReduceOS.AddressRange

variable {w : ℕ} {α : Type}

structure Range (w : ℕ) where
  base : BitVec w
  size : ℕ
  fits : base.toNat + size ≤ 2 ^ w

namespace Range

variable (r : Range w) {i j : ℕ} {a : BitVec w}

def place (i : ℕ) : BitVec w := r.base + BitVec.ofNat w i

def Has (a : BitVec w) : Prop := r.base.toNat ≤ a.toNat ∧ a.toNat < r.base.toNat + r.size

instance : Decidable (r.Has a) := inferInstanceAs (Decidable (_ ∧ _))

def cells (mem : BitVec w → α) : List α := (List.range r.size).map fun i => mem (r.place i)

variable {r}

theorem toNat_place (hi : i < r.size) : (r.place i).toNat = r.base.toNat + i := by
  have hfits := r.fits
  rw [place, BitVec.toNat_add, BitVec.toNat_ofNat, Nat.add_mod_mod]
  exact Nat.mod_eq_of_lt (by omega)

theorem has_place (hi : i < r.size) : r.Has (r.place i) := by
  rw [Has, toNat_place hi]
  omega

theorem place_eq_place_iff (hi : i < r.size) (hj : j < r.size) :
    r.place i = r.place j ↔ i = j := by
  rw [← BitVec.toNat_inj, toNat_place hi, toNat_place hj]
  omega

theorem cells_eq_cells_iff {mem mem' : BitVec w → α} {r' : Range w} (hsize : r.size = r'.size) :
    r.cells mem = r'.cells mem' ↔ ∀ i < r.size, mem (r.place i) = mem' (r'.place i) := by
  rw [cells, cells, hsize]
  constructor
  · intro h i hi
    simpa [hi] using congrArg (·[i]?) h
  · exact fun h => List.map_congr_left fun i hi => h i (List.mem_range.mp hi)

end Range

section Stores

variable {r : Range w} {mem : BitVec w → α} {i j : ℕ} {c : α} {a : BitVec w}

theorem update_place (hi : i < r.size) (hj : j < r.size) :
    Function.update mem (r.place i) c (r.place j) = if j = i then c else mem (r.place j) := by
  rw [Function.update_apply]
  simp only [Range.place_eq_place_iff hj hi]

theorem update_of_not_has (hi : i < r.size) (ha : ¬ r.Has a) :
    Function.update mem (r.place i) c a = mem a := by
  refine Function.update_of_ne ?_ _ _
  rintro rfl
  exact ha (Range.has_place hi)

end Stores

end ReduceOS.AddressRange
