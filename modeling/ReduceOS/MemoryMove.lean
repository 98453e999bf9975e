import ReduceOS.Machine
import ReduceOS.AddressRange
import Mathlib.Tactic.SplitIfs

/-!
`memmove` and `memset`. Which end the copy of `memmove` begins at is decided by the addresses alone;
from that end no byte is overwritten before it is read.
-/
namespace ReduceOS.MemoryMove

open Machine AddressRange

abbrev Memory := Addr → BitVec 8

section Source

def store (mem : Memory) (a : Addr) (c : BitVec 8) : Memory := Function.update mem a c

def copyForward (destination source : Addr) (mem : Memory) : ℕ → Memory
  | 0 => mem
  | i + 1 =>
    let mem := copyForward destination source mem i
    store mem (destination + BitVec.ofNat 64 i) (mem (source + BitVec.ofNat 64 i))

def copyReverse (destination source : Addr) : ℕ → Memory → Memory
  | 0, mem => mem
  | i + 1, mem =>
    copyReverse destination source i
      (store mem (destination + BitVec.ofNat 64 i) (mem (source + BitVec.ofNat 64 i)))

def memmove (mem : Memory) (destination source : Addr) (size : BitVec 64) : Memory × Addr :=
  if destination < source then (copyForward destination source mem size.toNat, destination)
  else (copyReverse destination source size.toNat mem, destination)

def memsetLoop (destination : Addr) (value : BitVec 8) (mem : Memory) : ℕ → Memory
  | 0 => mem
  | i + 1 => store (memsetLoop destination value mem i) (destination + BitVec.ofNat 64 i) value

def memset (mem : Memory) (destination : Addr) (value : BitVec 8) (size : BitVec 64) : Memory :=
  memsetLoop destination value mem size.toNat

end Source

structure Move where
  destination : Addr
  source : Addr
  size : BitVec 64
  destinationFits : destination.toNat + size.toNat ≤ 2 ^ 64
  sourceFits : source.toNat + size.toNat ≤ 2 ^ 64

namespace Move

variable (m : Move)

def target : Range 64 := ⟨m.destination, m.size.toNat, m.destinationFits⟩

def origin : Range 64 := ⟨m.source, m.size.toNat, m.sourceFits⟩

/-- The bytes of the destination from `low` up to `high` are those that the source held, and all
others are as they were. -/
structure Copied (mem mem' : Memory) (low high : ℕ) : Prop where
  copied : ∀ i, low ≤ i → i < high → mem' (m.target.place i) = mem (m.origin.place i)
  kept : ∀ a, (∀ i, low ≤ i → i < high → a ≠ m.target.place i) → mem' a = mem a

end Move

section Copies

variable {m : Move} {mem mem' : Memory} {low high i n : ℕ}

/-- A byte of the source that is as it was comes next. -/
theorem Move.Copied.store (h : m.Copied mem mem' low high) (hhigh : high ≤ m.size.toNat)
    (hi : i < m.size.toNat) (hnext : i = high ∨ i + 1 = low)
    (hread : ∀ j, low ≤ j → j < high → m.origin.place i ≠ m.target.place j) :
    m.Copied mem (store mem' (m.target.place i) (mem' (m.origin.place i))) (min i low)
      (max (i + 1) high) where
  copied j hlowj hhighj := by
    have hj : j < m.size.toNat := by omega
    rw [MemoryMove.store, update_place (r := m.target) hi hj]
    split_ifs with hji
    · rw [hji, h.kept _ hread]
    · exact h.copied j (by omega) (by omega)
  kept a ha := by
    have hne : a ≠ m.target.place i := ha i (by omega) (by omega)
    rw [MemoryMove.store, Function.update_of_ne hne]
    exact h.kept a fun j hlowj hhighj => ha j (by omega) (by omega)

theorem copied_nothing (m : Move) (mem : Memory) (n : ℕ) : m.Copied mem mem n n where
  copied _ hlow hhigh := absurd hhigh (Nat.not_lt.mpr hlow)
  kept _ _ := rfl

/-- Where the destination begins below the source, no byte of this is written before it is read
from the front. -/
theorem copied_forward (hbelow : m.destination < m.source) (hn : n ≤ m.size.toNat) :
    m.Copied mem (copyForward m.destination m.source mem n) 0 n := by
  induction n with
  | zero => exact copied_nothing m mem 0
  | succ n ih =>
    have hread : ∀ j, 0 ≤ j → j < n → m.origin.place n ≠ m.target.place j := by
      intro j _ hj heq
      have hsource := Range.toNat_place (r := m.origin) (i := n) hn
      have htarget := Range.toNat_place (r := m.target) (i := j) (hj.trans hn)
      have hlt : m.destination.toNat < m.source.toNat := hbelow
      rw [heq, htarget] at hsource
      simp only [Move.target, Move.origin] at hsource
      omega
    have hstep : m.Copied mem (copyForward m.destination m.source mem (n + 1)) (min n 0)
        (max (n + 1) n) := (ih (by omega)).store (by omega) hn (Or.inl rfl) hread
    rwa [Nat.min_zero, Nat.max_eq_left (Nat.le_succ n)] at hstep

theorem copied_reverse (habove : ¬ m.destination < m.source) (hn : n ≤ m.size.toNat)
    (h : m.Copied mem mem' n m.size.toNat) :
    m.Copied mem (copyReverse m.destination m.source n mem') 0 m.size.toNat := by
  induction n generalizing mem' with
  | zero => exact h
  | succ n ih =>
    have hread : ∀ j, n + 1 ≤ j → j < m.size.toNat → m.origin.place n ≠ m.target.place j := by
      intro j hlow hj heq
      have hsource := Range.toNat_place (r := m.origin) (i := n) hn
      have htarget := Range.toNat_place (r := m.target) (i := j) hj
      have hle : m.source.toNat ≤ m.destination.toNat := Nat.le_of_not_lt habove
      rw [heq, htarget] at hsource
      simp only [Move.target, Move.origin] at hsource
      omega
    have hstep : m.Copied mem (store mem' (m.target.place n) (mem' (m.origin.place n)))
        (min n (n + 1)) (max (n + 1) m.size.toNat) :=
      h.store (Nat.le_refl _) hn (Or.inr rfl) hread
    rw [Nat.min_eq_left (Nat.le_succ n), Nat.max_eq_right hn] at hstep
    exact ih (by omega) hstep

theorem copied_memmove (m : Move) (mem : Memory) :
    m.Copied mem (memmove mem m.destination m.source m.size).1 0 m.size.toNat := by
  unfold memmove
  split_ifs with hbelow
  · exact copied_forward hbelow (Nat.le_refl _)
  · exact copied_reverse hbelow (Nat.le_refl _) (copied_nothing m mem _)

/-- After `memmove` the destination holds what the source held, however they overlap, and
everything else is as it was. -/
theorem memmove_moves (m : Move) (mem : Memory) :
    m.target.cells (memmove mem m.destination m.source m.size).1 = m.origin.cells mem ∧
      (∀ a, ¬ m.target.Has a → (memmove mem m.destination m.source m.size).1 a = mem a) ∧
      (memmove mem m.destination m.source m.size).2 = m.destination := by
  have hcopied := copied_memmove m mem
  refine ⟨?_, ?_, ?_⟩
  · have hsize : m.target.size = m.origin.size := rfl
    exact (Range.cells_eq_cells_iff hsize).mpr fun i hi => hcopied.copied i (Nat.zero_le i) hi
  · intro a ha
    refine hcopied.kept a fun i _ hi heq => ha ?_
    rw [heq]
    exact Range.has_place hi
  · unfold memmove
    split_ifs <;> rfl

end Copies

section Fill

variable {r : Range 64} {a : Addr} {n : ℕ} (value : BitVec 8) (mem : Memory)

/-- `memset` leaves what is outside of the range. -/
theorem memsetLoop_of_not_has (hn : n ≤ r.size) (ha : ¬ r.Has a) :
    memsetLoop r.base value mem n a = mem a := by
  induction n with
  | zero => rfl
  | succ n ih =>
    have hstore : memsetLoop r.base value mem (n + 1) =
        Function.update (memsetLoop r.base value mem n) (r.place n) value := rfl
    rw [hstore, update_of_not_has hn ha, ih (by omega)]

end Fill

end ReduceOS.MemoryMove
