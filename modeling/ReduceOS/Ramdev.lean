import ReduceOS.Machine
import Mathlib.Data.Int.Notation
import Mathlib.Data.List.Basic
import Mathlib.Tactic.SplitIfs

/-!
Memory as a device. A request asks for a slice of it, from a signed offset on; the size is made
smaller where the slice ends behind the device, which is decided on unsigned words.
-/
namespace ReduceOS.Ramdev

open Machine

/-- The node of a ramdev: how long it is, and where its memory is. -/
structure Device where
  length : BitVec 64
  dev : Addr

structure Memcpy where
  dst : Addr
  src : Addr
  size : BitVec 64

section Source

def clampSize (length offset size : BitVec 64) : BitVec 64 :=
  if offset + size > length then length - offset else size

/-- `ramdev_read` and `ramdev_write`: what they return, and what they copy. -/
def ramdevCopy (node : Device) (offset size : BitVec 64) (buffer : Addr)
    (memcpy : Addr → Addr → BitVec 64 → Memcpy) : BitVec 64 × Option Memcpy :=
  if size = 0 ∨ buffer = null then (0, none)
  else if offset > node.length then (0, none)
  else
    let size := clampSize node.length offset size
    (size, some (memcpy buffer (node.dev + offset) size))

def ramdevRead (node : Device) (offset size : BitVec 64) (buffer : Addr) :
    BitVec 64 × Option Memcpy :=
  ramdevCopy node offset size buffer fun buffer dev size => ⟨buffer, dev, size⟩

def ramdevWrite (node : Device) (offset size : BitVec 64) (buffer : Addr) :
    BitVec 64 × Option Memcpy :=
  ramdevCopy node offset size buffer fun buffer dev size => ⟨dev, buffer, size⟩

end Source

def positions (start : ℤ) (n : ℕ) : List ℤ := (List.range n).map fun i : ℕ => start + i

def Memcpy.reads (node : Device) (copied : Memcpy) : List ℤ :=
  positions (copied.src - node.dev).toInt copied.size.toNat

def Memcpy.writes (node : Device) (copied : Memcpy) : List ℤ :=
  positions (copied.dst - node.dev).toInt copied.size.toNat

def available (length : ℕ) (offset : ℤ) (size : ℕ) : ℕ :=
  if 0 ≤ offset then min size (length - offset.toNat) else 0

/-- A request for a slice of a file that begins at `start` has the count and the bytes that there
are. -/
structure Sliced (length : ℕ) (offset : ℤ) (size : ℕ) (start : ℤ) (count : ℤ)
    (transferred : List ℤ) : Prop where
  nonneg : 0 ≤ count
  le : count ≤ max 0 (length - offset)
  eq : 0 ≤ offset → offset ≤ length → count = min (size : ℤ) (length - offset)
  bytes : transferred = positions (start + offset) count.toNat
  inside : ∀ p ∈ transferred, start ≤ p ∧ p < start + length

section Slices

variable {length size n m : ℕ} {offset start start' count : ℤ} {transferred : List ℤ}

theorem mem_positions {p : ℤ} : p ∈ positions start n ↔ start ≤ p ∧ p < start + n := by
  simp only [positions, List.mem_map, List.mem_range]
  constructor
  · rintro ⟨i, hi, rfl⟩
    omega
  · intro h
    exact ⟨(p - start).toNat, by omega, by omega⟩

@[simp] theorem length_positions (start : ℤ) (n : ℕ) : (positions start n).length = n := by
  simp [positions]

/-- Positions are told by where they begin and how many they are. -/
theorem positions_inj :
    positions start n = positions start' m ↔ n = m ∧ (n ≠ 0 → start = start') := by
  constructor
  · intro heq
    have hlength := congrArg List.length heq
    rw [length_positions, length_positions] at hlength
    refine ⟨hlength, fun hn => ?_⟩
    have hfirst : start ∈ positions start' m := heq ▸ mem_positions.mpr (by omega)
    have hfirst' : start' ∈ positions start n := heq ▸ mem_positions.mpr (by omega)
    rw [mem_positions] at hfirst hfirst'
    omega
  · rintro ⟨rfl, hstart⟩
    by_cases hn : n = 0
    · simp [hn, positions]
    · rw [hstart hn]

theorem sliced_iff : Sliced length offset size start count transferred ↔
    count = available length offset size ∧
      transferred = positions (start + offset) (available length offset size) := by
  constructor
  · intro h
    have hcount : count = available length offset size := by
      have hnonneg := h.nonneg
      have hle := h.le
      have heq := h.eq
      unfold available
      split_ifs with hoffset
      · omega
      · by_contra hne
        have hfirst : start + offset ∈ transferred := by
          rw [h.bytes, mem_positions]
          omega
        have hinside := h.inside _ hfirst
        omega
    exact ⟨hcount, by rw [h.bytes, hcount, Int.toNat_natCast]⟩
  · rintro ⟨rfl, rfl⟩
    refine ⟨by omega, ?_, fun _ _ => ?_, by rw [Int.toNat_natCast], fun p hp => ?_⟩
    · unfold available
      split_ifs <;> omega
    · unfold available
      split_ifs
      omega
    · rw [mem_positions] at hp
      unfold available at hp
      split_ifs at hp with hoffset <;> omega

end Slices

section Requests

variable {node : Device} {offset size : BitVec 64} {buffer : Addr}

def InRange (length offset size : BitVec 64) (buffer : Addr) : Prop :=
  size = 0 ∨ offset > length ∨
    (if buffer = null then available length.toNat offset.toInt size.toNat = 0
    else offset.toNat + size.toNat < 2 ^ 64 ∧ (0 ≤ offset.toInt ∨ offset = length) ∧
      available length.toNat offset.toInt size.toNat < 2 ^ 63)

/-- What is left of a size is what there is, unless the sum wraps around. -/
theorem clampSize_toNat (hoffset : offset ≤ node.length) :
    (clampSize node.length offset size).toNat =
      if offset.toNat + size.toNat < 2 ^ 64 then
        min size.toNat (node.length.toNat - offset.toNat)
      else size.toNat := by
  have hlength := node.length.isLt
  have hle := BitVec.le_def.mp hoffset
  unfold clampSize
  by_cases hwrap : offset.toNat + size.toNat < 2 ^ 64
  · have hsum : (offset + size).toNat = offset.toNat + size.toNat := BitVec.toNat_add_of_lt hwrap
    rw [if_pos hwrap]
    split_ifs with hlong
    · have hlt := BitVec.lt_def.mp hlong
      rw [BitVec.toNat_sub_of_le hoffset]
      omega
    · have hnot := mt BitVec.lt_def.mpr hlong
      omega
  · have hsum : (offset + size).toNat = offset.toNat + size.toNat - 2 ^ 64 := by
      rw [BitVec.toNat_add]
      omega
    have hshort : ¬ offset + size > node.length := by
      intro hlong
      have hlt := BitVec.lt_def.mp hlong
      have hsize := size.isLt
      omega
    rw [if_neg hwrap, if_neg hshort]

/-- What is copied is what is asked for, from the offset on. -/
theorem ramdevCopy_sliced_iff (memcpy : Addr → Addr → BitVec 64 → Memcpy)
    (touched : Memcpy → List ℤ)
    (htouched : ∀ size, touched (memcpy buffer (node.dev + offset) size) =
      positions offset.toInt size.toNat) :
    Sliced node.length.toNat offset.toInt size.toNat 0
        (ramdevCopy node offset size buffer memcpy).1.toInt
        ((ramdevCopy node offset size buffer memcpy).2.toList.flatMap touched) ↔
      InRange node.length offset size buffer := by
  have hint := BitVec.toInt_eq_toNat_cond offset
  have hlt := offset.isLt
  rw [sliced_iff]
  unfold ramdevCopy InRange
  by_cases hsize : size = 0
  · subst hsize
    simp [available, positions]
  · have hpos : size.toNat ≠ 0 := fun h => hsize (BitVec.eq_of_toNat_eq h)
    simp only [hsize, false_or]
    by_cases hbeyond : offset > node.length
    · have hout := BitVec.lt_def.mp hbeyond
      have hnone : available node.length.toNat offset.toInt size.toNat = 0 := by
        unfold available
        split_ifs <;> omega
      simp [hbeyond, hnone, positions]
    · have hle : offset ≤ node.length := BitVec.not_lt.mp hbeyond
      by_cases hnull : buffer = null
      · simp only [hnull, if_true, hbeyond, false_or]
        constructor
        · rintro ⟨hcount, -⟩
          have hzero : (0 : BitVec 64).toInt = 0 := rfl
          omega
        · intro hnone
          simp [hnone, positions]
      · have hlength := node.length.isLt
        have hle' := BitVec.le_def.mp hle
        have hclamp := @clampSize_toNat node offset size hle
        have hcount := BitVec.toInt_eq_toNat_cond (clampSize node.length offset size)
        have hend : offset = node.length ↔ offset.toNat = node.length.toNat :=
          BitVec.toNat_inj.symm
        simp only [hnull, if_false, hbeyond, false_or, Option.toList_some,
          List.flatMap_singleton, htouched, positions_inj, hend]
        unfold available
        split_ifs at hint hclamp hcount ⊢ <;> omega

/-- What is read or written is where the offset leads. -/
theorem memcpy_reads (dst : Addr) (size : BitVec 64) :
    Memcpy.reads node ⟨dst, node.dev + offset, size⟩ = positions offset.toInt size.toNat := by
  rw [Memcpy.reads, show node.dev + offset - node.dev = offset by grind]

theorem memcpy_writes (src : Addr) (size : BitVec 64) :
    Memcpy.writes node ⟨node.dev + offset, src, size⟩ = positions offset.toInt size.toNat := by
  rw [Memcpy.writes, show node.dev + offset - node.dev = offset by grind]

end Requests

end ReduceOS.Ramdev
