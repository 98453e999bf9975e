import ReduceOS.Ustar
import Mathlib.Algebra.Group.Int.Defs

/-!
Requests for a slice of a file: of a ramdev, and of a file in an archive on one, whose bytes begin
behind its header. A request is right unless the end of the slice wraps around, or the offset is
negative but within the length as an unsigned number, or the count is negative as an `ssize_t`;
and, in an archive, unless the header or the bytes are not on the device.
-/
namespace ReduceOS.FileSlice

open Machine Ramdev Ustar
open Kopen (vfsFile)

def Nothing (a : Archive) (file : TarNode) (offset size : BitVec 64) (buffer : Addr) : Prop :=
  file.flags ≠ vfsFile ∨ offset > file.length ∨ tarfsGetUstar a file.inode = none ∨
    size = 0 ∨ (offset = file.length ∧ offset.toNat + size.toNat < 2 ^ 64) ∨ buffer = null ∨
    file.inode + 512 + offset > a.dev.length ∨
    file.inode + 512 + offset = a.dev.length ∧ a.dev.length.toNat +
      (if offset.toNat + size.toNat < 2 ^ 64 then
        min size.toNat (file.length.toNat - offset.toNat)
      else size.toNat) < 2 ^ 64

def FileInRange (a : Archive) (file : TarNode) (offset size : BitVec 64) (buffer : Addr) : Prop :=
  if available file.length.toNat offset.toInt size.toNat = 0 then Nothing a file offset size buffer
  else
    file.flags = vfsFile ∧ tarfsGetUstar a file.inode ≠ none ∧ buffer ≠ null ∧
      offset.toNat + size.toNat < 2 ^ 64 ∧
      file.inode.toNat + 512 + offset.toNat + available file.length.toNat offset.toInt size.toNat ≤
        a.dev.length.toNat ∧
      file.inode.toNat + 512 + offset.toNat < 2 ^ 63 ∧
      available file.length.toNat offset.toInt size.toNat < 2 ^ 63

variable {a : Archive} {file : TarNode} {offset size : BitVec 64} {buffer : Addr}

def reads (node : Device) (request : BitVec 64 × Option Memcpy) : List ℤ :=
  request.2.toList.flatMap (Memcpy.reads node)

def writes (node : Device) (request : BitVec 64 × Option Memcpy) : List ℤ :=
  request.2.toList.flatMap (Memcpy.writes node)

theorem nothing_sliced_iff {n : ℕ} {start : ℤ} :
    ((0 : BitVec 64).toInt = n ∧ [] = positions start n) ↔ n = 0 := by
  constructor
  · rintro ⟨hcount, -⟩
    have hzero : (0 : BitVec 64).toInt = 0 := rfl
    omega
  · rintro rfl
    exact ⟨rfl, rfl⟩

/-- What a ramdev has of a request in unsigned numbers. -/
theorem ramdevRead_sliced_iff (node : Device) {n : ℕ} {start : ℤ} :
    ((ramdevRead node offset size buffer).1.toInt = n ∧
        reads node (ramdevRead node offset size buffer) = positions start n) ↔
      if size = 0 ∨ buffer = null ∨ offset > node.length then n = 0
      else
        (clampSize node.length offset size).toNat = n ∧ n < 2 ^ 63 ∧
          (n ≠ 0 → offset.toInt = start) := by
  unfold ramdevRead ramdevCopy reads
  by_cases hstop : size = 0 ∨ buffer = null
  · rw [if_pos hstop, if_pos (by tauto)]
    exact nothing_sliced_iff
  · by_cases hbeyond : offset > node.length
    · rw [if_neg hstop, if_pos hbeyond, if_pos (by tauto)]
      exact nothing_sliced_iff
    · have hcount := BitVec.toInt_eq_toNat_cond (clampSize node.length offset size)
      rw [if_neg hstop, if_neg hbeyond, if_neg (by tauto)]
      simp only [Option.toList_some, List.flatMap_singleton, memcpy_reads, positions_inj]
      split_ifs at hcount <;> omega

theorem toInt_cases (x : BitVec 64) : x.toNat < 2 ^ 63 ∧ x.toInt = x.toNat ∨
    2 ^ 63 ≤ x.toNat ∧ x.toInt = x.toNat - 2 ^ 64 := by
  have hint := BitVec.toInt_eq_toNat_cond x
  split_ifs at hint <;> omega

theorem available_unsigned (length : ℕ) (offset : BitVec 64) (size : ℕ) :
    available length offset.toInt size =
      if offset.toNat < 2 ^ 63 then min size (length - offset.toNat) else 0 := by
  have hint := toInt_cases offset
  unfold available
  split_ifs <;> omega

/-- The request for a file has come to the device of the archive. -/
theorem inArchive_iff {n : ℕ} (hbeyond : ¬ offset > file.length)
    (hn : available file.length.toNat offset.toInt size.toNat = n) :
    (if clampSize file.length offset size = 0 ∨ buffer = null ∨
          file.inode + 512 + offset > a.dev.length then n = 0
      else
        (clampSize a.dev.length (file.inode + 512 + offset)
            (clampSize file.length offset size)).toNat = n ∧ n < 2 ^ 63 ∧
          (n ≠ 0 → (file.inode + 512 + offset).toInt =
            (file.inode.toNat : ℤ) + 512 + offset.toInt)) ↔
      if n = 0 then
        size = 0 ∨ (offset = file.length ∧ offset.toNat + size.toNat < 2 ^ 64) ∨ buffer = null ∨
          file.inode + 512 + offset > a.dev.length ∨
          file.inode + 512 + offset = a.dev.length ∧ a.dev.length.toNat +
            (if offset.toNat + size.toNat < 2 ^ 64 then
              min size.toNat (file.length.toNat - offset.toNat)
            else size.toNat) < 2 ^ 64
      else
        buffer ≠ null ∧ offset.toNat + size.toNat < 2 ^ 64 ∧
          file.inode.toNat + 512 + offset.toNat + n ≤ a.dev.length.toNat ∧
          file.inode.toNat + 512 + offset.toNat < 2 ^ 63 ∧ n < 2 ^ 63 := by
  have hclamp := @clampSize_toNat ⟨file.length, 0⟩ offset size (BitVec.not_lt.mp hbeyond)
  dsimp only at hclamp
  rw [← hclamp]
  have hposition : (file.inode + 512 + offset).toNat =
      (file.inode.toNat + 512 + offset.toNat) % 2 ^ 64 := by
    simp [BitVec.toNat_add]
  have hp := toInt_cases (file.inode + 512 + offset)
  have hzero : ∀ x : BitVec 64, x = 0 ↔ x.toNat = 0 := fun x => BitVec.toNat_inj.symm
  have hdev : file.inode + 512 + offset ≤ a.dev.length →
      (clampSize a.dev.length (file.inode + 512 + offset)
          (clampSize file.length offset size)).toNat =
        if (file.inode + 512 + offset).toNat + (clampSize file.length offset size).toNat < 2 ^ 64
        then min (clampSize file.length offset size).toNat
          (a.dev.length.toNat - (file.inode + 512 + offset).toNat)
        else (clampSize file.length offset size).toNat :=
    fun h => @clampSize_toNat a.dev _ _ h
  have hle := BitVec.le_def.mp (BitVec.not_lt.mp hbeyond)
  rw [available_unsigned] at hn
  generalize clampSize file.length offset size = z at *
  generalize file.inode + 512 + offset = p at *
  generalize (clampSize a.dev.length p z).toNat = w at *
  by_cases hnull : buffer = null
  · rw [if_pos (.inr (.inl hnull))]
    split_ifs with hn0 <;> simp [hn0, hnull]
  · simp only [hnull, false_or, ne_eq, not_false_eq_true, true_and, hzero, gt_iff_lt,
      ← BitVec.toNat_inj, BitVec.lt_def, BitVec.le_def] at hdev ⊢
    clear hzero hbeyond
    by_cases hstop : z.toNat = 0 ∨ a.dev.length.toNat < p.toNat
    · rw [if_pos hstop]
      split_ifs with hn0
      · split_ifs at hclamp hn <;> omega
      · split_ifs at hclamp hn <;> omega
    · rw [if_neg hstop]
      have hw := hdev (by omega)
      split_ifs with hn0
      · split_ifs at hclamp hn hw <;> omega
      · have hsigned := toInt_cases offset
        split_ifs at hclamp hn hw <;> omega

theorem tarfsRead_sliced_iff :
    Sliced file.length.toNat offset.toInt size.toNat (file.inode.toNat + 512)
        (tarfsRead a file offset size buffer).1.toInt
        (reads a.dev (tarfsRead a file offset size buffer)) ↔
      FileInRange a file offset size buffer := by
  rw [sliced_iff]
  unfold FileInRange Nothing tarfsRead
  generalize hn : available file.length.toNat offset.toInt size.toNat = n
  by_cases hflags : file.flags = vfsFile
  · by_cases hbeyond : offset > file.length
    · rw [if_neg (not_ne_iff.mpr hflags), if_pos hbeyond]
      refine nothing_sliced_iff.trans ?_
      have hlt := BitVec.lt_def.mp hbeyond
      have hint := BitVec.toInt_eq_toNat_cond offset
      have hnone : n = 0 := by
        unfold available at hn
        split_ifs at hn <;> omega
      simp [hnone, hbeyond]
    · rw [if_neg (not_ne_iff.mpr hflags), if_neg hbeyond]
      cases hheader : tarfsGetUstar a file.inode with
      | none =>
        refine nothing_sliced_iff.trans ?_
        split_ifs with hn0 <;> simp [hn0]
      | some header =>
        dsimp only
        rw [ramdevRead_sliced_iff]
        refine (inArchive_iff hbeyond hn).trans ?_
        simp [hflags, hbeyond]
  · rw [if_pos hflags]
    refine nothing_sliced_iff.trans ?_
    split_ifs with hn0 <;> simp [hn0, hflags]

theorem file_slices_iff (node : Device) (a : Archive) (file : TarNode) (offset size : BitVec 64)
    (buffer : Addr) :
    (Sliced node.length.toNat offset.toInt size.toNat 0
        (ramdevRead node offset size buffer).1.toInt
        (reads node (ramdevRead node offset size buffer)) ↔
      InRange node.length offset size buffer) ∧
    (Sliced node.length.toNat offset.toInt size.toNat 0
        (ramdevWrite node offset size buffer).1.toInt
        (writes node (ramdevWrite node offset size buffer)) ↔
      InRange node.length offset size buffer) ∧
    (Sliced file.length.toNat offset.toInt size.toNat (file.inode.toNat + 512)
        (tarfsRead a file offset size buffer).1.toInt
        (reads a.dev (tarfsRead a file offset size buffer)) ↔
      FileInRange a file offset size buffer) :=
  ⟨ramdevCopy_sliced_iff _ _ fun _ => memcpy_reads _ _,
    ramdevCopy_sliced_iff _ _ fun _ => memcpy_writes _ _, tarfsRead_sliced_iff⟩

/-- At the offset 1 of a page, as many bytes as there can be are all read: the end of the slice
wraps around to 0. -/
theorem whole_memory_read :
    (ramdevRead ⟨4096, 0x10000⟩ 1 (-1) 0x8000).1 = -1 ∧
    ¬ Sliced 4096 1 (2 ^ 64 - 1) 0 (ramdevRead ⟨4096, 0x10000⟩ 1 (-1) 0x8000).1.toInt
      (reads ⟨4096, 0x10000⟩ (ramdevRead ⟨4096, 0x10000⟩ 1 (-1) 0x8000)) := by
  have hcount : (ramdevRead ⟨4096, 0x10000⟩ 1 (-1) 0x8000).1 = -1 := by decide
  refine ⟨hcount, fun h => ?_⟩
  have hnonneg := h.nonneg
  rw [hcount] at hnonneg
  exact absurd hnonneg (by decide)

end ReduceOS.FileSlice
