import ReduceOS.Machine
import Mathlib.Tactic.SplitIfs

/-!
Byte ranges of a disk read and written in whole sectors, by `ahci_read` and `ahci_write`
and by `ide_readFS` and `ide_writeFS`. Disks are far smaller than the 64-bit integers
that count their bytes, so nothing here wraps. The sector transfers themselves are taken
as exact, and as failing past the end of the disk.
-/
namespace ReduceOS.BlockIo

open Machine

abbrev Bytes := ℕ → BitVec 8

/-- A disk of `sectors` sectors with `sectorSize` bytes each. -/
structure Disk (sectorSize : ℕ) where
  sectors : ℕ
  bytes : Bytes

variable {b : ℕ}

def Disk.length (disk : Disk b) : ℕ := b * disk.sectors

def Disk.readSectors (disk : Disk b) (lba n : ℕ) : Option Bytes :=
  if lba + n ≤ disk.sectors then some fun i => disk.bytes (b * lba + i) else none

def Disk.writeSectors (disk : Disk b) (lba n : ℕ) (data : Bytes) : Option (Disk b) :=
  if lba + n ≤ disk.sectors then
    some { disk with bytes := fun i =>
      if b * lba ≤ i ∧ i < b * lba + b * n then data (i - b * lba) else disk.bytes i }
  else none

/-- `memcpy` and the transfers into a buffer: `n` bytes of `data` at `start`. -/
def fill (buffer : Bytes) (start n : ℕ) (data : Bytes) : Bytes :=
  fun i => if start ≤ i ∧ i < start + n then data (i - start) else buffer i

inductive Kind
  | ata
  | atapi
  deriving DecidableEq

section Read

structure ReadResult where
  returned : ℕ
  buffer : Bytes

def firstLba (b offset : ℕ) : ℕ := (offset - offset % b) / b

/-- Where the request starts in the sectors read. For ATAPI the block number is taken modulo
the block size, not multiplied by it. -/
def bufferOffset (kind : Kind) (b offset : ℕ) : ℕ :=
  match kind with
  | .atapi => offset - firstLba b offset % b
  | .ata => offset - firstLba b offset * b

def readRounded (kind : Kind) (b offset size : ℕ) : ℕ :=
  size + bufferOffset kind b offset + b - (size + bufferOffset kind b offset + b) % b

def clamp (length offset size : ℕ) : ℕ := if length < offset + size then length - offset else size

def ahciRead (kind : Kind) (disk : Disk b) (offset size : ℕ) (buffer : Bytes) : ReadResult :=
  if disk.length ≤ offset then ⟨0, buffer⟩
  else
    let size := clamp disk.length offset size
    match disk.readSectors (firstLba b offset) (readRounded kind b offset size / b) with
    | none => ⟨0, buffer⟩
    | some dmabuffer =>
      ⟨size, fill buffer 0 size fun i => dmabuffer (bufferOffset kind b offset + i)⟩

/-- `ide_readFS` does not look at the result of the transfer; `failed` is what one that fails
leaves in the buffer. -/
def ideReadFS (failed : ℕ → ℕ → Bytes) (kind : Kind) (disk : Disk b) (offset size : ℕ)
    (buffer : Bytes) : ReadResult :=
  if disk.length ≤ offset then ⟨0, buffer⟩
  else
    let size := clamp disk.length offset size
    let lba := firstLba b offset
    let sectors := readRounded kind b offset size / b
    let tmpbuffer := (disk.readSectors lba sectors).getD (failed lba sectors)
    ⟨size, fill buffer 0 size fun i => tmpbuffer (bufferOffset kind b offset + i)⟩

structure ReadsExactly (disk : Disk b) (offset size : ℕ) (res : ReadResult) : Prop where
  returned : res.returned = size
  filled : ∀ k < size, res.buffer k = disk.bytes (offset + k)

def SectorsInside (kind : Kind) (disk : Disk b) (offset size : ℕ) : Prop :=
  firstLba b offset + (size + bufferOffset kind b offset) / b + 1 ≤ disk.sectors

def SameBytes (kind : Kind) (disk : Disk b) (offset size : ℕ) : Prop :=
  ∀ k < size, disk.bytes (b * firstLba b offset + (bufferOffset kind b offset + k)) =
    disk.bytes (offset + k)

section Geometry

variable {kind : Kind} {disk : Disk b} {offset size : ℕ} (hb : 0 < b)

include hb

theorem firstLba_eq (offset : ℕ) : firstLba b offset = offset / b := by
  unfold firstLba
  rw [← Nat.mul_div_cancel_left (offset / b) hb]
  congr 1
  have := Nat.div_add_mod offset b
  omega

/-- Rounding always adds a sector, also to a request that fills whole ones. -/
theorem readRounded_div (kind : Kind) (offset size : ℕ) :
    readRounded kind b offset size / b = (size + bufferOffset kind b offset) / b + 1 := by
  unfold readRounded
  generalize size + bufferOffset kind b offset = n
  have hdiv := Nat.div_add_mod (n + b) b
  have hadd := Nat.add_div_right n hb
  rw [show n + b - (n + b) % b = b * ((n + b) / b) by omega, Nat.mul_div_cancel_left _ hb, hadd]

theorem ata_offset (offset : ℕ) : b * firstLba b offset + bufferOffset .ata b offset = offset := by
  have hle : offset / b * b ≤ offset := Nat.div_mul_le_self offset b
  simp only [bufferOffset, firstLba_eq hb, Nat.mul_comm b]
  omega

end Geometry

section Exact

variable {kind : Kind} {disk : Disk b} {offset size : ℕ} {buffer : Bytes}

theorem clamp_eq (h : offset + size ≤ disk.length) : clamp disk.length offset size = size := by
  unfold clamp
  split_ifs <;> omega

theorem fill_eq (buffer data : Bytes) {n k : ℕ} (hk : k < n) : fill buffer 0 n data k = data k := by
  simp [fill, hk]

theorem readsExactly_fill_iff (data : Bytes) :
    ReadsExactly disk offset size ⟨size, fill buffer 0 size data⟩ ↔
      ∀ k < size, data k = disk.bytes (offset + k) :=
  ⟨fun h k hk => (fill_eq buffer data hk).symm.trans (h.filled k hk),
    fun h => ⟨rfl, fun k hk => (fill_eq buffer data hk).trans (h k hk)⟩⟩

/-- `ahci_read` on a disk that the request lies on. -/
theorem ahciRead_exact_iff (hb : 0 < b) (h : offset + size ≤ disk.length) :
    ReadsExactly disk offset size (ahciRead kind disk offset size buffer) ↔
      size = 0 ∨ (SectorsInside kind disk offset size ∧ SameBytes kind disk offset size) := by
  rcases Nat.eq_zero_or_pos size with rfl | hpos
  · refine ⟨fun _ => Or.inl rfl, fun _ => ⟨?_, fun k hk => absurd hk (Nat.not_lt_zero k)⟩⟩
    unfold ahciRead
    split_ifs
    · rfl
    · simp only [clamp_eq h]
      split <;> rfl
  · have hin : ¬ disk.length ≤ offset := by omega
    simp only [ahciRead, if_neg hin, clamp_eq h, readRounded_div hb, Disk.readSectors]
    have hsum : firstLba b offset + ((size + bufferOffset kind b offset) / b + 1) =
      firstLba b offset + (size + bufferOffset kind b offset) / b + 1 := by omega
    rw [hsum]
    by_cases hsec : SectorsInside kind disk offset size
    · rw [if_pos (show _ ≤ _ from hsec)]
      refine (readsExactly_fill_iff _).trans ⟨fun hsame => Or.inr ⟨hsec, hsame⟩, ?_⟩
      rintro (h0 | ⟨-, hsame⟩)
      · omega
      · exact hsame
    · rw [if_neg (show ¬ _ ≤ _ from hsec)]
      constructor
      · rintro ⟨hret, -⟩
        have : 0 = size := hret
        omega
      · rintro (h0 | ⟨hbad, -⟩)
        · omega
        · exact absurd hbad hsec

/-- `ide_readFS`, where a transfer that fails goes unnoticed. -/
theorem ideReadFS_exact_iff (failed : ℕ → ℕ → Bytes) (hb : 0 < b)
    (h : offset + size ≤ disk.length) :
    ReadsExactly disk offset size (ideReadFS failed kind disk offset size buffer) ↔
      size = 0 ∨ (SectorsInside kind disk offset size ∧ SameBytes kind disk offset size) ∨
        (¬ SectorsInside kind disk offset size ∧ ∀ k < size,
          failed (firstLba b offset) ((size + bufferOffset kind b offset) / b + 1)
            (bufferOffset kind b offset + k) = disk.bytes (offset + k)) := by
  rcases Nat.eq_zero_or_pos size with rfl | hpos
  · refine ⟨fun _ => Or.inl rfl, fun _ => ⟨?_, fun k hk => absurd hk (Nat.not_lt_zero k)⟩⟩
    unfold ideReadFS
    split_ifs
    · rfl
    · exact clamp_eq h
  · have hin : ¬ disk.length ≤ offset := by omega
    have hne : size ≠ 0 := by omega
    simp only [ideReadFS, if_neg hin, clamp_eq h, readRounded_div hb, Disk.readSectors, hne,
      false_or]
    have hsum : firstLba b offset + ((size + bufferOffset kind b offset) / b + 1) =
      firstLba b offset + (size + bufferOffset kind b offset) / b + 1 := by omega
    rw [hsum]
    rw [readsExactly_fill_iff]
    by_cases hsec : SectorsInside kind disk offset size
    · rw [if_pos (show _ ≤ _ from hsec)]
      simp only [hsec, true_and, not_true_eq_false, false_and, or_false]
      rfl
    · rw [if_neg (show ¬ _ ≤ _ from hsec)]
      simp only [hsec, false_and, not_false_eq_true, true_and, false_or]
      rfl

/-- An ATA request reads the right bytes, and stays on the disk unless it ends with it. -/
theorem ata_inside_iff (hb : 0 < b) :
    SectorsInside .ata disk offset size ↔ offset + size < disk.length := by
  have hsum : (offset + size) / b = offset / b + (size + bufferOffset .ata b offset) / b := by
    have hoff := ata_offset hb offset
    rw [firstLba_eq hb] at hoff
    rw [← Nat.mul_add_div hb (offset / b)]
    congr 1
    omega
  unfold SectorsInside Disk.length
  rw [firstLba_eq hb, Nat.succ_le_iff, ← hsum]
  exact Nat.div_lt_iff_lt_mul hb |>.trans (by rw [Nat.mul_comm])

theorem ata_sameBytes (hb : 0 < b) : SameBytes .ata disk offset size := by
  intro k _
  rw [← Nat.add_assoc, ata_offset hb]

/-- The transfer succeeds and the copy starts at the right place: for ATA the request must not
reach the end of the disk, for ATAPI the bytes copied must be those asked for. -/
def Readable (kind : Kind) (disk : Disk b) (offset size : ℕ) : Prop :=
  match kind with
  | .ata => offset + size < disk.length
  | .atapi => SectorsInside .atapi disk offset size ∧ SameBytes .atapi disk offset size

theorem readable_iff (hb : 0 < b) : Readable kind disk offset size ↔
    SectorsInside kind disk offset size ∧ SameBytes kind disk offset size := by
  cases kind with
  | ata =>
    refine (ata_inside_iff hb).symm.trans ⟨fun h => ⟨h, ata_sameBytes hb⟩, fun h => h.1⟩
  | atapi => exact Iff.rfl

def Agree (r₁ r₂ : ReadResult) : Prop :=
  r₁.returned = r₂.returned ∧ ∀ k < r₁.returned, r₁.buffer k = r₂.buffer k

/-- When a request within the disk is met by each driver; they agree where both meet it. -/
theorem reads_exact_iff (failed : ℕ → ℕ → Bytes) (hb : 0 < b) (h : offset + size ≤ disk.length) :
    (ReadsExactly disk offset size (ahciRead kind disk offset size buffer) ↔
      size = 0 ∨ Readable kind disk offset size) ∧
    (ReadsExactly disk offset size (ideReadFS failed kind disk offset size buffer) ↔
      size = 0 ∨ Readable kind disk offset size ∨
        (¬ SectorsInside kind disk offset size ∧ ∀ k < size,
          failed (firstLba b offset) ((size + bufferOffset kind b offset) / b + 1)
            (bufferOffset kind b offset + k) = disk.bytes (offset + k))) ∧
    (ReadsExactly disk offset size (ahciRead kind disk offset size buffer) →
      ReadsExactly disk offset size (ideReadFS failed kind disk offset size buffer) →
      Agree (ahciRead kind disk offset size buffer)
        (ideReadFS failed kind disk offset size buffer)) := by
  rw [readable_iff hb]
  refine ⟨ahciRead_exact_iff hb h, ideReadFS_exact_iff failed hb h, fun hahci hide => ⟨?_, ?_⟩⟩
  · rw [hahci.returned, hide.returned]
  · intro k hk
    rw [hahci.returned] at hk
    rw [hahci.filled k hk, hide.filled k hk]

def counting (sectors : ℕ) : Disk 512 := ⟨sectors, fun i => BitVec.ofNat 8 (i + 1)⟩

/-- Four bytes across the first sector boundary of two. -/
theorem reads_exact_across_boundary :
    ReadsExactly (counting 2) 510 4 (ahciRead .ata (counting 2) 510 4 fun _ => 0) ∧
    ReadsExactly (counting 2) 510 4
      (ideReadFS (fun _ _ _ => 0) .ata (counting 2) 510 4 fun _ => 0) := by
  have hmet : Readable .ata (counting 2) 510 4 := by
    change 510 + 4 < 512 * 2
    omega
  have hlen : 510 + 4 ≤ (counting 2).length := by decide
  obtain ⟨hahci, hide, -⟩ := reads_exact_iff (fun _ _ _ => 0) (by decide) hlen
  exact ⟨hahci.mpr (Or.inr hmet), hide.mpr (Or.inr (Or.inl hmet))⟩

/-- The last two bytes of a disk: one driver returns nothing, and the other two bytes that are
not on the disk. -/
theorem last_bytes_not_read :
    ¬ ReadsExactly (counting 1) 510 2 (ahciRead .ata (counting 1) 510 2 fun _ => 0) ∧
    (ideReadFS (fun _ _ _ => 0) .ata (counting 1) 510 2 fun _ => 0).returned = 2 ∧
    ¬ ReadsExactly (counting 1) 510 2
      (ideReadFS (fun _ _ _ => 0) .ata (counting 1) 510 2 fun _ => 0) := by
  refine ⟨fun h => absurd h.returned (by decide), by decide, fun h => ?_⟩
  exact absurd (h.filled 0 (by decide)) (by decide)

end Exact

end Read

section Write

/-- `length` bytes from `start` on, in one of the two buffers of a write. -/
structure Access where
  start : ℕ
  length : ℕ

structure WriteResult where
  returned : ℕ
  disk : Disk 512
  capacity : ℕ
  bounce : List Access
  caller : List Access

def refused (disk : Disk 512) : WriteResult := ⟨0, disk, 0, [], []⟩

def writeRounded (size : ℕ) : ℕ := size + 512 - (size + 512) % 512

def dmaCapacity (size : ℕ) : ℕ := if size % 4096 ≠ 0 then (size + 4096) / 4096 * 4096 else size

/-- The part that the two functions share: read the first sector of the request and, from a
sector number that is off, the last one, copy the new bytes over them, and write. A transfer
that fails ends it. -/
def readModifyWrite (disk : Disk 512) (offset size : ℕ) (buffer writeBuffer : Bytes) :
    Option (Disk 512) × List Access × List Access :=
  let lba := firstLba 512 offset
  let rounded := writeRounded size
  let first : Access := ⟨0, 512⟩
  let last : Access := ⟨rounded - 512, 512⟩
  match disk.readSectors lba 1 with
  | none => (none, [first], [])
  | some head =>
    match disk.readSectors ((lba + rounded) / 512 - 1) 1 with
    | none => (none, [first, last], [])
    | some tail =>
      let data := fill (fill (fill writeBuffer 0 512 head) (rounded - 512) 512 tail)
        (offset - lba * 512) size buffer
      (disk.writeSectors lba (rounded / 512) data,
        [first, last, ⟨offset - lba * 512, size⟩, ⟨0, rounded⟩], [⟨0, size⟩])

def ahciWrite (kind : Kind) (disk : Disk 512) (offset size : ℕ) (buffer : Bytes) : WriteResult :=
  if disk.length ≤ offset then refused disk
  else
    let size := clamp disk.length offset size
    match kind with
    | .atapi => refused disk
    | .ata =>
      let rounded := writeRounded size
      let capacity := if 4096 < rounded then dmaCapacity rounded else 4096
      let (written, bounce, caller) := readModifyWrite disk offset size buffer fun _ => 0
      match written with
      | none => ⟨0, disk, capacity, ⟨0, rounded⟩ :: bounce, caller⟩
      | some disk' => ⟨size, disk', capacity, ⟨0, rounded⟩ :: bounce, caller⟩

/-- `ide_writeFS` returns 0 whatever it has done; `heap` is what `kmalloc` hands out. -/
def ideWriteFS (heap : Bytes) (kind : Kind) (disk : Disk 512) (offset size : ℕ) (buffer : Bytes) :
    WriteResult :=
  if disk.length ≤ offset then refused disk
  else
    let size := clamp disk.length offset size
    match kind with
    | .atapi => refused disk
    | .ata =>
      let (written, bounce, caller) := readModifyWrite disk offset size buffer heap
      ⟨0, written.getD disk, writeRounded size, bounce, caller⟩

/-- The contents of the disk after a write that changes just what it was asked to. -/
def overwritten (disk : Disk 512) (offset size : ℕ) (buffer : Bytes) : Bytes :=
  fun i => if offset ≤ i ∧ i < offset + size then buffer (i - offset) else disk.bytes i

structure WritesExactly (disk : Disk 512) (offset size : ℕ) (buffer : Bytes) (res : WriteResult) :
    Prop where
  returned : res.returned = size
  contents : ∀ i < disk.length, res.disk.bytes i = overwritten disk offset size buffer i
  bounce : ∀ a ∈ res.bounce, a.start + a.length ≤ res.capacity
  caller : ∀ a ∈ res.caller, a.start + a.length ≤ size

/-- When a request changes just the bytes it names: `size / 512 + 1` sectors are written, from
the first one on, wherever in that one the request starts. -/
structure Writable (disk : Disk 512) (offset size : ℕ) (buffer : Bytes) : Prop where
  inside : offset / 512 + size / 512 + 1 ≤ disk.sectors
  /-- What the last of them keeps comes from another sector. -/
  kept : ∀ j < 512,
    512 * (size / 512) + j < offset % 512 ∨ offset % 512 + size ≤ 512 * (size / 512) + j →
    disk.bytes (512 * (offset / 512 / 512 + size / 512) + j) =
      disk.bytes (512 * (offset / 512 + size / 512) + j)
  /-- What goes past the last of them is not written. -/
  lost : ∀ k < size, 512 * (size / 512 + 1) ≤ offset % 512 + k →
    buffer k = disk.bytes (offset + k)

section Rounding

variable {offset size : ℕ}

theorem writeRounded_eq (size : ℕ) : writeRounded size = 512 * (size / 512 + 1) := by
  unfold writeRounded
  omega

theorem lastLba_eq (lba size : ℕ) :
    (lba + 512 * (size / 512 + 1)) / 512 - 1 = lba / 512 + size / 512 := by
  omega

theorem le_dmaCapacity (size : ℕ) : size ≤ dmaCapacity size := by
  unfold dmaCapacity
  split_ifs <;> omega

theorem offset_eq (offset : ℕ) :
    offset - offset / 512 * 512 = offset % 512 ∧ firstLba 512 offset = offset / 512 := by
  have h := firstLba_eq (by decide : 0 < 512) offset
  omega

end Rounding

variable {kind : Kind} {disk : Disk 512} {offset size : ℕ} {buffer heap : Bytes}

def bounced (disk : Disk 512) (offset size : ℕ) (buffer heap : Bytes) : Bytes :=
  fill (fill (fill heap 0 512 fun i => disk.bytes (512 * (offset / 512) + i))
    (512 * (size / 512)) 512 fun i => disk.bytes (512 * (offset / 512 / 512 + size / 512) + i))
    (offset % 512) size buffer

/-- Each byte of the bounce buffer is a new one, or comes from one of the two sectors that are
read: the sectors between them are overwritten altogether. -/
theorem bounced_eq {p : ℕ} (hp : p < 512 * (size / 512 + 1)) :
    bounced disk offset size buffer heap p =
      if offset % 512 ≤ p ∧ p < offset % 512 + size then buffer (p - offset % 512)
      else if 512 * (size / 512) ≤ p then
        disk.bytes (512 * (offset / 512 / 512 + size / 512) + (p - 512 * (size / 512)))
      else disk.bytes (512 * (offset / 512) + p) := by
  unfold bounced fill
  split_ifs with hnew htail hlast hhead
  · rfl
  · rfl
  · omega
  · omega
  · simp
  · omega
  · omega

def rewritten (disk : Disk 512) (offset size : ℕ) (buffer heap : Bytes) : Disk 512 :=
  { disk with bytes := fun i =>
      if 512 * (offset / 512) ≤ i ∧ i < 512 * (offset / 512) + 512 * (size / 512 + 1) then
        bounced disk offset size buffer heap (i - 512 * (offset / 512))
      else disk.bytes i }

theorem readModifyWrite_of_inside (h : offset / 512 + size / 512 + 1 ≤ disk.sectors) :
    readModifyWrite disk offset size buffer heap =
      (some (rewritten disk offset size buffer heap),
        [⟨0, 512⟩, ⟨512 * (size / 512), 512⟩, ⟨offset % 512, size⟩,
          ⟨0, 512 * (size / 512 + 1)⟩], [⟨0, size⟩]) := by
  obtain ⟨hoff, hlba⟩ := offset_eq offset
  have hhead : offset / 512 + 1 ≤ disk.sectors := by omega
  have htail : offset / 512 / 512 + size / 512 + 1 ≤ disk.sectors := by omega
  have hall : offset / 512 + (size / 512 + 1) ≤ disk.sectors := by omega
  have hsub : 512 * (size / 512 + 1) - 512 = 512 * (size / 512) := by omega
  have hdiv : 512 * (size / 512 + 1) / 512 = size / 512 + 1 := by omega
  simp only [readModifyWrite, hoff, writeRounded_eq, hlba, lastLba_eq, hsub, hdiv,
    Disk.readSectors, Disk.writeSectors, if_pos hhead, if_pos htail, if_pos hall]
  rfl

theorem readModifyWrite_of_outside (h : ¬ offset / 512 + size / 512 + 1 ≤ disk.sectors) :
    (readModifyWrite disk offset size buffer heap).1 = none := by
  obtain ⟨-, hlba⟩ := offset_eq offset
  have hdiv : 512 * (size / 512 + 1) / 512 = size / 512 + 1 := by omega
  have hall : ¬ offset / 512 + (size / 512 + 1) ≤ disk.sectors := by omega
  simp only [readModifyWrite, writeRounded_eq, hlba, hdiv]
  split
  · rfl
  split
  · rfl
  simp [Disk.writeSectors, hall]

/-- The new contents are right where what is kept and what is lost of them does not differ. -/
theorem rewritten_contents_iff (heap : Bytes)
    (hin : offset / 512 + size / 512 + 1 ≤ disk.sectors)
    (h : offset + size ≤ disk.length) :
    (∀ i < disk.length, (rewritten disk offset size buffer heap).bytes i =
      overwritten disk offset size buffer i) ↔ Writable disk offset size buffer := by
  have hdm := Nat.div_add_mod offset 512
  unfold Disk.length at *
  constructor
  · intro hall
    refine ⟨hin, fun j hj hout => ?_, fun k hk hpast => ?_⟩
    · have hi := hall (512 * (offset / 512 + size / 512) + j) (by omega)
      have hsub : 512 * (offset / 512 + size / 512) + j - 512 * (offset / 512) =
        512 * (size / 512) + j := by omega
      have hcancel : 512 * (size / 512) + j - 512 * (size / 512) = j := by omega
      simp only [rewritten, overwritten] at hi
      rw [if_pos (by omega), hsub, bounced_eq (by omega), if_neg (by omega), if_pos (by omega),
        if_neg (by omega), hcancel] at hi
      exact hi
    · have hi := hall (offset + k) (by omega)
      simp only [rewritten, overwritten] at hi
      rw [if_neg (by omega), if_pos (by omega), Nat.add_sub_cancel_left] at hi
      exact hi.symm
  · rintro ⟨-, hkept, hlost⟩ i hi
    simp only [rewritten, overwritten]
    by_cases hsec : 512 * (offset / 512) ≤ i ∧ i < 512 * (offset / 512) + 512 * (size / 512 + 1)
    · obtain ⟨p, rfl⟩ := Nat.exists_eq_add_of_le hsec.1
      rw [if_pos hsec, Nat.add_sub_cancel_left, bounced_eq (by omega)]
      by_cases hnew : offset % 512 ≤ p ∧ p < offset % 512 + size
      · rw [if_pos hnew, if_pos (by omega)]
        congr 1
        omega
      have hold : ¬ (offset ≤ 512 * (offset / 512) + p ∧
          512 * (offset / 512) + p < offset + size) := by omega
      rw [if_neg hnew, if_neg hold]
      split_ifs with htail
      · obtain ⟨j, rfl⟩ := Nat.exists_eq_add_of_le htail
        have hk := hkept j (by omega) (by omega)
        rw [Nat.add_sub_cancel_left, hk]
        congr 1
        omega
      · rfl
    · rw [if_neg hsec]
      split_ifs with hreq
      · obtain ⟨k, rfl⟩ := Nat.exists_eq_add_of_le hreq.1
        rw [Nat.add_sub_cancel_left, hlost k (by omega) (by omega)]
      · rfl

def ahciCapacity (size : ℕ) : ℕ :=
  if 4096 < writeRounded size then dmaCapacity (writeRounded size) else 4096

theorem rounded_le_ahciCapacity (size : ℕ) : 512 * (size / 512 + 1) ≤ ahciCapacity size := by
  have hle := le_dmaCapacity (512 * (size / 512 + 1))
  unfold ahciCapacity
  rw [writeRounded_eq]
  split_ifs <;> omega

theorem refused_exact_iff :
    WritesExactly disk offset size buffer (refused disk) ↔ size = 0 := by
  constructor
  · intro h
    exact h.returned.symm
  · rintro rfl
    refine ⟨rfl, fun i _ => ?_, by simp [refused], by simp [refused]⟩
    have hnone : ¬ (offset ≤ i ∧ i < offset + 0) := by omega
    exact (if_neg hnone).symm

/-- A request of no bytes still writes a sector, which is on the disk. -/
theorem inside_of_zero (h : offset < disk.length) (hzero : size = 0) :
    offset / 512 + size / 512 + 1 ≤ disk.sectors := by
  unfold Disk.length at h
  omega

def AhciWritable (kind : Kind) (disk : Disk 512) (offset size : ℕ) (buffer : Bytes) : Prop :=
  match kind with
  | .atapi => size = 0
  | .ata => offset = disk.length ∨
      (offset % 512 + size ≤ ahciCapacity size ∧ Writable disk offset size buffer)

def IdeWritable (kind : Kind) (disk : Disk 512) (offset size : ℕ) (buffer : Bytes) : Prop :=
  match kind with
  | .atapi => size = 0
  | .ata => size = 0 ∧ (offset = disk.length ∨ Writable disk offset size buffer)

/-- A write of which the transfers succeed, in a buffer that holds all of its sectors. -/
theorem exactly_iff_of_inside {returned capacity : ℕ} {cleared : List Access}
    (h : offset + size ≤ disk.length) (hin : offset / 512 + size / 512 + 1 ≤ disk.sectors)
    (hcap : 512 * (size / 512 + 1) ≤ capacity)
    (hcleared : ∀ a ∈ cleared, a.start + a.length ≤ capacity) :
    WritesExactly disk offset size buffer
      ⟨returned, rewritten disk offset size buffer heap, capacity,
        cleared ++ [⟨0, 512⟩, ⟨512 * (size / 512), 512⟩, ⟨offset % 512, size⟩,
          ⟨0, 512 * (size / 512 + 1)⟩], [⟨0, size⟩]⟩ ↔
      returned = size ∧ offset % 512 + size ≤ capacity ∧ Writable disk offset size buffer := by
  have hfirst : 0 + 512 ≤ capacity := by omega
  have hlast : 512 * (size / 512) + 512 ≤ capacity := by omega
  have hall : 0 + 512 * (size / 512 + 1) ≤ capacity := by rwa [Nat.zero_add]
  rw [← rewritten_contents_iff heap hin h]
  constructor
  · intro hw
    have hcopy := hw.bounce ⟨offset % 512, size⟩
      (List.mem_append_right _ (.tail _ (.tail _ (.head _))))
    dsimp only at hcopy
    exact ⟨hw.returned, hcopy, hw.contents⟩
  · rintro ⟨hret, hfits, hcontents⟩
    refine ⟨hret, hcontents, fun a ha => ?_, by simp⟩
    simp only [List.mem_append, List.mem_cons, List.not_mem_nil, or_false] at ha
    rcases ha with ha | rfl | rfl | rfl | rfl
    · exact hcleared a ha
    · exact hfirst
    · exact hlast
    · exact hfits
    · exact hall

theorem ahciWrite_eq_of_inside (h : offset + size ≤ disk.length) (hlt : offset < disk.length)
    (hin : offset / 512 + size / 512 + 1 ≤ disk.sectors) :
    ahciWrite .ata disk offset size buffer =
      ⟨size, rewritten disk offset size buffer fun _ => 0, ahciCapacity size,
        [⟨0, 512 * (size / 512 + 1)⟩] ++ [⟨0, 512⟩, ⟨512 * (size / 512), 512⟩,
          ⟨offset % 512, size⟩, ⟨0, 512 * (size / 512 + 1)⟩], [⟨0, size⟩]⟩ := by
  simp only [ahciWrite, if_neg (Nat.not_le.mpr hlt), clamp_eq h, readModifyWrite_of_inside hin,
    ahciCapacity, writeRounded_eq, List.cons_append, List.nil_append]

theorem ideWriteFS_eq_of_inside (h : offset + size ≤ disk.length) (hlt : offset < disk.length)
    (hin : offset / 512 + size / 512 + 1 ≤ disk.sectors) :
    ideWriteFS heap .ata disk offset size buffer =
      ⟨0, rewritten disk offset size buffer heap, 512 * (size / 512 + 1),
        [] ++ [⟨0, 512⟩, ⟨512 * (size / 512), 512⟩, ⟨offset % 512, size⟩,
          ⟨0, 512 * (size / 512 + 1)⟩], [⟨0, size⟩]⟩ := by
  simp only [ideWriteFS, if_neg (Nat.not_le.mpr hlt), clamp_eq h, readModifyWrite_of_inside hin,
    writeRounded_eq, List.nil_append, Option.getD_some]

theorem ahciWrite_exact_iff (h : offset + size ≤ disk.length) :
    WritesExactly disk offset size buffer (ahciWrite kind disk offset size buffer) ↔
      AhciWritable kind disk offset size buffer := by
  by_cases hlt : offset < disk.length
  · cases kind with
    | atapi =>
      simp only [ahciWrite, if_neg (Nat.not_le.mpr hlt)]
      exact refused_exact_iff
    | ata =>
      have hne : offset ≠ disk.length := by omega
      simp only [AhciWritable, hne, false_or]
      by_cases hin : offset / 512 + size / 512 + 1 ≤ disk.sectors
      · have hcap := rounded_le_ahciCapacity size
        rw [ahciWrite_eq_of_inside h hlt hin,
          exactly_iff_of_inside h hin hcap (by simpa using hcap)]
        exact and_iff_right rfl
      · -- the transfer fails, and the request has bytes, so that 0 is not their number
        refine ⟨fun hw => absurd hw.returned ?_, fun hw => absurd hw.2.inside hin⟩
        have hpos : size ≠ 0 := fun hzero => hin (inside_of_zero hlt hzero)
        simp only [ahciWrite, if_neg (Nat.not_le.mpr hlt), clamp_eq h,
          readModifyWrite_of_outside hin]
        exact hpos.symm
  · have hzero : size = 0 := by omega
    have heq : offset = disk.length := by omega
    simp only [ahciWrite, if_pos (Nat.not_lt.mp hlt)]
    refine refused_exact_iff.trans ⟨fun _ => ?_, fun _ => hzero⟩
    cases kind with
    | atapi => exact hzero
    | ata => exact Or.inl heq

theorem ideWriteFS_exact_iff (heap : Bytes) (h : offset + size ≤ disk.length) :
    WritesExactly disk offset size buffer (ideWriteFS heap kind disk offset size buffer) ↔
      IdeWritable kind disk offset size buffer := by
  by_cases hlt : offset < disk.length
  · cases kind with
    | atapi =>
      simp only [ideWriteFS, if_neg (Nat.not_le.mpr hlt)]
      exact refused_exact_iff
    | ata =>
      have hne : offset ≠ disk.length := by omega
      simp only [IdeWritable, hne, false_or]
      by_cases hzero : size = 0
      · have hin := inside_of_zero hlt hzero
        rw [ideWriteFS_eq_of_inside h hlt hin,
          exactly_iff_of_inside h hin (Nat.le_refl _) (by simp)]
        have hfits : offset % 512 + size ≤ 512 * (size / 512 + 1) := by omega
        simp only [hfits, true_and]
        exact and_congr_left fun _ => eq_comm
      · refine ⟨fun hw => absurd hw.returned ?_, fun hw => absurd hw.1 hzero⟩
        simp only [ideWriteFS, if_neg (Nat.not_le.mpr hlt)]
        omega
  · have hzero : size = 0 := by omega
    have heq : offset = disk.length := by omega
    simp only [ideWriteFS, if_pos (Nat.not_lt.mp hlt)]
    refine refused_exact_iff.trans ⟨fun _ => ?_, fun _ => hzero⟩
    cases kind with
    | atapi => exact hzero
    | ata => exact ⟨hzero, Or.inl heq⟩

/-- When a write within the disk changes just the bytes it names, in each of the drivers. -/
theorem writes_exact_iff (heap : Bytes) (h : offset + size ≤ disk.length) :
    (WritesExactly disk offset size buffer (ahciWrite kind disk offset size buffer) ↔
      AhciWritable kind disk offset size buffer) ∧
    (WritesExactly disk offset size buffer (ideWriteFS heap kind disk offset size buffer) ↔
      IdeWritable kind disk offset size buffer) :=
  ⟨ahciWrite_exact_iff h, ideWriteFS_exact_iff heap h⟩

def stamped (sectors : ℕ) : Disk 512 := ⟨sectors, fun i => BitVec.ofNat 8 (i / 512)⟩

/-- The first sector of two, written as a whole. -/
theorem writes_exact_first_sector :
    WritesExactly (stamped 2) 0 512 (fun _ => 7) (ahciWrite .ata (stamped 2) 0 512 fun _ => 7) := by
  have hlen : 0 + 512 ≤ (stamped 2).length := by decide
  refine (writes_exact_iff (fun _ => 0) hlen).1.mpr (Or.inr ⟨by decide, by decide, ?_, ?_⟩)
  · intro j _ _
    rfl
  · intro k hk hpast
    omega

/-- One byte written at the start of the second sector: the rest of that sector becomes what the
first one holds, and `ide_writeFS` says that nothing was written. -/
theorem second_sector_overwritten :
    (ahciWrite .ata (stamped 2) 512 1 fun _ => 7).disk.bytes 513 = 0 ∧
    (stamped 2).bytes 513 = 1 ∧
    ¬ WritesExactly (stamped 2) 512 1 (fun _ => 7) (ahciWrite .ata (stamped 2) 512 1 fun _ => 7) ∧
    (ideWriteFS (fun _ => 0) .ata (stamped 2) 512 1 fun _ => 7).returned = 0 ∧
    ¬ WritesExactly (stamped 2) 512 1 (fun _ => 7)
      (ideWriteFS (fun _ => 0) .ata (stamped 2) 512 1 fun _ => 7) := by
  refine ⟨by decide, by decide, fun h => ?_, by decide, fun h => ?_⟩
  · exact absurd (h.contents 513 (by decide)) (by decide)
  · exact absurd h.returned (by decide)

end Write

end ReduceOS.BlockIo
