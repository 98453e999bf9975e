import ReduceOS.Multiboot
import ReduceOS.Physical
import ReduceOS.Pmm

/-!
How the frame allocator gets its memory: `pmm_init` takes all frames for used, and
`arch_mark_memory` goes through the memory map of the boot loader, in either protocol. The bitmap
is what memory holds before. A number bounds the rounds of the loops over the map.
-/
namespace ReduceOS.MemoryMap

open Machine Inet Multiboot

section Regions

def memset (frames : ℤ → BitVec 64) (c : Byte) : ℕ → ℤ → BitVec 64
  | 0 => frames
  | n + 1 =>
    let frames := memset frames c n
    Function.update frames (n / 8 : ℕ) (Physical.setWordByte (frames (n / 8 : ℕ)) (n % 8) c)

def pmmInit (memsize : BitVec 64) (framesBitmap : Option (ℤ → BitVec 64)) : Ending Pmm.State :=
  match framesBitmap with
  | none => .panicked "physmem"
  | some frames =>
    if memsize = 0 then .panicked "physmem"
    else
      let maxBlocks := memsize / BitVec.ofNat 64 Pmm.blockSize
      .returned ⟨memset frames 0xF (maxBlocks / 8).toNat, maxBlocks, maxBlocks, maxBlocks⟩

def align (base : Addr) : CInt :=
  if base = 0 then 0 else (base / BitVec.ofNat 64 Pmm.blockSize).setWidth 32

/-- How often the loop over the blocks of a region runs: they are counted down in an `int`. -/
def blocks (size : BitVec 64) : ℕ :=
  ((size / BitVec.ofNat 64 Pmm.blockSize).setWidth 32).toInt.toNat

def initializeRegion (s : Pmm.State) (base : Addr) (size : BitVec 64) : Pmm.State :=
  if size = 0 then s
  else { Pmm.clearFrames s (align base) (blocks size) with
    usedBlocks := s.usedBlocks - BitVec.ofNat 64 (blocks size) }

def deinitializeRegion (s : Pmm.State) (base : Addr) (size : BitVec 64) : Pmm.State :=
  if size = 0 then s
  else { Pmm.setFrames s (align base) (blocks size) with
    usedBlocks := s.usedBlocks + BitVec.ofNat 64 (blocks size) }

end Regions

section Marking

variable (mem : ℕ → Byte) (memSize : BitVec 64)

/-- What both loops do with an entry that they do not take for available. -/
def markUnavailable (s : Pmm.State) (addr : Addr) (len : BitVec 64) : Pmm.State :=
  if addr > 0x100000 ∧ addr + len < memSize then deinitializeRegion s addr len else s

/-- The loop over the map of the second protocol. The `highest_address` that it compares with is
one of its own, which stays 0. -/
def markEntries2 (entrySize : BitVec 32) (stop : ℕ) : ℕ → ℕ → Pmm.State → Option Pmm.State
  | 0, _, _ => none
  | n + 1, ptr, s =>
    if ptr < stop then
      let highestAddress : BitVec 64 := 0
      let addr := load64 mem ptr
      let len := load64 mem (ptr + 8)
      markEntries2 entrySize stop n (ptr + entrySize.toNat)
        (if load32 mem (ptr + 16) = 1 ∧ len ≠ 0 ∧ addr + len - 1 > highestAddress then
          initializeRegion s addr len
        else markUnavailable memSize s addr len)
    else some s

def markEntries1 (stop : ℕ) : ℕ → ℕ → Pmm.State → Option Pmm.State
  | 0, _, _ => none
  | n + 1, mmap, s =>
    if mmap < stop then
      let addr := load64 mem (mmap + 4)
      let len := load64 mem (mmap + 12)
      markEntries1 stop n (mmap + (load32 mem mmap).toNat + 4)
        (if load32 mem (mmap + 20) = 1 then initializeRegion s addr len
        else markUnavailable memSize s addr len)
    else some s

/-- Both loops, each for its protocol, with the structure that the early parser has stored: for
the second protocol the tags, 8 bytes behind the boot information. -/
def markEntries (isMb2 : Bool) (n storedBootinfo : ℕ) (s : Pmm.State) :
    Option (Ending Pmm.State) := do
  if isMb2 then
    match ← multiboot2FindTag mem n storedBootinfo tagTypeMmap with
    | none => some (.panicked memoryMapText)
    | some mmap =>
      (markEntries2 mem memSize (load32 mem (mmap + 8)) (mmap + (load32 mem (mmap + 4)).toNat) n
        (mmap + 16) s).map .returned
  else
    let mmapAddr := load32 mem (storedBootinfo + 48)
    (markEntries1 mem memSize (mmapAddr + load32 mem (storedBootinfo + 44)).toNat n mmapAddr.toNat
      s).map .returned

def archMarkMemory (isMb2 : Bool) (n storedBootinfo : ℕ) (highestAddress : BitVec 64)
    (s : Pmm.State) : Option (Ending Pmm.State) := do
  if storedBootinfo = 0 then some (.panicked "multiboot")
  else
    match ← markEntries mem memSize isMb2 n storedBootinfo s with
    | .panicked text => some (.panicked text)
    | .returned s =>
      let s := deinitializeRegion s 0 0x100000
      some (.returned (deinitializeRegion s 0x100000 (highestAddress - 0x100000)))

/-- What `mem_init` does of it: the allocator is initialized and its memory marked. -/
def initMemory (isMb2 : Bool) (n storedBootinfo : ℕ) (framesBitmap : Option (ℤ → BitVec 64))
    (highestAddress : BitVec 64) : Option (Ending Pmm.State) :=
  match pmmInit memSize framesBitmap with
  | .panicked text => some (.panicked text)
  | .returned s => archMarkMemory mem memSize isMb2 n storedBootinfo highestAddress s

/-- The entries of the memory map, as the parsers of the boot information read them. -/
def memoryMap (isMb2 : Bool) (n storedBootinfo : ℕ) : Option (List Descriptor) := do
  if isMb2 then
    match ← multiboot2FindTag mem n storedBootinfo tagTypeMmap with
    | none => none
    | some mmap =>
      mmapEntries mem (load32 mem (mmap + 8)) (mmap + (load32 mem (mmap + 4)).toNat) n (mmap + 16)
  else
    let mmapAddr := load32 mem (storedBootinfo + 48)
    mmapEntries1 mem (mmapAddr + load32 mem (storedBootinfo + 44)).toNat n mmapAddr.toNat

end Marking

end ReduceOS.MemoryMap
