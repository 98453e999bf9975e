import ReduceOS.ElfConfinement

/-!
Where the heap of an executable is put: behind the page in which the last of its segments ends.
The loader and the search for the highest end read the same program headers as long as none is
written over and their offsets in the table fit in an `int`; from 2 GiB on the loader looks for them
elsewhere.
-/
namespace ReduceOS.HeapLocation

open Machine Inet Page Physical Paging KernelMappings UserHeap ElfBounds ElfPlan ElfConfinement
open ElfRelocation hiding entryAt
open ElfImage hiding highestEnd

variable {P : Type}

section Places

variable (buf : Buffer)

def programHeader (i : ℕ) : Phdr := readPhdr buf (elfPhdrWide buf i)

def programHeaders : ℕ := (ePhnum buf).toNat

def segmentEnd (i : ℕ) : ℕ := (programHeader buf i).vaddr.toNat + (programHeader buf i).memsz.toNat

/-- The search of `elf_getHeapLocation` in a buffer that does not change. -/
def highestEnd : ℕ → ℕ → Addr → Addr
  | 0, _, heapBase => heapBase
  | n + 1, i, heapBase =>
    let ph := programHeader buf i
    highestEnd n (i + 1) (if heapBase < ph.vaddr + ph.memsz then ph.vaddr + ph.memsz else heapBase)

/-- The page of an address is not above that in which some segment ends. -/
def Covered (v : Addr) : Prop := ∃ j < programHeaders buf, v.toNat / 4096 ≤ segmentEnd buf j / 4096

end Places

section Headers

variable {buf : Buffer} {i n : ℕ} {v base : Addr} {ph : Phdr} {ok : Addr → Prop}

/-- The offset of a header, where it fits in an `int`. -/
theorem elfPhdr_eq (h : (ePhentsize buf).toNat * i < 2 ^ 31) :
    elfPhdr buf i = elfPhdrWide buf i := by
  have hint : (ePhentsize buf).setWidth 32 * BitVec.ofNat 32 i =
      BitVec.ofNat 32 ((ePhentsize buf).toNat * i) := by
    rw [BitVec.ofNat_mul, BitVec.ofNat_toNat]
  have hwide : (ePhentsize buf).setWidth 64 * BitVec.ofNat 64 i =
      BitVec.ofNat 64 ((ePhentsize buf).toNat * i) := by
    rw [BitVec.ofNat_mul, BitVec.ofNat_toNat]
  unfold elfPhdr elfPhdrWide
  rw [hint, hwide]
  congr 1
  apply BitVec.eq_of_toNat_eq
  rw [toNat_signExtend_ofNat h, BitVec.toNat_ofNat, Nat.mod_eq_of_lt (by omega)]

end Headers

section Placement

variable {buf : Buffer} {v : Addr}

end Placement

section Files

variable {L : LawfulAllocator P} {dir : FrameNo} {s₀ s s' t : State P} {fbuf : Addr} {file : File}
  {readFile : State P → Except Panic (Addr × State P)} {res : Option Addr}

end Files

section Examples

/-- A segment at 0x400000, and one that is put over the number of headers. -/
def overwritten : File where
  content := ehdr 0x400000 2 ++ phdr ptLoad 0 0x400000 4 8 ++
    phdr ptLoad 176 0xFFFFFF0000000038 2 0 ++ [0, 0]
  length := 178
  fits := le_rfl

end Examples

end ReduceOS.HeapLocation
