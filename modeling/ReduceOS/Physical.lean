import ReduceOS.Outcome
import ReduceOS.Page
import ReduceOS.Pmm
import Mathlib.Data.Set.Insert

/-!
Physical memory as the kernel reaches it. `mem_init` maps 64 GiB of physical
memory at `MEM_PHYSMEM_MAP_REGION`; every frame the kernel touches is reached
through `mem_remapPhys`, and an address outside that window faults in kernel
mode. The frame allocator is a parameter of the memory code, with the laws the
code relies on; the bitmap allocator of pmm.c satisfies them on machines of at
most 2 GiB.
-/
namespace ReduceOS.Physical

open Machine Page Outcome

abbrev Frame := Fin 512 → Entry

def zeroFrame : Frame := fun _ => Entry.zero

def wordByte (w : BitVec 64) (k : ℕ) : BitVec 8 := w.extractLsb' (8 * k) 8

def setWordByte (w : BitVec 64) (k : ℕ) (b : BitVec 8) : BitVec 64 :=
  (w &&& ~~~((0xFF#8).setWidth 64 <<< (8 * k))) ||| (b.setWidth 64 <<< (8 * k))

theorem wordByte_setWordByte (w : BitVec 64) (k : ℕ) (b : BitVec 8) (hk : k < 8) :
    wordByte (setWordByte w k b) k = b := by
  apply BitVec.eq_of_getLsbD_eq
  intro i hi
  have hlt : 8 * k + i < 64 := by omega
  have hge : ¬ 8 * k + i < 8 * k := by omega
  have hsub : 8 * k + i - 8 * k = i := by omega
  have hones : (0xFF#8).getLsbD i = true := by
    interval_cases i <;> decide
  simp only [wordByte, setWordByte, BitVec.getLsbD_extractLsb', BitVec.getLsbD_or,
    BitVec.getLsbD_and, BitVec.getLsbD_not, BitVec.getLsbD_shiftLeft, BitVec.getLsbD_setWidth,
    hi, hlt, hge, hsub, hones, decide_true, decide_false]
  have hi64 : i < 64 := by omega
  simp [hi64]

theorem wordByte_setWordByte_ne (w : BitVec 64) (k j : ℕ) (b : BitVec 8) (hne : j ≠ k) :
    wordByte (setWordByte w k b) j = wordByte w j := by
  apply BitVec.eq_of_getLsbD_eq
  intro i hi
  simp only [wordByte, setWordByte, BitVec.getLsbD_extractLsb', BitVec.getLsbD_or,
    BitVec.getLsbD_and, BitVec.getLsbD_not, BitVec.getLsbD_shiftLeft, BitVec.getLsbD_setWidth]
  by_cases hlt : 8 * j + i < 8 * k
  · by_cases h64 : 8 * j + i < 64
    · simp [hlt, h64]
    · have hw : w.getLsbD (8 * j + i) = false := BitVec.getLsbD_of_ge _ _ (by omega)
      simp [hw, h64]
  · have hb : b.getLsbD (8 * j + i - 8 * k) = false := BitVec.getLsbD_of_ge _ _ (by omega)
    have hm : (0xFF#8).getLsbD (8 * j + i - 8 * k) = false := BitVec.getLsbD_of_ge _ _ (by omega)
    by_cases h64 : 8 * j + i < 64
    · simp [hlt, hb, hm, h64]
    · have hw : w.getLsbD (8 * j + i) = false := BitVec.getLsbD_of_ge _ _ (by omega)
      simp [hw, h64]

namespace Frame

def byte (fr : Frame) (o : Fin 4096) : BitVec 8 :=
  wordByte (fr ⟨o.val / 8, by omega⟩).data (o.val % 8)

def setByte (fr : Frame) (o : Fin 4096) (b : BitVec 8) : Frame :=
  Function.update fr ⟨o.val / 8, by omega⟩
    (Entry.ofData (setWordByte (fr ⟨o.val / 8, by omega⟩).data (o.val % 8) b))

theorem byte_setByte (fr : Frame) (o q : Fin 4096) (b : BitVec 8) :
    (fr.setByte o b).byte q = if q = o then b else fr.byte q := by
  unfold byte setByte
  by_cases hw : q.val / 8 = o.val / 8
  · have hidx : (⟨q.val / 8, by omega⟩ : Fin 512) = ⟨o.val / 8, by omega⟩ := Fin.ext hw
    rw [hidx, Function.update_self, Entry.data_ofData]
    by_cases hq : q = o
    · subst hq
      rw [if_pos rfl, wordByte_setWordByte _ _ _ (by omega)]
    · have hne : q.val % 8 ≠ o.val % 8 := by
        intro h
        exact hq (Fin.ext (by omega))
      rw [if_neg hq, wordByte_setWordByte_ne _ _ _ _ hne]
  · have hidx : (⟨q.val / 8, by omega⟩ : Fin 512) ≠ ⟨o.val / 8, by omega⟩ :=
      fun h => hw (congrArg Fin.val h)
    have hq : q ≠ o := fun h => hw (by rw [h])
    rw [Function.update_of_ne hidx, if_neg hq]

end Frame

structure Allocator (P : Type) where
  allocateBlock : P → Except Panic (Addr × P)
  freeBlock : P → Addr → P

abbrev Oom : Panic → Prop := fun e => e = .outOfMemory

/-- An allocator that hands out frames nobody uses: `used` is what it considers
taken. A block address is an `int` product in pmm.c, so only frames below 2^19
have one. -/
structure LawfulAllocator (P : Type) extends Allocator P where
  valid : P → Prop
  used : P → Set FrameNo
  allocate_spec : ∀ p, valid p → Meets Oom (allocateBlock p) fun r =>
    ∃ f : FrameNo, r.1 = frameAddr f ∧ f.toNat < 2 ^ 19 ∧ f ∉ used p ∧
      valid r.2 ∧ used r.2 = insert f (used p)
  free_spec : ∀ p f, valid p → f ∈ used p → f.toNat < 2 ^ 19 →
    valid (freeBlock p (frameAddr f)) ∧ used (freeBlock p (frameAddr f)) = used p \ {f}

/-- `frames`, `mem_pageReferences` and physical memory itself. -/
structure State (P : Type) where
  phys : FrameNo → Frame
  refs : FrameNo → BitVec 8
  pmm : P

namespace State

variable {P : Type}

def setEntry (s : State P) (f : FrameNo) (i : Fin 512) (e : Entry) : State P :=
  { s with phys := Function.update s.phys f (Function.update (s.phys f) i e) }

def setFrame (s : State P) (f : FrameNo) (fr : Frame) : State P :=
  { s with phys := Function.update s.phys f fr }

def setRefs (s : State P) (f : FrameNo) (n : BitVec 8) : State P :=
  { s with refs := Function.update s.refs f n }

@[simp] theorem setEntry_refs (s : State P) (f : FrameNo) (i : Fin 512) (e : Entry) :
    (s.setEntry f i e).refs = s.refs := rfl

@[simp] theorem setEntry_pmm (s : State P) (f : FrameNo) (i : Fin 512) (e : Entry) :
    (s.setEntry f i e).pmm = s.pmm := rfl

@[simp] theorem setFrame_refs (s : State P) (f : FrameNo) (fr : Frame) :
    (s.setFrame f fr).refs = s.refs := rfl

@[simp] theorem setFrame_pmm (s : State P) (f : FrameNo) (fr : Frame) :
    (s.setFrame f fr).pmm = s.pmm := rfl

@[simp] theorem setRefs_phys (s : State P) (f : FrameNo) (n : BitVec 8) :
    (s.setRefs f n).phys = s.phys := rfl

@[simp] theorem setRefs_pmm (s : State P) (f : FrameNo) (n : BitVec 8) :
    (s.setRefs f n).pmm = s.pmm := rfl

@[simp] theorem setEntry_phys_self (s : State P) (f : FrameNo) (i : Fin 512) (e : Entry) :
    (s.setEntry f i e).phys f i = e := by simp [setEntry]

theorem setEntry_phys_frame_ne (s : State P) {f g : FrameNo} (i : Fin 512) (e : Entry)
    (h : g ≠ f) : (s.setEntry f i e).phys g = s.phys g := by simp [setEntry, h]

theorem setEntry_phys_index_ne (s : State P) (f g : FrameNo) {i j : Fin 512} (e : Entry)
    (h : j ≠ i) : (s.setEntry f i e).phys g j = s.phys g j := by
  by_cases hg : g = f
  · subst hg
    simp [setEntry, h]
  · rw [setEntry_phys_frame_ne s i e hg]

@[simp] theorem setEntry_setEntry (s : State P) (f : FrameNo) (i : Fin 512) (e e' : Entry) :
    (s.setEntry f i e).setEntry f i e' = s.setEntry f i e' := by simp [setEntry]

@[simp] theorem setEntry_entry (s : State P) (f : FrameNo) (i : Fin 512) :
    s.setEntry f i (s.phys f i) = s := by simp [setEntry]

@[simp] theorem setFrame_phys_self (s : State P) (f : FrameNo) (fr : Frame) :
    (s.setFrame f fr).phys f = fr := by simp [setFrame]

theorem setFrame_phys_ne (s : State P) {f g : FrameNo} (fr : Frame) (h : g ≠ f) :
    (s.setFrame f fr).phys g = s.phys g := by simp [setFrame, h]

end State

/-- `mem_remapPhys`; the size it is given never exceeds the window here. -/
def memRemapPhys (frameAddress : Addr) : Addr := frameAddress ||| physmemMapRegion

def physFrame (v : Addr) : Except Panic FrameNo :=
  if physmemMapRegion ≤ v ∧ v - physmemMapRegion < physmemMapSize then
    .ok (((v - physmemMapRegion) >>> 12).setWidth 28)
  else .error .pageFault

theorem memRemapPhys_toNat (a : Addr) (h : a.toNat < 2 ^ 39) :
    memRemapPhys a = physmemMapRegion + a := by
  have hzero : physmemMapRegion &&& a = 0#64 := by
    apply BitVec.eq_of_getLsbD_eq
    intro i hi
    rw [BitVec.getLsbD_and, BitVec.getLsbD_zero]
    by_cases hlow : i < 39
    · have hregion : ∀ j < 39, physmemMapRegion.getLsbD j = false := by decide
      simp [hregion i hlow]
    · have hhigh : a.getLsbD i = false := by
        unfold BitVec.getLsbD
        apply Nat.testBit_lt_two_pow
        exact Nat.lt_of_lt_of_le h (Nat.pow_le_pow_right (by decide) (by omega))
      simp [hhigh]
  unfold memRemapPhys
  rw [BitVec.or_comm, BitVec.add_eq_or_of_and_eq_zero _ _ hzero]

/-- Masking the region bits of a remapped address gives the address back. -/
theorem memRemapPhys_and_not (a : Addr) (h : a.toNat < 2 ^ 39) :
    memRemapPhys a &&& ~~~physmemMapRegion = a := by
  apply BitVec.eq_of_getLsbD_eq
  intro i hi
  unfold memRemapPhys
  rw [BitVec.getLsbD_and, BitVec.getLsbD_or, BitVec.getLsbD_not]
  by_cases hlow : i < 39
  · have hregion : ∀ j < 39, physmemMapRegion.getLsbD j = false := by decide
    rw [hregion i hlow]
    simp [hi]
  · have hhigh : a.getLsbD i = false := by
      unfold BitVec.getLsbD
      apply Nat.testBit_lt_two_pow
      exact Nat.lt_of_lt_of_le h (Nat.pow_le_pow_right (by decide) (by omega))
    rw [hhigh]
    cases physmemMapRegion.getLsbD i <;> simp

/-- A negative `int` that is extended to an address leads out of the window. -/
theorem physFrame_of_msb (x : CInt) (hx : x.msb = true) :
    physFrame (memRemapPhys (x.signExtend 64)) = .error .pageFault := by
  have hmap : memRemapPhys (x.signExtend 64) = x.signExtend 64 := by
    apply BitVec.eq_of_getLsbD_eq
    intro i hi
    have hregion : physmemMapRegion.getLsbD i = decide (39 ≤ i) := by
      revert i
      decide
    have hsign : 39 ≤ i → (x.signExtend 64).getLsbD i = true := by
      intro hle
      rw [BitVec.getLsbD_signExtend, decide_eq_true hi, if_neg (by omega), hx]
      rfl
    rw [memRemapPhys, BitVec.getLsbD_or, hregion]
    by_cases hle : 39 ≤ i
    · simp [hle, hsign hle]
    · simp [hle]
  have hval : (x.signExtend 64).toNat = 2 ^ 64 - 2 ^ 32 + x.toNat := by
    rw [BitVec.toNat_signExtend, hx, BitVec.toNat_setWidth, if_pos rfl]
    omega
  rw [hmap, physFrame, if_neg]
  rintro ⟨hle, hlt⟩
  rw [BitVec.msb_eq_true_iff_two_mul_ge] at hx
  rw [BitVec.lt_def, BitVec.toNat_sub_of_le hle, hval] at hlt
  have hsize : physmemMapSize.toNat = 2 ^ 36 := rfl
  have hregion : physmemMapRegion.toNat = 2 ^ 64 - 2 ^ 39 := rfl
  omega

/-- The window covers every frame below 64 GiB. -/
theorem physFrame_memRemapPhys (f : FrameNo) (h : f.toNat < 2 ^ 24) :
    physFrame (memRemapPhys (frameAddr f)) = .ok f := by
  have haddr := frameAddr_toNat f
  rw [memRemapPhys_toNat _ (by omega)]
  have hsub : physmemMapRegion + frameAddr f - physmemMapRegion = frameAddr f := by
    rw [BitVec.add_comm, BitVec.add_sub_cancel]
  unfold physFrame
  rw [hsub, if_pos, frameAddr_shift]
  constructor
  · rw [BitVec.le_def, BitVec.toNat_add, haddr]
    have : physmemMapRegion.toNat = 0xFFFFFF8000000000 := rfl
    omega
  · rw [BitVec.lt_def, haddr]
    have : physmemMapSize.toNat = 0x1000000000 := rfl
    omega

end ReduceOS.Physical
