import ReduceOS.Machine
import Mathlib.Data.Fintype.Prod
import Mathlib.Data.Fintype.BigOperators
import Mathlib.Tactic.IntervalCases

/-!
Page table entries and the macros of arch/x86_64/mem.h. `page_t` is a union of a
64-bit word and its bit fields; a frame is 512 such words, read as entries by the
kernel and by the page walk, and as bytes by everything else.
-/
namespace ReduceOS.Page

open Machine

/-- A table has 512 entries. -/
instance instNeZeroEntries : NeZero 512 := ⟨by decide⟩

/-- `page->bits.address` is 28 bits wide: the number of a physical frame. -/
abbrev FrameNo := BitVec 28

/-- `page_t`, in the order of its bit fields. -/
structure Entry where
  present : Bool
  rw : Bool
  usermode : Bool
  writethrough : Bool
  cacheDisable : Bool
  accessed : Bool
  available1 : Bool
  size : Bool
  global : Bool
  available2 : BitVec 3
  address : FrameNo
  reserved : BitVec 12
  cow : Bool
  available3 : BitVec 10
  nx : Bool
  deriving DecidableEq

namespace Entry

def zero : Entry :=
  ⟨false, false, false, false, false, false, false, false, false, 0, 0, 0, false, 0, false⟩

def data (e : Entry) : BitVec 64 :=
  BitVec.ofBool e.nx ++ e.available3 ++ BitVec.ofBool e.cow ++ e.reserved ++ e.address ++
    e.available2 ++ BitVec.ofBool e.global ++ BitVec.ofBool e.size ++
    BitVec.ofBool e.available1 ++ BitVec.ofBool e.accessed ++ BitVec.ofBool e.cacheDisable ++
    BitVec.ofBool e.writethrough ++ BitVec.ofBool e.usermode ++ BitVec.ofBool e.rw ++
    BitVec.ofBool e.present

def ofData (d : BitVec 64) : Entry where
  present := d.getLsbD 0
  rw := d.getLsbD 1
  usermode := d.getLsbD 2
  writethrough := d.getLsbD 3
  cacheDisable := d.getLsbD 4
  accessed := d.getLsbD 5
  available1 := d.getLsbD 6
  size := d.getLsbD 7
  global := d.getLsbD 8
  available2 := d.extractLsb' 9 3
  address := d.extractLsb' 12 28
  reserved := d.extractLsb' 40 12
  cow := d.getLsbD 52
  available3 := d.extractLsb' 53 10
  nx := d.getLsbD 63

theorem data_ofData (d : BitVec 64) : (ofData d).data = d := by
  apply BitVec.eq_of_getLsbD_eq
  intro i hi
  simp only [data, ofData, BitVec.getLsbD_append, BitVec.getLsbD_ofBool, BitVec.getLsbD_extractLsb']
  interval_cases i <;> simp

end Entry

/-- `MEM_SET_FRAME`: the frame address is shifted and cut to the 28-bit field. -/
def setFrame (e : Entry) (frame : Addr) : Entry := { e with address := (frame >>> 12).setWidth 28 }

/-- `MEM_GET_FRAME`: a bit field narrower than `int` is promoted to `int`, so the
shift is a 32-bit one and its result is sign-extended. -/
def getFrame (e : Entry) : Addr := ((e.address.setWidth 32 : CInt) <<< 12).signExtend 64

def tableIndex (shift : ℕ) (x : Addr) : Fin 512 :=
  ⟨((x >>> shift) &&& 0x1FF#64).toNat, by
    rw [BitVec.toNat_and]
    exact Nat.lt_of_le_of_lt Nat.and_le_right (by decide)⟩

def pml4Index (x : Addr) : Fin 512 := tableIndex (12 + 27) x

def pdptIndex (x : Addr) : Fin 512 := tableIndex (12 + 18) x

def pagedirIndex (x : Addr) : Fin 512 := tableIndex (12 + 9) x

def pagetblIndex (x : Addr) : Fin 512 := tableIndex 12 x

/-- `MEM_IS_CANONICAL` looks at the top 16 bits only, not at bit 47. -/
def isCanonical (addr : Addr) : Bool :=
  (addr &&& 0xFFFF000000000000#64 == 0xFFFF000000000000#64) ||
    (addr &&& 0xFFFF000000000000#64 == 0)

/-- `MEM_ALIGN_PAGE` moves an aligned address to the next page as well. -/
def alignPage (addr : Addr) : Addr := (addr + 0x1000#64) &&& ~~~0xFFF#64

def alignPageDestructive (addr : Addr) : Addr := addr &&& ~~~0xFFF#64

def usermodeStackRegion : Addr := 0x0000060000000000#64

def physmemMapRegion : Addr := 0xFFFFFF8000000000#64

def physmemMapSize : Addr := 0x0000001000000000#64

theorem tableIndex_val (shift : ℕ) (x : Addr) :
    (tableIndex shift x).val = x.toNat / 2 ^ shift % 512 := by
  change ((x >>> shift) &&& 0x1FF#64).toNat = _
  rw [BitVec.toNat_and, BitVec.toNat_ushiftRight, Nat.shiftRight_eq_div_pow]
  exact Nat.and_two_pow_sub_one_eq_mod _ 9

/-- A mask of high ones rounds down to a multiple of its lowest one. -/
private theorem toNat_and_highOnes (x : Addr) (k : ℕ) :
    (x &&& ((BitVec.allOnes 64 >>> k) <<< k)).toNat = x.toNat / 2 ^ k * 2 ^ k := by
  have heq : x &&& ((BitVec.allOnes 64 >>> k) <<< k) = (x >>> k) <<< k := by
    apply BitVec.eq_of_getLsbD_eq
    intro i hi
    by_cases hlow : i < k
    · simp [hlow]
    · have : k + (i - k) = i := by omega
      simp only [BitVec.getLsbD_and, BitVec.getLsbD_shiftLeft, BitVec.getLsbD_ushiftRight,
        BitVec.getLsbD_allOnes, this, hi, hlow, decide_true, decide_false, Bool.not_false,
        Bool.and_true, Bool.true_and]
  have hle : x.toNat / 2 ^ k * 2 ^ k < 2 ^ 64 :=
    Nat.lt_of_le_of_lt (Nat.div_mul_le_self _ _) x.isLt
  rw [heq, BitVec.toNat_shiftLeft, BitVec.toNat_ushiftRight, Nat.shiftRight_eq_div_pow,
    Nat.shiftLeft_eq]
  exact Nat.mod_eq_of_lt hle

private theorem toNat_and_top (x : Addr) :
    (x &&& 0xFFFF000000000000#64).toNat = x.toNat / 2 ^ 48 * 2 ^ 48 := by
  have hmask : (0xFFFF000000000000#64 : Addr) = (BitVec.allOnes 64 >>> 48) <<< 48 := by decide
  rw [hmask]
  exact toNat_and_highOnes x 48

theorem isCanonical_iff (x : Addr) :
    isCanonical x = true ↔ x.toNat < 2 ^ 48 ∨ 2 ^ 64 - 2 ^ 48 ≤ x.toNat := by
  have htop := toNat_and_top x
  have hlt := x.isLt
  unfold isCanonical
  rw [Bool.or_eq_true, beq_iff_eq, beq_iff_eq, BitVec.toNat_eq, BitVec.toNat_eq, htop]
  simp only [BitVec.toNat_ofNat]
  constructor
  · rintro (h | h)
    · right
      omega
    · left
      have : x.toNat / 2 ^ 48 * 2 ^ 48 = 0 := h
      omega
  · rintro (h | h)
    · right
      change x.toNat / 2 ^ 48 * 2 ^ 48 = 0
      omega
    · left
      omega

theorem toNat_and_not_fff (x : Addr) : (x &&& ~~~0xFFF#64).toNat = x.toNat / 4096 * 4096 := by
  have hmask : (~~~0xFFF#64 : Addr) = (BitVec.allOnes 64 >>> 12) <<< 12 := by decide
  rw [hmask]
  exact toNat_and_highOnes x 12

def frameAddr (f : FrameNo) : Addr := (f.setWidth 64) <<< 12

theorem frameAddr_toNat (f : FrameNo) : (frameAddr f).toNat = f.toNat * 4096 := by
  have hlt := f.isLt
  unfold frameAddr
  rw [BitVec.toNat_shiftLeft, BitVec.toNat_setWidth, Nat.shiftLeft_eq]
  omega

theorem frameAddr_shift (f : FrameNo) : ((frameAddr f) >>> 12).setWidth 28 = f := by
  apply BitVec.eq_of_toNat_eq
  have hlt := f.isLt
  rw [BitVec.toNat_setWidth, BitVec.toNat_ushiftRight, frameAddr_toNat,
    Nat.shiftRight_eq_div_pow]
  omega

@[simp] theorem setFrame_frameAddr (e : Entry) (f : FrameNo) :
    setFrame e (frameAddr f) = { e with address := f } := by
  simp [setFrame, frameAddr_shift]

/-- Below 2 GiB the promoted shift is exact. -/
theorem getFrame_of_lt (e : Entry) (h : e.address.toNat < 2 ^ 19) :
    getFrame e = frameAddr e.address := by
  apply BitVec.eq_of_toNat_eq
  have hval : ((e.address.setWidth 32 : CInt) <<< 12).toNat = e.address.toNat * 4096 := by
    rw [BitVec.toNat_shiftLeft, BitVec.toNat_setWidth, Nat.shiftLeft_eq]
    omega
  have hmsb : ((e.address.setWidth 32 : CInt) <<< 12).msb = false := by
    rw [BitVec.msb_eq_false_iff_two_mul_lt, hval]
    omega
  unfold getFrame
  rw [BitVec.toNat_signExtend, BitVec.toNat_setWidth, hval, hmsb, frameAddr_toNat]
  simp only [Bool.false_eq_true, if_false]
  omega

/-- At and above 2 GiB the promoted shift never gives back the frame address. -/
theorem getFrame_ne_of_le (e : Entry) (h : 2 ^ 19 ≤ e.address.toNat) :
    (getFrame e).toNat ≠ e.address.toNat * 4096 := by
  have hlt := e.address.isLt
  have hval : ((e.address.setWidth 32 : CInt) <<< 12).toNat =
      e.address.toNat * 4096 % 2 ^ 32 := by
    rw [BitVec.toNat_shiftLeft, BitVec.toNat_setWidth, Nat.shiftLeft_eq]
    omega
  unfold getFrame
  rw [BitVec.toNat_signExtend, BitVec.toNat_setWidth, hval]
  cases hmsb : ((e.address.setWidth 32 : CInt) <<< 12).msb with
  | false =>
    rw [BitVec.msb_eq_false_iff_two_mul_lt, hval] at hmsb
    simp only [Bool.false_eq_true, if_false]
    omega
  | true =>
    simp only [if_true]
    omega

end ReduceOS.Page
