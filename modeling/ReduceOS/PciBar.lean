import ReduceOS.Bitmap
import ReduceOS.PciScan

/-!
The base address registers of a PCI function. `pci_readBAR` finds out how many bytes a register
stands for by writing ones to it: only the bits that are implemented take them.
-/
namespace ReduceOS.PciBar

open Machine
open PciScan (Config pciAddr readConfigOffset)

/-- What the registers of a function do when they are written to: which bits can be set, and which
bits a 1 clears. -/
structure Device where
  implemented : BitVec 32 → BitVec 32
  cleared : BitVec 32 → BitVec 32

def Device.written (d : Device) (address old value : BitVec 32) : BitVec 32 :=
  ((old &&& ~~~d.implemented address) ||| (value &&& d.implemented address)) &&&
    ~~~(value &&& d.cleared address)

structure Bar where
  type : CInt
  size : BitVec 64
  prefetchable : CInt
  address : BitVec 64
  deriving DecidableEq

section Source

def barMemory32 : BitVec 32 := 0x0

def barIoSpace : BitVec 32 := 0x1

def barMemory16 : BitVec 32 := 0x2

def barMemory64 : BitVec 32 := 0x4

def commandOffset : BitVec 8 := 0x04

def headerTypeOffset : BitVec 8 := 0x0E

def headerTypeMask : BitVec 8 := 0x03

def headerTypeGeneral : BitVec 8 := 0x00

def headerTypePciToPciBridge : BitVec 8 := 0x01

def bar0Offset : BitVec 8 := 0x10

def commandSpaces : BitVec 32 := 0x03

variable (d : Device) (bus slot func : BitVec 8)

def writeConfigOffset (config : Config) (offset : BitVec 8) (value : BitVec 32) : Config :=
  let address := pciAddr bus slot func offset
  Function.update config address (d.written address (config address) value)

def headerType (config : Config) : BitVec 8 :=
  (readConfigOffset config bus slot func headerTypeOffset 1).setWidth 8 &&& headerTypeMask

def readBar (bar : BitVec 8) (config : Config) : Option Bar × Config :=
  let headerType := headerType bus slot func config
  if headerType ≠ headerTypeGeneral ∧ headerType ≠ headerTypePciToPciBridge then (none, config)
  else if bar > 5 ∨ (headerType = headerTypePciToPciBridge ∧ bar > 1) then (none, config)
  else
    let offset := bar0Offset + bar * 0x4
    let restoreCommand := readConfigOffset config bus slot func commandOffset 4
    let config := writeConfigOffset d bus slot func config commandOffset
      (restoreCommand &&& ~~~commandSpaces)
    let barAddress := readConfigOffset config bus slot func offset 4
    let config := writeConfigOffset d bus slot func config offset 0xFFFFFFFF
    let barSize := readConfigOffset config bus slot func offset 4
    let config := writeConfigOffset d bus slot func config offset barAddress
    if barAddress &&& barMemory64 ≠ 0 ∧ barAddress &&& barMemory16 = 0 then
      let barAddressHigh := readConfigOffset config bus slot func (offset + 1) 4
      let config := writeConfigOffset d bus slot func config (offset + 1) 0xFFFFFFFF
      let barSizeHigh := readConfigOffset config bus slot func (offset + 1) 4
      let config := writeConfigOffset d bus slot func config (offset + 1) barAddressHigh
      let out : Bar :=
        { type := barMemory64
          address := (barAddress &&& 0xFFFFFFF0).setWidth 64 |||
            ((barAddressHigh &&& 0xFFFFFFFF).setWidth 64 <<< 32)
          size := ~~~((barSizeHigh.setWidth 64 <<< 32) ||| (barSize &&& ~~~0xF).setWidth 64) + 1
          prefetchable := if barAddress &&& 0x8 ≠ 0 then 1 else 0 }
      (some out, writeConfigOffset d bus slot func config commandOffset restoreCommand)
    else if barAddress &&& barIoSpace ≠ 0 then
      let out : Bar :=
        { type := barIoSpace
          address := (barAddress &&& 0xFFFFFFFC).setWidth 64
          size := (~~~(barSize &&& ~~~0x3) + 1).setWidth 64
          prefetchable := 0 }
      (some out, writeConfigOffset d bus slot func config commandOffset restoreCommand)
    else if barAddress &&& barMemory16 ≠ 0 then
      (none, writeConfigOffset d bus slot func config commandOffset restoreCommand)
    else
      let out : Bar :=
        { type := barMemory32
          address := (barAddress &&& 0xFFFFFFF0).setWidth 64
          size := (~~~(barSize &&& ~~~0xF) + 1).setWidth 64
          prefetchable := if barAddress &&& 0x8 ≠ 0 then 1 else 0 }
      (some out, writeConfigOffset d bus slot func config commandOffset restoreCommand)

end Source

def sizeOf {w : ℕ} (implemented : BitVec w) : BitVec 64 :=
  if implemented = 0 then 0 else 1#64 <<< implemented.ctz.toNat

inductive Kind
  | io
  | memory32
  | memory64
  deriving DecidableEq

def kindOf (content : BitVec 32) : Option Kind :=
  if content.getLsbD 0 then some .io
  else if content.extractLsb' 1 2 = 0 then some .memory32
  else if content.extractLsb' 1 2 = 2 then some .memory64
  else none

def Kind.typeBits : Kind → BitVec 32
  | .io => 0x3
  | .memory32 => 0xF
  | .memory64 => 0xF

def assigned (kind : Kind) (content implemented high highImplemented : BitVec 32) : Bar :=
  let prefetchable : CInt := if content.getLsbD 3 then 1 else 0
  match kind with
  | .io => ⟨barIoSpace, sizeOf implemented, 0, (content &&& ~~~0x3).setWidth 64⟩
  | .memory32 => ⟨barMemory32, sizeOf implemented, prefetchable, (content &&& ~~~0xF).setWidth 64⟩
  | .memory64 =>
    ⟨barMemory64, sizeOf (highImplemented ++ implemented), prefetchable,
      high ++ (content &&& ~~~0xF)⟩

section Rules

variable (d : Device) (bus slot func : BitVec 8) (config : Config)

def barAddress (bar : BitVec 8) : BitVec 32 := pciAddr bus slot func (bar0Offset + bar * 4)

def commandAddress : BitVec 32 := pciAddr bus slot func commandOffset

def barCount : ℕ :=
  let headerType := headerType bus slot func config
  if headerType = headerTypeGeneral then 6
  else if headerType = headerTypePciToPciBridge then 2
  else 0

/-- The register is one of the header, and of a kind. Its type bits cannot be set, and a bit of its
address that is not implemented is 0. A pair has both of its registers in the header. -/
structure HasBar (bar : BitVec 8) (kind : Kind) : Prop where
  inside : bar.toNat < barCount bus slot func config
  pair : kind = .memory64 → bar.toNat + 1 < barCount bus slot func config
  tells : kindOf (config (barAddress bus slot func bar)) = some kind
  types : d.implemented (barAddress bus slot func bar) &&& kind.typeBits = 0
  zeros : config (barAddress bus slot func bar) &&&
    ~~~(d.implemented (barAddress bus slot func bar) ||| kind.typeBits) = 0
  kept : d.cleared (barAddress bus slot func bar) = 0
  keptCommand : d.cleared (commandAddress bus slot func) &&& 0xFFFF = 0

def Restored (config' : Config) : Prop :=
  (config' (commandAddress bus slot func)).setWidth 16 =
      (config (commandAddress bus slot func)).setWidth 16 ∧
    ∀ bar : BitVec 8, bar.toNat < barCount bus slot func config →
      config' (barAddress bus slot func bar) = config (barAddress bus slot func bar)

/-- The call returns what the register stands for, and the registers are what they were. -/
def Decodes (bar : BitVec 8) (kind : Kind) : Prop :=
  let address := barAddress bus slot func bar
  let next := barAddress bus slot func (bar + 1)
  (readBar d bus slot func bar config).1 = some (assigned kind (config address)
      (d.implemented address) (config next) (d.implemented next)) ∧
    Restored bus slot func config (readBar d bus slot func bar config).2

structure Simple (bar : BitVec 8) (kind : Kind) : Prop where
  single : kind ≠ .memory64
  bits : kind = .io → config (barAddress bus slot func bar) &&& barMemory64 = 0 ∨
    config (barAddress bus slot func bar) &&& barMemory16 ≠ 0
  gapless : ∃ n ≤ 32, d.implemented (barAddress bus slot func bar) = BitVec.allOnes 32 <<< n

end Rules

section Registers

variable {d : Device} {bus slot func : BitVec 8} {config : Config}

theorem pciAddr_low (offset : BitVec 8) :
    (pciAddr bus slot func offset).setWidth 8 = offset &&& 0xFC := by
  apply BitVec.eq_of_getLsbD_eq
  intro i hi
  simp [pciAddr]

theorem pciAddr_congr {offset offset' : BitVec 8} (h : offset &&& 0xFC = offset' &&& 0xFC) :
    pciAddr bus slot func offset = pciAddr bus slot func offset' := by
  rw [pciAddr, pciAddr, h]

theorem commandAddress_ne (bar : BitVec 8) (hbar : bar.toNat < 6) :
    barAddress bus slot func bar ≠ commandAddress bus slot func := by
  intro h
  have hlow := congrArg (BitVec.setWidth 8) h
  rw [barAddress, commandAddress, pciAddr_low, pciAddr_low] at hlow
  have hne : ∀ b : BitVec 8, b.toNat < 6 →
      (bar0Offset + b * 4) &&& 0xFC ≠ commandOffset &&& 0xFC := by decide
  exact hne bar hbar hlow

theorem barCount_le (bus slot func : BitVec 8) (config : Config) :
    barCount bus slot func config ≤ 6 := by
  simp only [barCount]
  split_ifs <;> omega

theorem read_register (offset : BitVec 8) :
    readConfigOffset config bus slot func offset 4 = config (pciAddr bus slot func offset) := by
  simp [readConfigOffset]

def ones (d : Device) (address old : BitVec 32) : BitVec 32 := d.written address old 0xFFFFFFFF

theorem getElem_allOnes : ∀ (i : ℕ) (_ : i < 32), (0xFFFFFFFF#32)[i] = true := by
  decide

theorem written_of_kept {address : BitVec 32} (hkept : d.cleared address = 0)
    (old value : BitVec 32) : d.written address old value =
      (old &&& ~~~d.implemented address) ||| (value &&& d.implemented address) := by
  ext i hi
  simp [Device.written, hkept, getElem_allOnes i hi]

theorem ones_eq {address : BitVec 32} (hkept : d.cleared address = 0) (old : BitVec 32) :
    ones d address old = old ||| d.implemented address := by
  rw [ones, written_of_kept hkept]
  ext i hi
  simp [getElem_allOnes i hi]
  grind

/-- A register that is written back holds what it held. -/
theorem written_back {address : BitVec 32} (hkept : d.cleared address = 0) (old : BitVec 32) :
    d.written address (ones d address old) old = old := by
  rw [ones_eq hkept, written_of_kept hkept]
  ext i hi
  simp
  grind

/-- Ones are written to a register, and what it held is written back. -/
theorem probe_config {offset : BitVec 8} (hkept : d.cleared (pciAddr bus slot func offset) = 0)
    (config : Config) :
    writeConfigOffset d bus slot func
        (writeConfigOffset d bus slot func config offset 0xFFFFFFFF) offset
        (config (pciAddr bus slot func offset)) = config := by
  have hback := written_back hkept (config (pciAddr bus slot func offset))
  simp only [ones] at hback
  simp only [writeConfigOffset, Function.update_self, Function.update_idem, hback,
    Function.update_eq_self]

theorem probe_read (config : Config) (offset : BitVec 8) :
    writeConfigOffset d bus slot func config offset 0xFFFFFFFF (pciAddr bus slot func offset) =
      ones d (pciAddr bus slot func offset) (config (pciAddr bus slot func offset)) := by
  simp only [writeConfigOffset, Function.update_self, ones]

/-- The offset behind that of a register is an offset of the same register. -/
theorem pciAddr_next (bar : BitVec 8) :
    pciAddr bus slot func (bar0Offset + bar * 4 + 1) =
      pciAddr bus slot func (bar0Offset + bar * 4) := by
  have hmask : ∀ b : BitVec 8,
      (bar0Offset + b * 4 + 1) &&& 0xFC = (bar0Offset + b * 4) &&& 0xFC := by decide
  exact pciAddr_congr (hmask bar)

theorem writeConfigOffset_next (config : Config) (bar : BitVec 8) (value : BitVec 32) :
    writeConfigOffset d bus slot func config (bar0Offset + bar * 4 + 1) value =
      writeConfigOffset d bus slot func config (bar0Offset + bar * 4) value := by
  simp only [writeConfigOffset, pciAddr_next]

def restored (d : Device) (bus slot func : BitVec 8) (config : Config) : Config :=
  let command := config (commandAddress bus slot func)
  writeConfigOffset d bus slot func (writeConfigOffset d bus slot func config commandOffset
    (command &&& ~~~commandSpaces)) commandOffset command

/-- What the call makes of a register that holds `content`, and `size` after ones were written to
it. It takes both for the upper half too. -/
def decode (content size : BitVec 32) : Option Bar :=
  let prefetchable : CInt := if content &&& 0x8 ≠ 0 then 1 else 0
  if content &&& barMemory64 ≠ 0 ∧ content &&& barMemory16 = 0 then
    some ⟨barMemory64, ~~~((size.setWidth 64 <<< 32) ||| (size &&& ~~~0xF).setWidth 64) + 1,
      prefetchable,
      (content &&& 0xFFFFFFF0).setWidth 64 ||| ((content &&& 0xFFFFFFFF).setWidth 64 <<< 32)⟩
  else if content &&& barIoSpace ≠ 0 then
    some ⟨barIoSpace, (~~~(size &&& ~~~0x3) + 1).setWidth 64, 0,
      (content &&& 0xFFFFFFFC).setWidth 64⟩
  else if content &&& barMemory16 ≠ 0 then none
  else
    some ⟨barMemory32, (~~~(size &&& ~~~0xF) + 1).setWidth 64, prefetchable,
      (content &&& 0xFFFFFFF0).setWidth 64⟩

theorem readBar_eq {bar : BitVec 8} (hinside : bar.toNat < barCount bus slot func config)
    (hkept : d.cleared (barAddress bus slot func bar) = 0) :
    readBar d bus slot func bar config =
      (decode (config (barAddress bus slot func bar)) (ones d (barAddress bus slot func bar)
        (config (barAddress bus slot func bar))), restored d bus slot func config) := by
  have hsix := barCount_le bus slot func config
  have hne : pciAddr bus slot func (bar0Offset + bar * 4) ≠ pciAddr bus slot func commandOffset :=
    commandAddress_ne bar (by omega)
  have hheader : ¬(headerType bus slot func config ≠ headerTypeGeneral ∧
      headerType bus slot func config ≠ headerTypePciToPciBridge) := by
    intro h
    simp [barCount, h.1, h.2] at hinside
  have hlimits : ¬(bar > 5 ∨ (headerType bus slot func config = headerTypePciToPciBridge ∧
      bar > 1)) := by
    rintro (hlarge | ⟨hbridge, hlarge⟩)
    · have hlt : 5 < bar.toNat := hlarge
      omega
    · have hlt : 1 < bar.toNat := hlarge
      have htwo : headerTypePciToPciBridge ≠ headerTypeGeneral := by decide
      simp only [barCount, hbridge, htwo, if_false, if_true] at hinside
      omega
  have hoff : writeConfigOffset d bus slot func config commandOffset
      (config (pciAddr bus slot func commandOffset) &&& ~~~commandSpaces)
        (pciAddr bus slot func (bar0Offset + bar * 4)) =
      config (pciAddr bus slot func (bar0Offset + bar * 4)) := by
    rw [writeConfigOffset, Function.update_of_ne hne]
  have hprobe := probe_config hkept (writeConfigOffset d bus slot func config commandOffset
    (config (pciAddr bus slot func commandOffset) &&& ~~~commandSpaces))
  rw [hoff] at hprobe
  simp only [readBar, hheader, hlimits, if_false, read_register, pciAddr_next,
    writeConfigOffset_next, probe_read, hprobe, hoff]
  simp only [decode, restored, commandAddress, barAddress]
  by_cases hwide : config (pciAddr bus slot func (bar0Offset + bar * 4)) &&& barMemory64 ≠ 0 ∧
      config (pciAddr bus slot func (bar0Offset + bar * 4)) &&& barMemory16 = 0
  · rw [if_pos hwide]
    exact Prod.ext (if_pos hwide).symm rfl
  · rw [if_neg hwide]
    by_cases hio : config (pciAddr bus slot func (bar0Offset + bar * 4)) &&& barIoSpace ≠ 0
    · rw [if_pos hio]
      exact Prod.ext ((if_neg hwide).trans (if_pos hio)).symm rfl
    · rw [if_neg hio]
      by_cases hreserved : config (pciAddr bus slot func (bar0Offset + bar * 4)) &&&
          barMemory16 ≠ 0
      · rw [if_pos hreserved]
        exact Prod.ext ((if_neg hwide).trans ((if_neg hio).trans (if_pos hreserved))).symm rfl
      · rw [if_neg hreserved]
        exact Prod.ext ((if_neg hwide).trans ((if_neg hio).trans (if_neg hreserved))).symm rfl

end Registers

section Restores

variable {d : Device} {bus slot func : BitVec 8}

/-- The command register is written back after the spaces were turned off. -/
theorem restored_restores (config : Config)
    (hkept : d.cleared (commandAddress bus slot func) &&& 0xFFFF = 0) :
    Restored bus slot func config (restored d bus slot func config) := by
  have hbits : ∀ i < 16, (d.cleared (commandAddress bus slot func)).getLsbD i = false := by
    intro i hi
    have hbit := congrArg (fun x => BitVec.getLsbD x i) hkept
    have hmask : ∀ i < 16, (0xFFFF#32).getLsbD i = true := by decide
    simpa [hmask i hi] using hbit
  refine ⟨?_, ?_⟩
  · apply BitVec.eq_of_getLsbD_eq
    intro i hi
    have hlt : i < 32 := by omega
    have hbit := hbits i hi
    simp only [restored, writeConfigOffset, commandAddress, Function.update_self] at hbit ⊢
    rw [BitVec.getLsbD_eq_getElem hlt] at hbit
    simp [Device.written, hbit, hi, hlt]
    grind
  · intro bar hbar
    have hsix := barCount_le bus slot func config
    have hne : barAddress bus slot func bar ≠ pciAddr bus slot func commandOffset :=
      commandAddress_ne bar (by omega)
    simp only [restored, writeConfigOffset, Function.update_of_ne hne]

end Restores

section Sizes

/-- Only where the bits go on to the last one, the complement gives the lowest. -/
theorem neg_eq_sizeOf_iff (k : BitVec 32) :
    (~~~k + 1).setWidth 64 = sizeOf k ↔ ∃ n ≤ 32, k = BitVec.allOnes 32 <<< n := by
  have hneg : ~~~k + 1 = -k := (BitVec.neg_eq_not_add k).symm
  have hshift : ∀ n < 32, (-(1#32 <<< n) : BitVec 32) = BitVec.allOnes 32 <<< n := by decide
  have hall : ∀ n ≤ 32, (-(BitVec.allOnes 32 <<< n)).setWidth 64 =
      sizeOf (BitVec.allOnes 32 <<< n) := by decide +kernel
  rw [hneg]
  constructor
  · intro h
    by_cases hzero : k = 0
    · exact ⟨32, Nat.le_refl 32, by rw [hzero]; decide⟩
    · have hlt : k.ctz.toNat < 32 := by
        have h := BitVec.ctz_lt_iff_ne_zero.mpr hzero
        exact h
      refine ⟨k.ctz.toNat, hlt.le, ?_⟩
      have hlow := congrArg (BitVec.setWidth 32) h
      rw [sizeOf, if_neg hzero] at hlow
      have hself : -k = 1#32 <<< k.ctz.toNat := by simpa using hlow
      rw [← hshift _ hlt, ← hself, BitVec.neg_neg]
  · rintro ⟨n, hn, rfl⟩
    exact hall n hn

end Sizes

section Kinds

variable {content implemented : BitVec 32}

/-- The ones that are read back without the type bits. -/
theorem or_and_not {types : BitVec 32} (htypes : implemented &&& types = 0)
    (hzeros : content &&& ~~~(implemented ||| types) = 0) :
    (content ||| implemented) &&& ~~~types = implemented := by
  ext i hi
  have htype := congrArg (fun x => BitVec.getLsbD x i) htypes
  have hzero := congrArg (fun x => BitVec.getLsbD x i) hzeros
  simp [hi] at htype hzero ⊢
  grind

theorem bit_eq_zero_iff (n : ℕ) (hn : n < 32) :
    content &&& 1#32 <<< n = 0 ↔ content.getLsbD n = false :=
  Bitmap.and_mask_eq_zero_iff hn

theorem bit_ne_zero_iff (n : ℕ) (hn : n < 32) :
    content &&& 1#32 <<< n ≠ 0 ↔ content.getLsbD n = true := by
  rw [ne_eq, bit_eq_zero_iff n hn, Bool.not_eq_false]

/-- A pair is never as large as the call makes it, which takes the lower register for both: its
type bits stand where the upper half has bits of the size. -/
theorem wide_ne_sizeOf {high : BitVec 32} (htypes : implemented &&& 0xF = 0)
    (hzeros : content &&& ~~~(implemented ||| 0xF) = 0) (hbit1 : content.getLsbD 1 = false)
    (hbit2 : content.getLsbD 2 = true) :
    ~~~(((content ||| implemented).setWidth 64 <<< 32) |||
      ((content ||| implemented) &&& ~~~0xF).setWidth 64) + 1 ≠ sizeOf (high ++ implemented) := by
  have hlow : implemented.getLsbD 1 = false := by
    have hbit := congrArg (fun x => BitVec.getLsbD x 1) htypes
    simpa using hbit
  have hlast : implemented.getLsbD 31 = false → content.getLsbD 31 = false := by
    intro hnone
    have hbit := congrArg (fun x => BitVec.getLsbD x 31) hzeros
    simp at hnone hbit ⊢
    grind
  have hneg : ∀ x : BitVec 64, ~~~x + 1 = -x := fun x => (BitVec.neg_eq_not_add x).symm
  rw [or_and_not htypes hzeros, hneg]
  intro h
  have hbits : ∀ i < 32, ((content ||| implemented).setWidth 64 <<< 32 |||
      implemented.setWidth 64).getLsbD (i + 32) =
        (content.getLsbD i || implemented.getLsbD i) := by
    intro i hi
    have hinside : i + 32 < 64 := by omega
    have hbehind : ¬i + 32 < 32 := by omega
    simp [hi, hinside, hbehind]
  by_cases hzero : high ++ implemented = (0 : BitVec (32 + 32))
  · rw [sizeOf, if_pos hzero] at h
    have hbit := hbits 2 (by decide)
    rw [BitVec.neg_eq_zero_iff.mp h, hbit2] at hbit
    simp at hbit
  · have hlt : (high ++ implemented).ctz.toNat < 64 := BitVec.ctz_lt_iff_ne_zero.mpr hzero
    have hshift : ∀ n < 64, (-(1#64 <<< n) : BitVec 64) = BitVec.allOnes 64 <<< n := by decide
    have hsize : -((content ||| implemented).setWidth 64 <<< 32 ||| implemented.setWidth 64) =
        1#64 <<< (high ++ implemented).ctz.toNat := by
      rw [h, sizeOf, if_neg hzero]
    have hones : (content ||| implemented).setWidth 64 <<< 32 ||| implemented.setWidth 64 =
        BitVec.allOnes 64 <<< (high ++ implemented).ctz.toNat := by
      rw [← hshift _ hlt, ← hsize, BitVec.neg_neg]
    rw [hones] at hbits
    have h1 := hbits 1 (by decide)
    have h2 := hbits 2 (by decide)
    have h31 := hbits 31 (by decide)
    simp only [BitVec.getLsbD_shiftLeft, BitVec.getLsbD_allOnes, hbit1, hbit2, hlow] at h1 h2 h31
    have hnone : implemented.getLsbD 31 = false := by
      have hbelow := BitVec.getLsbD_false_of_lt_ctz (x := high ++ implemented) (i := 31) (by
        simp at h1
        omega)
      rwa [BitVec.getLsbD_append, if_pos (by decide)] at hbelow
    rw [hnone, hlast hnone] at h31
    simp at h1 h2 h31
    omega

theorem kindOf_bits {kind : Kind} (h : kindOf content = some kind) :
    match kind with
    | .io => content.getLsbD 0 = true
    | .memory32 => content.getLsbD 0 = false ∧ content.getLsbD 1 = false ∧
        content.getLsbD 2 = false
    | .memory64 => content.getLsbD 0 = false ∧ content.getLsbD 1 = false ∧
        content.getLsbD 2 = true := by
  have hfirst : (content.extractLsb' 1 2).getLsbD 0 = content.getLsbD 1 := by simp
  have hsecond : (content.extractLsb' 1 2).getLsbD 1 = content.getLsbD 2 := by simp
  unfold kindOf at h
  split_ifs at h with hio hnarrow hwide
  · obtain rfl := Option.some.inj h
    exact hio
  · obtain rfl := Option.some.inj h
    rw [hnarrow] at hfirst hsecond
    exact ⟨Bool.eq_false_iff.mpr hio, hfirst.symm, hsecond.symm⟩
  · obtain rfl := Option.some.inj h
    rw [hwide] at hfirst hsecond
    exact ⟨Bool.eq_false_iff.mpr hio, hfirst.symm, hsecond.symm⟩

/-- An I/O register is decoded unless its address makes it look like a pair. -/
theorem decode_io_iff (htells : content.getLsbD 0 = true) (htypes : implemented &&& 0x3 = 0)
    (hzeros : content &&& ~~~(implemented ||| 0x3) = 0) (high highImplemented : BitVec 32) :
    decode content (content ||| implemented) =
        some (assigned .io content implemented high highImplemented) ↔
      (content &&& barMemory64 = 0 ∨ content &&& barMemory16 ≠ 0) ∧
        ∃ n ≤ 32, implemented = BitVec.allOnes 32 <<< n := by
  have hio : content &&& barIoSpace ≠ 0 := (bit_ne_zero_iff 0 (by decide)).mpr htells
  rw [← neg_eq_sizeOf_iff]
  by_cases hwide : content &&& barMemory64 ≠ 0 ∧ content &&& barMemory16 = 0
  · have htype : barMemory64 ≠ barIoSpace := by decide
    rw [decode, if_pos hwide]
    simp only [assigned, Option.some.injEq, Bar.mk.injEq, htype, false_and, false_iff]
    rintro ⟨h | h, -⟩
    · exact hwide.1 h
    · exact h hwide.2
  · have hbits : content &&& barMemory64 = 0 ∨ content &&& barMemory16 ≠ 0 := by
      by_contra hnot
      exact hwide ((not_or.mp hnot).imp id not_not.mp)
    have hmask : content &&& 0xFFFFFFFC = content &&& ~~~0x3 := by
      have hliteral : (0xFFFFFFFC : BitVec 32) = ~~~0x3 := by decide
      rw [hliteral]
    rw [decode, if_neg hwide, if_pos hio, or_and_not htypes hzeros, hmask]
    simp only [assigned, Option.some.injEq, Bar.mk.injEq, hbits, true_and, and_true]

/-- A register of 32 bits is decoded. -/
theorem decode_memory32_iff (hbit0 : content.getLsbD 0 = false) (hbit1 : content.getLsbD 1 = false)
    (hbit2 : content.getLsbD 2 = false) (htypes : implemented &&& 0xF = 0)
    (hzeros : content &&& ~~~(implemented ||| 0xF) = 0) (high highImplemented : BitVec 32) :
    decode content (content ||| implemented) =
        some (assigned .memory32 content implemented high highImplemented) ↔
      ∃ n ≤ 32, implemented = BitVec.allOnes 32 <<< n := by
  have hwide : ¬(content &&& barMemory64 ≠ 0 ∧ content &&& barMemory16 = 0) := by
    rintro ⟨h, -⟩
    exact h ((bit_eq_zero_iff 2 (by decide)).mpr hbit2)
  have hio : ¬content &&& barIoSpace ≠ 0 :=
    not_not.mpr ((bit_eq_zero_iff 0 (by decide)).mpr hbit0)
  have hreserved : ¬content &&& barMemory16 ≠ 0 :=
    not_not.mpr ((bit_eq_zero_iff 1 (by decide)).mpr hbit1)
  have hmask : content &&& 0xFFFFFFF0 = content &&& ~~~0xF := by
    have hliteral : (0xFFFFFFF0 : BitVec 32) = ~~~0xF := by decide
    rw [hliteral]
  have hprefetch : (if content &&& 0x8 ≠ 0 then (1 : CInt) else 0) =
      if content.getLsbD 3 then 1 else 0 :=
    ite_congr (propext (bit_ne_zero_iff 3 (by decide))) (fun _ => rfl) fun _ => rfl
  rw [← neg_eq_sizeOf_iff, decode, if_neg hwide, if_neg hio, if_neg hreserved,
    or_and_not htypes hzeros, hmask, hprefetch]
  simp only [assigned, Option.some.injEq, Bar.mk.injEq, true_and, and_true]

theorem decode_memory64_ne (hbit1 : content.getLsbD 1 = false) (hbit2 : content.getLsbD 2 = true)
    (htypes : implemented &&& 0xF = 0) (hzeros : content &&& ~~~(implemented ||| 0xF) = 0)
    (high highImplemented : BitVec 32) :
    decode content (content ||| implemented) ≠
      some (assigned .memory64 content implemented high highImplemented) := by
  have hwide : content &&& barMemory64 ≠ 0 ∧ content &&& barMemory16 = 0 :=
    ⟨(bit_ne_zero_iff 2 (by decide)).mpr hbit2, (bit_eq_zero_iff 1 (by decide)).mpr hbit1⟩
  intro h
  rw [decode, if_pos hwide] at h
  simp only [assigned, Option.some.injEq, Bar.mk.injEq] at h
  exact wide_ne_sizeOf htypes hzeros hbit1 hbit2 h.2.1

end Kinds


/-- For every register of a header: the call returns what the register stands for, with the command
register and the base address registers as they were, exactly when the register is none of a pair,
no I/O register whose address makes it look like one, and has no gap above its lowest bit. -/
theorem decodes_iff (d : Device) (bus slot func bar : BitVec 8) (config : Config) (kind : Kind)
    (h : HasBar d bus slot func config bar kind) :
    Decodes d bus slot func config bar kind ↔ Simple d bus slot func config bar kind := by
  have hrestored := restored_restores config h.keptCommand
  have hones := ones_eq h.kept (config (barAddress bus slot func bar))
  have hbits := kindOf_bits h.tells
  have htypes := h.types
  have hzeros := h.zeros
  simp only [Decodes, readBar_eq h.inside h.kept, hones, hrestored, and_true]
  cases kind with
  | io =>
    rw [decode_io_iff hbits htypes hzeros]
    exact ⟨fun h => ⟨by decide, fun _ => h.1, h.2⟩, fun h => ⟨h.bits rfl, h.gapless⟩⟩
  | memory32 =>
    rw [decode_memory32_iff hbits.1 hbits.2.1 hbits.2.2 htypes hzeros]
    exact ⟨fun h => ⟨by decide, fun h => absurd h (by decide), h⟩, fun h => h.gapless⟩
  | memory64 =>
    constructor
    · intro hdecode
      exact absurd hdecode (decode_memory64_ne hbits.2.1 hbits.2.2 htypes hzeros _ _)
    · intro hsimple
      exact absurd rfl hsimple.single

/-- A device whose first base address register has the bits of `mask`. -/
def sampleDevice (mask : BitVec 32) : Device :=
  ⟨fun address => if address = 0x80000010 then mask else 0, fun _ => 0⟩

/-- A general header, with `content` in the first base address register. -/
def sampleConfig (content : BitVec 32) : Config :=
  fun address => if address = 0x80000010 then content else 0

/-- 64 KiB of prefetchable memory. -/
theorem decodes_memory :
    Decodes (sampleDevice 0xFFFF0000) 0 0 0 (sampleConfig 0xFEBF0008) 0 .memory32 := by
  have hbar : HasBar (sampleDevice 0xFFFF0000) 0 0 0 (sampleConfig 0xFEBF0008) 0 .memory32 :=
    ⟨by decide, by decide, by decide, by decide, by decide, by decide, by decide⟩
  have hgapless : ∃ n ≤ 32, (0xFFFF0000 : BitVec 32) = BitVec.allOnes 32 <<< n :=
    ⟨16, by decide, by decide⟩
  exact (decodes_iff (sampleDevice 0xFFFF0000) 0 0 0 0 (sampleConfig 0xFEBF0008) .memory32 hbar).mpr
    ⟨by decide, by decide, hgapless⟩

/-- Four ports from 0xC004 on are taken for a pair. -/
theorem ports_taken_for_pair :
    HasBar (sampleDevice 0xFFFFFFFC) 0 0 0 (sampleConfig 0xC005) 0 .io ∧
      ¬Decodes (sampleDevice 0xFFFFFFFC) 0 0 0 (sampleConfig 0xC005) 0 .io := by
  refine ⟨⟨by decide, by decide, by decide, by decide, by decide, by decide, by decide⟩, ?_⟩
  intro h
  exact absurd h.1 (by decide)

end ReduceOS.PciBar
