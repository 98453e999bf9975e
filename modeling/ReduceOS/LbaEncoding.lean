import ReduceOS.Machine
import Mathlib.Tactic.IntervalCases

/-!
How the two disk drivers hand an address and a count to the device: the command FIS of
`ahci_portOperate` and the register writes of `ata_access`. Both split the address in the
same way; the FIS drops the top nibble of a 28-bit address, and the register writes leave
out the high bytes of a 48-bit address whose fourth byte is zero, so that the device finds
those of an earlier command in their place.
-/
namespace ReduceOS.LbaEncoding

open Machine

inductive Operation
  | read
  | write
  deriving DecidableEq

/-- `lba_data`, six bytes from the low one up; the upper three stay zero below 2^28. -/
structure LbaData where
  byte0 : BitVec 8
  byte1 : BitVec 8
  byte2 : BitVec 8
  byte3 : BitVec 8
  byte4 : BitVec 8
  byte5 : BitVec 8

def isLba48 (lba : Addr) : Bool := decide (0x10000000#64 ≤ lba)

def lbaData (lba : Addr) : LbaData where
  byte0 := ((lba &&& 0x00000000000000FF#64) >>> 0).setWidth 8
  byte1 := ((lba &&& 0x000000000000FF00#64) >>> 8).setWidth 8
  byte2 := ((lba &&& 0x0000000000FF0000#64) >>> 16).setWidth 8
  byte3 := if isLba48 lba then ((lba &&& 0x00000000FF000000#64) >>> 24).setWidth 8 else 0
  byte4 := if isLba48 lba then ((lba &&& 0x000000FF00000000#64) >>> 32).setWidth 8 else 0
  byte5 := if isLba48 lba then ((lba &&& 0x0000FF0000000000#64) >>> 40).setWidth 8 else 0

section Commands

def ataCmdReadPio : BitVec 8 := 0x20
def ataCmdReadPioExt : BitVec 8 := 0x24
def ataCmdReadDma : BitVec 8 := 0xC8
def ataCmdReadDmaExt : BitVec 8 := 0x25
def ataCmdWritePio : BitVec 8 := 0x30
def ataCmdWritePioExt : BitVec 8 := 0x34
def ataCmdWriteDma : BitVec 8 := 0xCA
def ataCmdWriteDmaExt : BitVec 8 := 0x35

def addressWidth (command : BitVec 8) : Option ℕ :=
  if command ∈ [ataCmdReadPio, ataCmdReadDma, ataCmdWritePio, ataCmdWriteDma] then some 28
  else if command ∈ [ataCmdReadPioExt, ataCmdReadDmaExt, ataCmdWritePioExt, ataCmdWriteDmaExt] then
    some 48
  else none

structure Taskfile where
  command : BitVec 8
  device : BitVec 8
  lba : BitVec 8 × BitVec 8 × BitVec 8
  lbaHigh : BitVec 8 × BitVec 8 × BitVec 8
  count : BitVec 8
  countHigh : BitVec 8

def value3 (bytes : BitVec 8 × BitVec 8 × BitVec 8) : ℕ :=
  bytes.1.toNat + 2 ^ 8 * bytes.2.1.toNat + 2 ^ 16 * bytes.2.2.toNat

def countOf (width value : ℕ) : ℕ := if value = 0 then 2 ^ width else value

/-- The ATA rules: the address and the count of a command, if its LBA bit is set. -/
def decode (t : Taskfile) : Option (ℕ × ℕ) :=
  if t.device.getLsbD 6 then
    match addressWidth t.command with
    | some 28 => some (value3 t.lba + 2 ^ 24 * (t.device.toNat % 16), countOf 8 t.count.toNat)
    | some 48 => some (value3 t.lba + 2 ^ 24 * value3 t.lbaHigh,
        countOf 16 (t.count.toNat + 2 ^ 8 * t.countHigh.toNat))
    | _ => none
  else none

end Commands

section Ahci

inductive AhciDevice
  | sata
  | satapi
  | other
  deriving DecidableEq

structure AhciPort where
  type : AhciDevice
  /-- bit 26 of `ident->command_sets` -/
  lba48 : Bool

/-- The fields of `ahci_fis_h2d_t` that carry the command. -/
structure AhciFisH2d where
  command : BitVec 8
  device : BitVec 8
  lba0 : BitVec 8
  lba1 : BitVec 8
  lba2 : BitVec 8
  lba3 : BitVec 8
  lba4 : BitVec 8
  lba5 : BitVec 8
  countl : BitVec 8
  counth : BitVec 8

def ahciCommand (operation : Operation) (lba48 : Bool) : BitVec 8 :=
  match operation, lba48 with
  | .read, false => ataCmdReadDma
  | .read, true => ataCmdReadDmaExt
  | .write, false => ataCmdWriteDma
  | .write, true => ataCmdWriteDmaExt

/-- The FIS `ahci_portOperate` sends, if it gets that far. ATAPI commands are not implemented. -/
def ahciPortOperate (port : AhciPort) (operation : Operation) (lba sectors : Addr) :
    Option AhciFisH2d :=
  if sectors = 0 then none
  else if port.type ≠ .sata then none
  else if isLba48 lba && !port.lba48 then none
  else
    let data := lbaData lba
    some {
      command := ahciCommand operation (isLba48 lba)
      device := 1 <<< 6
      lba0 := data.byte0
      lba1 := data.byte1
      lba2 := data.byte2
      lba3 := data.byte3
      lba4 := data.byte4
      lba5 := data.byte5
      countl := (sectors &&& 0xFF#64).setWidth 8
      counth := ((sectors >>> 8) &&& 0xFF#64).setWidth 8 }

def AhciFisH2d.taskfile (fis : AhciFisH2d) : Taskfile where
  command := fis.command
  device := fis.device
  lba := (fis.lba0, fis.lba1, fis.lba2)
  lbaHigh := (fis.lba3, fis.lba4, fis.lba5)
  count := fis.countl
  countHigh := fis.counth

end Ahci

section Ide

structure Fifo where
  current : BitVec 8
  previous : BitVec 8

def Fifo.push (fifo : Fifo) (data : BitVec 8) : Fifo := ⟨data, fifo.current⟩

structure Registers where
  secCount : Fifo
  lba0 : Fifo
  lba1 : Fifo
  lba2 : Fifo
  hdDevSel : BitVec 8
  command : BitVec 8

def ataRegSeccount0 : ℕ := 0x02
def ataRegLba0 : ℕ := 0x03
def ataRegLba1 : ℕ := 0x04
def ataRegLba2 : ℕ := 0x05
def ataRegHddevsel : ℕ := 0x06
def ataRegCommand : ℕ := 0x07
def ataRegLba3 : ℕ := 0x09
def ataRegLba4 : ℕ := 0x0A
def ataRegLba5 : ℕ := 0x0B

/-- A byte written to a port of the command block, counted from `io_base`. -/
def outportb (r : Registers) (port : ℕ) (data : BitVec 8) : Registers :=
  match port with
  | 2 => { r with secCount := r.secCount.push data }
  | 3 => { r with lba0 := r.lba0.push data }
  | 4 => { r with lba1 := r.lba1.push data }
  | 5 => { r with lba2 := r.lba2.push data }
  | 6 => { r with hdDevSel := data }
  | 7 => { r with command := data }
  | _ => r

/-- `ide_write`: the high registers share the ports of the low ones, and writes to the control
block, as the ones around them that set HOB, reach none of these registers. -/
def ideWrite (r : Registers) (reg : ℕ) (data : BitVec 8) : Registers :=
  if reg < 0x08 then outportb r reg data
  else if reg < 0x0C then outportb r (reg - 0x06) data
  else r

structure IdeDevice where
  /-- bit 9 of `ident.capabilities` -/
  lba : Bool
  /-- bit 26 of `ident.command_sets` -/
  lba48 : Bool
  slave : Bool

def ataCommand (operation : Operation) (lba48 : Bool) : BitVec 8 :=
  match operation, lba48 with
  | .read, false => ataCmdReadPio
  | .read, true => ataCmdReadPioExt
  | .write, false => ataCmdWritePio
  | .write, true => ataCmdWritePioExt

def selBits (lba : Addr) : BitVec 8 :=
  if isLba48 lba then 0#8 else ((lba &&& 0x0F000000#64) >>> 24).setWidth 8

def driveSelect (device : IdeDevice) (lba : Addr) : BitVec 8 :=
  0xE0#8 ||| ((if device.slave then 1#8 else 0#8) <<< 4) ||| selBits lba

/-- The registers when `ata_access` sends its command, if it gets that far. The high bytes go
out if the fourth byte of the address is not zero. -/
def ataAccess (pioOnly : Bool) (device : IdeDevice) (r : Registers) (operation : Operation)
    (lba sectors : Addr) : Option Registers :=
  if !pioOnly then none
  else if !device.lba then none
  else if isLba48 lba && !device.lba48 then none
  else
    let data := lbaData lba
    let r := ideWrite r ataRegHddevsel (driveSelect device lba)
    let r :=
      if data.byte3 ≠ 0 then
        let r := ideWrite r ataRegSeccount0 (((sectors &&& 0xFF00#64) >>> 8).setWidth 8)
        let r := ideWrite r ataRegLba3 data.byte3
        let r := ideWrite r ataRegLba4 data.byte4
        ideWrite r ataRegLba5 data.byte5
      else r
    let r := ideWrite r ataRegSeccount0 ((sectors &&& 0xFF#64).setWidth 8)
    let r := ideWrite r ataRegLba0 data.byte0
    let r := ideWrite r ataRegLba1 data.byte1
    let r := ideWrite r ataRegLba2 data.byte2
    some (ideWrite r ataRegCommand (ataCommand operation (isLba48 lba)))

def Registers.taskfile (r : Registers) : Taskfile where
  command := r.command
  device := r.hdDevSel
  lba := (r.lba0.current, r.lba1.current, r.lba2.current)
  lbaHigh := (r.lba0.previous, r.lba1.previous, r.lba2.previous)
  count := r.secCount.current
  countHigh := r.secCount.previous

end Ide

section Bytes

variable {lba sectors : Addr}

theorem toNat_setWidth_shiftRight (x : Addr) (k : ℕ) :
    ((x >>> k).setWidth 8).toNat = x.toNat / 2 ^ k % 2 ^ 8 := by
  rw [BitVec.toNat_setWidth, BitVec.toNat_ushiftRight, Nat.shiftRight_eq_div_pow]

/-- Masking a byte before moving it down takes nothing from it. -/
theorem toNat_masked_byte (x : Addr) {k : ℕ} (hk : k + 8 ≤ 64) :
    (((x &&& (0xFF#64 <<< k)) >>> k).setWidth 8).toNat = x.toNat / 2 ^ k % 2 ^ 8 := by
  have hsame : ((x &&& (0xFF#64 <<< k)) >>> k).setWidth 8 = (x >>> k).setWidth 8 := by
    apply BitVec.eq_of_getLsbD_eq
    intro i hi
    have hlt : k + i < 64 := by omega
    have hone : (0xFF#64).getLsbD i = true := by
      interval_cases i <;> decide
    simp [hlt, hone, hi]
  rw [hsame, toNat_setWidth_shiftRight]

theorem isLba48_iff : isLba48 lba = true ↔ 2 ^ 28 ≤ lba.toNat := by
  unfold isLba48
  rw [decide_eq_true_iff, BitVec.le_def]
  rfl

theorem value3_lbaData (lba : Addr) :
    value3 ((lbaData lba).byte0, (lbaData lba).byte1, (lbaData lba).byte2) =
      lba.toNat % 2 ^ 24 := by
  have h0 := toNat_masked_byte lba (k := 0) (by decide)
  have h1 := toNat_masked_byte lba (k := 8) (by decide)
  have h2 := toNat_masked_byte lba (k := 16) (by decide)
  change (lbaData lba).byte0.toNat = _ at h0
  change (lbaData lba).byte1.toNat = _ at h1
  change (lbaData lba).byte2.toNat = _ at h2
  simp only [value3, h0, h1, h2]
  omega

/-- The upper three bytes of a 48-bit address. -/
theorem lbaData_high (h : isLba48 lba = true) :
    (lbaData lba).byte3.toNat = lba.toNat / 2 ^ 24 % 2 ^ 8 ∧
      (lbaData lba).byte4.toNat = lba.toNat / 2 ^ 32 % 2 ^ 8 ∧
      (lbaData lba).byte5.toNat = lba.toNat / 2 ^ 40 % 2 ^ 8 := by
  have h3 := toNat_masked_byte lba (k := 24) (by decide)
  have h4 := toNat_masked_byte lba (k := 32) (by decide)
  have h5 := toNat_masked_byte lba (k := 40) (by decide)
  simp only [lbaData, h, if_true]
  exact ⟨h3, h4, h5⟩

theorem value3_lbaData_high (h : isLba48 lba = true) :
    value3 ((lbaData lba).byte3, (lbaData lba).byte4, (lbaData lba).byte5) =
      lba.toNat / 2 ^ 24 % 2 ^ 24 := by
  obtain ⟨h3, h4, h5⟩ := lbaData_high h
  simp only [value3, h3, h4, h5]
  omega

/-- A count survives its register if it is not zero and not too large. -/
theorem countOf_eq_iff (w n : ℕ) : countOf w (n % 2 ^ w) = n ↔ 0 < n ∧ n ≤ 2 ^ w := by
  have hpos : 0 < 2 ^ w := Nat.two_pow_pos w
  have hlt : n % 2 ^ w < 2 ^ w := Nat.mod_lt n hpos
  unfold countOf
  by_cases hn : n < 2 ^ w
  · rw [Nat.mod_eq_of_lt hn]
    split_ifs with h0 <;> omega
  · by_cases heq : n = 2 ^ w
    · simp [heq]
    · split_ifs with h0 <;> omega

/-- The same with the high byte of the count from elsewhere. -/
theorem countOf_split_iff (n : ℕ) {c : ℕ} (hc : c < 2 ^ 8) :
    countOf 16 (n % 2 ^ 8 + 2 ^ 8 * c) = n ↔ (0 < n ∧ n ≤ 2 ^ 16) ∧ c = n / 2 ^ 8 % 2 ^ 8 := by
  unfold countOf
  split_ifs with hzero
  · omega
  · omega

theorem toNat_count_low (sectors : Addr) :
    ((sectors &&& 0xFF#64).setWidth 8).toNat = sectors.toNat % 2 ^ 8 := by
  have h := toNat_masked_byte sectors (k := 0) (by decide)
  simpa using h

end Bytes

section Decoding

variable {port : AhciPort} {device : IdeDevice} {r r' : Registers} {operation : Operation}
  {lba sectors : Addr} {fis : AhciFisH2d}

/-- What the device makes of the FIS: bits 24 to 27 of a 28-bit address are missing. -/
theorem decode_ahciPortOperate (h : ahciPortOperate port operation lba sectors = some fis) :
    decode fis.taskfile = some (
      if 2 ^ 28 ≤ lba.toNat then (lba.toNat % 2 ^ 48, countOf 16 (sectors.toNat % 2 ^ 16))
      else (lba.toNat % 2 ^ 24, countOf 8 (sectors.toNat % 2 ^ 8))) := by
  unfold ahciPortOperate at h
  split_ifs at h with hnone htype hrefused
  obtain rfl := Option.some.inj h
  have hlow := value3_lbaData lba
  have hcount := toNat_count_low sectors
  have hdevice : (1 <<< 6 : BitVec 8).getLsbD 6 = true := by decide
  by_cases h48 : isLba48 lba = true
  · have hwidth : addressWidth (ahciCommand operation true) = some 48 := by
      cases operation <;> decide
    have hcountHigh := toNat_masked_byte sectors (k := 8) (by decide)
    have hshift : ((sectors >>> 8) &&& 0xFF#64).setWidth 8 =
        ((sectors &&& (0xFF#64 <<< 8)) >>> 8).setWidth 8 := by
      rw [BitVec.ushiftRight_and_distrib]
      rfl
    have hhigh := value3_lbaData_high h48
    simp only [AhciFisH2d.taskfile, decode, hdevice, h48, hwidth, if_true, hlow, hhigh, hcount,
      hshift, hcountHigh, if_pos (isLba48_iff.mp h48)]
    congr 2
    · omega
    · congr 1
      omega
  · have hwidth : addressWidth (ahciCommand operation false) = some 28 := by
      cases operation <;> decide
    have hzero : (1 <<< 6 : BitVec 8).toNat % 16 = 0 := by decide
    rw [Bool.not_eq_true] at h48
    have hsmall : ¬ 2 ^ 28 ≤ lba.toNat := fun hle => by
      rw [← isLba48_iff, h48] at hle
      contradiction
    simp only [AhciFisH2d.taskfile, decode, hdevice, h48, hwidth, if_true, hlow, hcount, hzero,
      if_neg hsmall, Nat.mul_zero, Nat.add_zero]

theorem ahci_decoded_iff (hlba : lba.toNat < 2 ^ 48)
    (h : ahciPortOperate port operation lba sectors = some fis) :
    decode fis.taskfile = some (lba.toNat, sectors.toNat) ↔
      (lba.toNat < 2 ^ 24 ∧ sectors.toNat ≤ 2 ^ 8) ∨
        (2 ^ 28 ≤ lba.toNat ∧ sectors.toNat ≤ 2 ^ 16) := by
  have hpos : 0 < sectors.toNat := by
    by_contra hzero
    have : sectors = 0 := BitVec.eq_of_toNat_eq (by simp; omega)
    simp [ahciPortOperate, this] at h
  rw [decode_ahciPortOperate h, Option.some.injEq]
  have hcount8 := countOf_eq_iff 8 sectors.toNat
  have hcount16 := countOf_eq_iff 16 sectors.toNat
  split_ifs with h48 <;> rw [Prod.mk.injEq]
  · rw [hcount16]
    omega
  · rw [hcount8]
    omega

/-- The device register has the LBA bit and the top nibble of a 28-bit address. -/
theorem driveSelect_bits (device : IdeDevice) (lba : Addr) :
    (driveSelect device lba).getLsbD 6 = true ∧
      (¬ 2 ^ 28 ≤ lba.toNat → (driveSelect device lba).toNat % 16 = lba.toNat / 2 ^ 24) := by
  constructor
  · simp [driveSelect]
  · intro hsmall
    have h48 : isLba48 lba = false := by
      rw [← Bool.not_eq_true, isLba48_iff]
      exact hsmall
    have hnibble : (driveSelect device lba).toNat % 16 = ((lba >>> 24).setWidth 4).toNat := by
      rw [show 16 = 2 ^ 4 from rfl, ← BitVec.toNat_setWidth]
      congr 1
      apply BitVec.eq_of_getLsbD_eq
      intro i hi
      cases device.slave <;> interval_cases i <;> simp [driveSelect, selBits, h48]
    rw [hnibble, BitVec.toNat_setWidth, BitVec.toNat_ushiftRight, Nat.shiftRight_eq_div_pow]
    omega

def highBytes (r : Registers) (lba : Addr) : BitVec 8 × BitVec 8 × BitVec 8 :=
  if (lbaData lba).byte3 ≠ 0 then ((lbaData lba).byte3, (lbaData lba).byte4, (lbaData lba).byte5)
  else (r.lba0.current, r.lba1.current, r.lba2.current)

def highCount (r : Registers) (lba sectors : Addr) : BitVec 8 :=
  if (lbaData lba).byte3 ≠ 0 then ((sectors &&& 0xFF00#64) >>> 8).setWidth 8
  else r.secCount.current

theorem ataAccess_registers {pioOnly : Bool}
    (h : ataAccess pioOnly device r operation lba sectors = some r') :
    r'.taskfile = {
      command := ataCommand operation (isLba48 lba)
      device := driveSelect device lba
      lba := ((lbaData lba).byte0, (lbaData lba).byte1, (lbaData lba).byte2)
      lbaHigh := highBytes r lba
      count := (sectors &&& 0xFF#64).setWidth 8
      countHigh := highCount r lba sectors } := by
  unfold ataAccess at h
  split_ifs at h
  obtain rfl := Option.some.inj h
  unfold highBytes highCount
  split_ifs <;> rfl

theorem decode_ataAccess {pioOnly : Bool}
    (h : ataAccess pioOnly device r operation lba sectors = some r') :
    decode r'.taskfile = some (
      if 2 ^ 28 ≤ lba.toNat then (lba.toNat % 2 ^ 24 + 2 ^ 24 * value3 (highBytes r lba),
        countOf 16 (sectors.toNat % 2 ^ 8 + 2 ^ 8 * (highCount r lba sectors).toNat))
      else (lba.toNat, countOf 8 (sectors.toNat % 2 ^ 8))) := by
  rw [ataAccess_registers h]
  have hlow := value3_lbaData lba
  have hcount := toNat_count_low sectors
  obtain ⟨hdevice, hnibble⟩ := driveSelect_bits device lba
  by_cases h48 : isLba48 lba = true
  · have hwidth : addressWidth (ataCommand operation true) = some 48 := by
      cases operation <;> decide
    simp only [decode, h48, if_true, hdevice, hwidth, hlow, hcount, if_pos (isLba48_iff.mp h48)]
  · have hwidth : addressWidth (ataCommand operation false) = some 28 := by
      cases operation <;> decide
    rw [Bool.not_eq_true] at h48
    have hsmall : ¬ 2 ^ 28 ≤ lba.toNat := fun hle => by
      rw [← isLba48_iff, h48] at hle
      contradiction
    simp only [decode, h48, hdevice, hwidth, if_true, hlow, hcount, hnibble hsmall, if_neg hsmall]
    congr 2
    omega

/-- Where the fourth byte of a 48-bit address is zero, the old contents of the registers must
happen to be its upper bytes. -/
def HighRight (r : Registers) (lba sectors : Addr) : Prop :=
  lba.toNat / 2 ^ 24 % 2 ^ 8 ≠ 0 ∨
    (r.lba0.current.toNat = 0 ∧ r.lba1.current.toNat = lba.toNat / 2 ^ 32 % 2 ^ 8 ∧
      r.lba2.current.toNat = lba.toNat / 2 ^ 40 % 2 ^ 8 ∧
      r.secCount.current.toNat = sectors.toNat / 2 ^ 8 % 2 ^ 8)

theorem ata_decoded_iff {pioOnly : Bool} (hlba : lba.toNat < 2 ^ 48)
    (h : ataAccess pioOnly device r operation lba sectors = some r') :
    decode r'.taskfile = some (lba.toNat, sectors.toNat) ↔
      (lba.toNat < 2 ^ 28 ∧ 0 < sectors.toNat ∧ sectors.toNat ≤ 2 ^ 8) ∨
        (2 ^ 28 ≤ lba.toNat ∧ 0 < sectors.toNat ∧ sectors.toNat ≤ 2 ^ 16 ∧
          HighRight r lba sectors) := by
  rw [decode_ataAccess h, Option.some.injEq]
  by_cases h48 : 2 ^ 28 ≤ lba.toNat
  · rw [if_pos h48, Prod.mk.injEq]
    obtain ⟨h3, h4, h5⟩ := lbaData_high (isLba48_iff.mpr h48)
    have hlt := (highCount r lba sectors).isLt
    rw [countOf_split_iff sectors.toNat hlt]
    unfold HighRight highBytes highCount
    by_cases hzero : (lbaData lba).byte3 = 0
    · have hb0 := r.lba0.current.isLt
      have hb1 := r.lba1.current.isLt
      have hb2 := r.lba2.current.isLt
      rw [hzero] at h3
      replace h3 : 0 = lba.toNat / 2 ^ 24 % 2 ^ 8 := h3
      simp only [hzero, ne_eq, not_true_eq_false, if_false, value3]
      omega
    · have hne : (lbaData lba).byte3.toNat ≠ 0 := fun h0 => hzero (BitVec.eq_of_toNat_eq h0)
      have hhigh := value3_lbaData_high (isLba48_iff.mpr h48)
      have hcount := toNat_masked_byte sectors (k := 8) (by decide)
      have hmask : 0xFF#64 <<< 8 = 0xFF00#64 := by decide
      rw [hmask] at hcount
      rw [h3] at hne
      simp only [ne_eq, hzero, not_false_eq_true, if_true, hhigh, hcount, and_true]
      omega
  · rw [if_neg h48, Prod.mk.injEq, countOf_eq_iff]
    omega

/-- When the device obtains what was asked for, from either driver. -/
theorem lba_and_count_decoded_iff {pioOnly : Bool} (hlba : lba.toNat < 2 ^ 48)
    (hahci : ahciPortOperate port operation lba sectors = some fis)
    (hide : ataAccess pioOnly device r operation lba sectors = some r') :
    (decode fis.taskfile = some (lba.toNat, sectors.toNat) ↔
      (lba.toNat < 2 ^ 24 ∧ sectors.toNat ≤ 2 ^ 8) ∨
        (2 ^ 28 ≤ lba.toNat ∧ sectors.toNat ≤ 2 ^ 16)) ∧
    (decode r'.taskfile = some (lba.toNat, sectors.toNat) ↔
      (lba.toNat < 2 ^ 28 ∧ 0 < sectors.toNat ∧ sectors.toNat ≤ 2 ^ 8) ∨
        (2 ^ 28 ≤ lba.toNat ∧ 0 < sectors.toNat ∧ sectors.toNat ≤ 2 ^ 16 ∧
          HighRight r lba sectors)) :=
  ⟨ahci_decoded_iff hlba hahci, ata_decoded_iff hlba hide⟩

def leftovers : Registers := ⟨⟨9, 9⟩, ⟨9, 9⟩, ⟨9, 9⟩, ⟨9, 9⟩, 0, 0⟩

/-- A block in the first 8 GiB, 256 sectors. -/
theorem lba_and_count_decoded_low :
    ∃ fis r', ahciPortOperate ⟨.sata, true⟩ .read 0x123456#64 256#64 = some fis ∧
      ataAccess true ⟨true, true, false⟩ leftovers .read 0x123456#64 256#64 = some r' ∧
      decode fis.taskfile = some (0x123456, 256) ∧ decode r'.taskfile = some (0x123456, 256) := by
  obtain ⟨fis, hahci⟩ : ∃ fis, ahciPortOperate ⟨.sata, true⟩ .read 0x123456#64 256#64 = some fis :=
    ⟨_, rfl⟩
  obtain ⟨r', hide⟩ : ∃ r', ataAccess true ⟨true, true, false⟩ leftovers .read 0x123456#64 256#64 =
    some r' := ⟨_, rfl⟩
  have hlba : (0x123456#64).toNat < 2 ^ 48 := by decide
  have hlow : (0x123456#64).toNat < 2 ^ 24 ∧ (256#64).toNat ≤ 2 ^ 8 := by decide
  have hlow' : (0x123456#64).toNat < 2 ^ 28 ∧ 0 < (256#64).toNat ∧ (256#64).toNat ≤ 2 ^ 8 := by
    decide
  obtain ⟨hfis, hregs⟩ := lba_and_count_decoded_iff hlba hahci hide
  exact ⟨fis, r', hahci, hide, hfis.mpr (Or.inl hlow), hregs.mpr (Or.inl hlow')⟩

/-- The nibble above bit 24 is lost in the FIS, and a 48-bit address with a zero fourth byte is
completed from the leftovers. -/
theorem lba_and_count_misread :
    (∃ fis, ahciPortOperate ⟨.sata, true⟩ .read 0x1000000#64 1#64 = some fis ∧
      decode fis.taskfile = some (0, 1)) ∧
    ∃ r', ataAccess true ⟨true, true, false⟩ leftovers .write 0x100000000#64 1#64 = some r' ∧
      decode r'.taskfile = some (0x090909000000, 0x0901) :=
  ⟨⟨_, rfl, by decide⟩, _, rfl, by decide⟩

end Decoding

end ReduceOS.LbaEncoding
