import ReduceOS.Ustar

/-!
The fields of a USTAR header. A name that fills its field has no terminator, so the string runs on
into the next field; the two name fields are joined without a separator; and all numbers are octal,
but only the size is read so.
-/
namespace ReduceOS.UstarHeader

open Machine CString Numerals Ustar
open MountTree (slash)

/-- A field of `n` bytes holds a string, with a terminator unless it fills the field. -/
structure Holds (header : Chars) (offset n : ℕ) (str : Chars) : Prop where
  proper : 0 ∉ str
  fits : str.length ≤ n
  bytes : ∃ rest, header.drop offset = str ++ rest ∧ (str.length < n → rest.head? = some 0)

/-- A field of `n` bytes holds a number in octal digits, with a terminator or a blank behind. -/
structure HoldsOctal (header : Chars) (offset n number : ℕ) : Prop where
  bytes : ∃ digits t rest, header.drop offset = digits ++ t :: rest ∧ digits ≠ [] ∧
    digits.length < n ∧ (∀ c ∈ digits, Octal c) ∧ (t = 0 ∨ t = 32) ∧ value 8 digits = number

structure Fields where
  name : Chars
  namePrefix : Chars
  size : ℕ
  mode : ℕ
  uid : ℕ
  gid : ℕ

structure Valid (header : Chars) (fields : Fields) : Prop where
  name : Holds header 0 100 fields.name
  namePrefix : Holds header 345 155 fields.namePrefix
  size : HoldsOctal header 124 12 fields.size
  mode : HoldsOctal header 100 8 fields.mode
  uid : HoldsOctal header 108 8 fields.uid
  gid : HoldsOctal header 116 8 fields.gid
  magic : (header.drop 257).take 5 = magic

def ustarPath (fields : Fields) : Chars :=
  if fields.namePrefix = [] then fields.name else fields.namePrefix ++ slash :: fields.name

structure Decoded (header : Chars) (inode : BitVec 64) (fields : Fields) : Prop where
  finddir : filename header = stripSlash (ustarPath fields)
  readdir : pathFilename header = ustarPath fields
  size : (tarfsUstarToNode header inode).length.toNat = fields.size
  mode : (tarfsUstarToNode header inode).mask.toNat = fields.mode
  uid : (tarfsUstarToNode header inode).uid.toNat = fields.uid
  gid : (tarfsUstarToNode header inode).gid.toNat = fields.gid

section Fields

variable {header str : Chars} {offset n number : ℕ}

/-- A string that does not fill its field is read as it is. -/
theorem Holds.cstring_eq (h : Holds header offset n str) (hshort : str.length < n) :
    cstring (header.drop offset) = str := by
  obtain ⟨rest, hbytes, hend⟩ := h.bytes
  have hproper : ∀ c ∈ str, decide (c ≠ 0) = true := by
    intro c hc
    simpa using fun heq : c = 0 => h.proper (heq ▸ hc)
  rw [hbytes, cstring, List.takeWhile_append_of_pos hproper]
  cases rest with
  | nil => simp
  | cons c rest =>
    obtain rfl : c = 0 := by simpa using hend hshort
    simp

/-- One that does fill it goes on with the string behind. -/
theorem Holds.cstring_full (h : Holds header offset n str) (hfull : str.length = n) :
    cstring (header.drop offset) = str ++ cstring (header.drop (offset + n)) := by
  obtain ⟨rest, hbytes, -⟩ := h.bytes
  have hproper : ∀ c ∈ str, decide (c ≠ 0) = true := by
    intro c hc
    simpa using fun heq : c = 0 => h.proper (heq ▸ hc)
  have hrest : header.drop (offset + n) = rest := by
    rw [← List.drop_drop, hbytes, ← hfull, List.drop_left]
  rw [hrest, hbytes, cstring, List.takeWhile_append_of_pos hproper, cstring]

theorem Holds.take_cstring (h : Holds header offset n str) :
    (cstring (header.drop offset)).take n = str := by
  by_cases hshort : str.length < n
  · rw [h.cstring_eq hshort, List.take_of_length_le hshort.le]
  · have hfits := h.fits
    have hfull : str.length = n := by omega
    rw [h.cstring_full hfull, ← hfull, List.take_left]

theorem Holds.append (h : Holds header offset n str) (hoffset : offset ≤ header.length)
    (beyond : Chars) : Holds (header ++ beyond) offset n str := by
  obtain ⟨rest, hbytes, hend⟩ := h.bytes
  refine ⟨h.proper, h.fits, rest ++ beyond, ?_, fun hshort => ?_⟩
  · rw [List.drop_append_of_le_length hoffset, hbytes, List.append_assoc]
  · rw [List.head?_append, hend hshort, Option.some_or]

theorem HoldsOctal.append (h : HoldsOctal header offset n number)
    (hoffset : offset ≤ header.length) (beyond : Chars) :
    HoldsOctal (header ++ beyond) offset n number := by
  obtain ⟨digits, t, rest, hbytes, hrest⟩ := h.bytes
  refine ⟨digits, t, rest ++ beyond, ?_, hrest⟩
  rw [List.drop_append_of_le_length hoffset, hbytes]
  simp

theorem not_isvalid_terminator {base : ℕ} {t : BitVec 8} (ht : t = 0 ∨ t = 32) :
    ¬ isvalid base t := by
  rcases ht with rfl | rfl <;> simp [isvalid, isdigit, tolower]

theorem HoldsOctal.cstring_cons (h : HoldsOctal header offset n number) :
    ∃ c rest, Octal c ∧ cstring (header.drop offset) = c :: rest := by
  obtain ⟨digits, t, rest, hbytes, hne, -, hdigits, -⟩ := h.bytes
  cases digits with
  | nil => exact absurd rfl hne
  | cons c digits =>
    have hc := hdigits c List.mem_cons_self
    have hne : c ≠ 0 := by
      rintro rfl
      exact absurd hc (by decide)
    rw [hbytes, cstring, List.cons_append, List.takeWhile_cons_of_pos (by simpa using hne)]
    exact ⟨c, _, hc, rfl⟩

/-- A size of at most 20 digits is read as it is. -/
theorem HoldsOctal.strtoull_eq (h : HoldsOctal header offset n number) (hn : n ≤ 20) :
    (strtoull (header.drop offset) 8).toNat = number := by
  obtain ⟨digits, t, rest, hbytes, hne, hlength, hdigits, ht, rfl⟩ := h.bytes
  have hlt := @value_lt 8 digits (Nat.le_refl 8) hdigits
  have hpow : 8 ^ digits.length ≤ 8 ^ 20 := Nat.pow_le_pow_right (by decide) (by omega)
  rw [hbytes, strtoull_digits hdigits hne (not_isvalid_terminator ht), BitVec.toNat_ofNat,
    Nat.mod_eq_of_lt (by omega)]

/-- A number of a short field that is read in decimal is right if and only if it has one digit. -/
theorem HoldsOctal.strtol_eq_iff (h : HoldsOctal header offset n number) (hn : n ≤ 9) :
    ((strtol (header.drop offset) 10).setWidth 32).toNat = number ↔ number < 8 := by
  obtain ⟨digits, t, rest, hbytes, hne, hlength, hdigits, ht, rfl⟩ := h.bytes
  have hlt := @value_lt 10 digits (by decide) hdigits
  have hpow : 10 ^ digits.length ≤ 10 ^ 8 := Nat.pow_le_pow_right (by decide) (by omega)
  rw [strtol, hbytes, strtoull_digits hdigits hne (not_isvalid_terminator ht),
    BitVec.toNat_setWidth, BitVec.toNat_ofNat, Nat.mod_mod_of_dvd _ (by decide),
    Nat.mod_eq_of_lt (by omega)]
  exact value_eq_value_iff hdigits

end Fields

section Paths

variable {header : Chars} {fields : Fields} {inode : BitVec 64}

/-- A list that is moved on by one is all of one element. -/
theorem eq_of_concat_eq_cons {str : Chars} {c d : BitVec 8}
    (h : str ++ [c] = d :: str) : c = d := by
  induction str generalizing d with
  | nil => simpa using h
  | cons e str ih =>
    obtain ⟨rfl, htail⟩ := List.cons.inj h
    exact ih htail

theorem Valid.pathFilename_eq_iff (h : Valid header fields) :
    pathFilename header = ustarPath fields ↔
      fields.namePrefix = [] ∧ fields.name.length < 100 := by
  have hbegins : (Ustar.namePrefix header).take 155 = fields.namePrefix := h.namePrefix.take_cstring
  unfold pathFilename ustarPath
  simp only [strncat, List.nil_append, hbegins]
  by_cases hshort : fields.name.length < 100
  · have hname : Ustar.name header = fields.name := h.name.cstring_eq hshort
    rw [hname, List.take_of_length_le (by omega)]
    split_ifs with hnil
    · simp [hnil, hshort]
    · simp [hnil]
  · have hfits := h.name.fits
    have hfull : fields.name.length = 100 := by omega
    obtain ⟨c, rest, hc, hmode⟩ := h.mode.cstring_cons
    have hname : Ustar.name header = fields.name ++ c :: rest := by
      have hruns := h.name.cstring_full hfull
      rw [Nat.zero_add, hmode] at hruns
      exact hruns
    have htake : (fields.name ++ c :: rest).take 150 = fields.name ++ c :: rest.take 49 := by
      rw [List.take_append, hfull, List.take_of_length_le (by omega)]
      rfl
    rw [hname, htake]
    refine iff_of_false ?_ fun hboth => hshort hboth.2
    split_ifs with hnil
    · simp [hnil]
    · intro heq
      have htail := List.append_cancel_left heq
      have hlength := congrArg List.length htail
      simp only [List.length_append, List.length_cons] at hlength
      obtain hend : rest.take 49 = [] := List.length_eq_zero_iff.mp (by omega)
      rw [hend] at htail
      obtain rfl := eq_of_concat_eq_cons htail
      exact absurd hc (by decide)

theorem Valid.filename_eq (h : Valid header fields) (hnil : fields.namePrefix = [])
    (hshort : fields.name.length < 100) : filename header = stripSlash (ustarPath fields) := by
  have hbegins : Ustar.namePrefix header = [] := by
    rw [← hnil]
    exact h.namePrefix.cstring_eq (by rw [hnil]; decide)
  have hname : Ustar.name header = fields.name := h.name.cstring_eq hshort
  unfold filename snprintf ustarPath
  rw [hbegins, hname, if_pos hnil, List.nil_append, List.take_of_length_le (by omega)]

/-- A header is decoded right if and only if its path fits the name and leaves room for a
terminator, and the numbers but the size have one digit. -/
theorem decoded_iff (h : Valid header fields) :
    Decoded header inode fields ↔ fields.namePrefix = [] ∧ fields.name.length < 100 ∧
      fields.mode < 8 ∧ fields.uid < 8 ∧ fields.gid < 8 := by
  have hmode := h.mode.strtol_eq_iff (by decide)
  have huid := h.uid.strtol_eq_iff (by decide)
  have hgid := h.gid.strtol_eq_iff (by decide)
  constructor
  · intro hdecoded
    obtain ⟨hnil, hshort⟩ := h.pathFilename_eq_iff.mp hdecoded.readdir
    exact ⟨hnil, hshort, hmode.mp hdecoded.mode, huid.mp hdecoded.uid, hgid.mp hdecoded.gid⟩
  · rintro ⟨hnil, hshort, hmode', huid', hgid'⟩
    exact ⟨h.filename_eq hnil hshort, h.pathFilename_eq_iff.mpr ⟨hnil, hshort⟩,
      h.size.strtoull_eq (by decide), hmode.mpr hmode', huid.mpr huid', hgid.mpr hgid'⟩

end Paths

section Sample

/-- The header of a file `a` of the user 1, with the text of a mode. -/
def sampleHeader (mode : Chars) : Chars :=
  pad 500 (pad 257 (pad 124 (pad 116 (pad 108 (pad 100 [97] ++ mode) ++ [49]) ++ [49]) ++ [48]) ++
    magic)

theorem valid_of_one_digit : Valid (sampleHeader [54]) ⟨[97], [], 0, 6, 1, 1⟩ where
  name := ⟨by decide, by decide, (sampleHeader [54]).drop 1, by decide +kernel⟩
  namePrefix := ⟨by decide, by decide, (sampleHeader [54]).drop 345, by decide +kernel⟩
  size := ⟨[48], 0, (sampleHeader [54]).drop 126, by decide +kernel⟩
  mode := ⟨[54], 0, (sampleHeader [54]).drop 102, by decide +kernel⟩
  uid := ⟨[49], 0, (sampleHeader [54]).drop 110, by decide +kernel⟩
  gid := ⟨[49], 0, (sampleHeader [54]).drop 118, by decide +kernel⟩
  magic := by decide +kernel

theorem decoded_of_one_digit : Decoded (sampleHeader [54]) 0 ⟨[97], [], 0, 6, 1, 1⟩ :=
  (decoded_iff valid_of_one_digit).mpr (by decide)

/-- The mode `666` is read in decimal. -/
theorem mode_read_in_decimal : Valid (sampleHeader [54, 54, 54]) ⟨[97], [], 0, 438, 1, 1⟩ ∧
    (tarfsUstarToNode (sampleHeader [54, 54, 54]) 0).mask = 666 ∧
    ¬ Decoded (sampleHeader [54, 54, 54]) 0 ⟨[97], [], 0, 438, 1, 1⟩ := by
  have hmask : (tarfsUstarToNode (sampleHeader [54, 54, 54]) 0).mask = 666 := by decide +kernel
  refine ⟨?_, hmask, fun h => ?_⟩
  · exact {
      name := ⟨by decide, by decide, (sampleHeader [54, 54, 54]).drop 1, by decide +kernel⟩
      namePrefix := ⟨by decide, by decide, (sampleHeader [54, 54, 54]).drop 345, by decide +kernel⟩
      size := ⟨[48], 0, (sampleHeader [54, 54, 54]).drop 126, by decide +kernel⟩
      mode := ⟨[54, 54, 54], 0, (sampleHeader [54, 54, 54]).drop 104, by decide +kernel⟩
      uid := ⟨[49], 0, (sampleHeader [54, 54, 54]).drop 110, by decide +kernel⟩
      gid := ⟨[49], 0, (sampleHeader [54, 54, 54]).drop 118, by decide +kernel⟩
      magic := by decide +kernel }
  · have hmode := h.mode
    rw [hmask] at hmode
    exact absurd hmode (by decide)

end Sample

end ReduceOS.UstarHeader
