import ReduceOS.CString
import Mathlib.Data.List.Induction

/-!
Numbers in strings: `strtoull`, and `strtol`, which has the same body. They read on for as long as
there are digits, whatever the field. The prefixes of the bases 0 and 16 are left out.
-/
namespace ReduceOS.Numerals

open Machine CString

section Source

def isspace (c : BitVec 8) : Bool := c = 32 ∨ c = 9 ∨ c = 11 ∨ c = 10 ∨ c = 13

def isdigit (c : BitVec 8) : Bool := 48 ≤ c.toInt ∧ c.toInt ≤ 57

def tolower (c : BitVec 8) : ℤ := if 65 ≤ c.toInt ∧ c.toInt ≤ 90 then c.toInt + 0x20 else c.toInt

def isvalid (base : ℕ) (ch : BitVec 8) : Bool :=
  (97 ≤ tolower ch ∧ tolower ch < 97 + ((base : ℤ) - 10)) ∨ isdigit ch

def strtoullLoop (base : ℕ) : Chars → BitVec 64 → BitVec 64
  | [], output => output
  | ch :: ptr, output =>
    if isvalid base ch then
      let output := output * BitVec.ofNat 64 base
      if isdigit ch then strtoullLoop base ptr (output + BitVec.ofInt 64 (ch.toInt - 48))
      else strtoullLoop base ptr (output + BitVec.ofInt 64 (tolower ch - 97 + 10))
    else output

def strtoull (str : Chars) (base : ℕ) : BitVec 64 :=
  let ptr := str.dropWhile isspace
  if deref ptr = 45 then -strtoullLoop base ptr.tail 0
  else if deref ptr = 43 then strtoullLoop base ptr.tail 0
  else strtoullLoop base ptr 0

/-- `strtoull` in base 16, where a zero in front and an `x` behind it are passed over. -/
def strtoullHex (str : Chars) : BitVec 64 :=
  let ptr := str.dropWhile isspace
  let signed := if deref ptr = 45 ∨ deref ptr = 43 then ptr.tail else ptr
  let digits :=
    if deref signed = 48 then
      if deref signed.tail = 120 ∨ deref signed.tail = 88 then signed.tail.tail else signed.tail
    else signed
  if deref ptr = 45 then -strtoullLoop 16 digits 0 else strtoullLoop 16 digits 0

def strtol (str : Chars) (base : ℕ) : BitVec 64 := strtoull str base

end Source

def value (base : ℕ) (digits : Chars) : ℕ :=
  digits.foldl (fun n c => n * base + (c.toNat - 48)) 0

def Octal (c : BitVec 8) : Prop := 48 ≤ c.toNat ∧ c.toNat ≤ 55

instance (c : BitVec 8) : Decidable (Octal c) := inferInstanceAs (Decidable (_ ∧ _))

section Digits

variable {base : ℕ} {c : BitVec 8} {digits rest : Chars}

theorem Octal.isdigit (hc : Octal c) : isdigit c := by
  obtain ⟨hlow, hhigh⟩ := hc
  have hint := BitVec.toInt_eq_toNat_cond c
  simp only [Numerals.isdigit, decide_eq_true_eq]
  omega

theorem Octal.isvalid (hc : Octal c) : isvalid base c := by
  simp [Numerals.isvalid, hc.isdigit]

theorem Octal.digit (hc : Octal c) :
    BitVec.ofInt 64 (c.toInt - 48) = BitVec.ofNat 64 (c.toNat - 48) := by
  obtain ⟨hlow, hhigh⟩ := hc
  have hint := BitVec.toInt_eq_toNat_cond c
  have hdigit : c.toInt - 48 = ((c.toNat - 48 : ℕ) : ℤ) := by omega
  rw [hdigit, BitVec.ofInt_natCast]

theorem strtoullLoop_append (hdigits : ∀ c ∈ digits, Octal c) (n : ℕ) :
    strtoullLoop base (digits ++ rest) (BitVec.ofNat 64 n) =
      strtoullLoop base rest
        (BitVec.ofNat 64 (digits.foldl (fun n c => n * base + (c.toNat - 48)) n)) := by
  induction digits generalizing n with
  | nil => rfl
  | cons c digits ih =>
    obtain ⟨hc, hrest⟩ := List.forall_mem_cons.mp hdigits
    rw [List.cons_append, strtoullLoop, if_pos hc.isvalid]
    dsimp only
    rw [if_pos hc.isdigit, hc.digit, ← BitVec.ofNat_mul, ← BitVec.ofNat_add, ih hrest,
      List.foldl_cons]

/-- A field of digits with a terminator or a blank behind them. -/
theorem strtoull_digits (hdigits : ∀ c ∈ digits, Octal c) (hne : digits ≠ [])
    {t : BitVec 8} (ht : ¬ isvalid base t) :
    strtoull (digits ++ t :: rest) base = BitVec.ofNat 64 (value base digits) := by
  have hloop : strtoullLoop base (digits ++ t :: rest) 0 =
      BitVec.ofNat 64 (value base digits) := by
    rw [show (0 : BitVec 64) = BitVec.ofNat 64 0 from rfl, strtoullLoop_append hdigits,
      strtoullLoop, if_neg ht]
    rfl
  cases digits with
  | nil => exact absurd rfl hne
  | cons c digits =>
    obtain ⟨hlow, hhigh⟩ := hdigits c List.mem_cons_self
    have hspace : ¬ isspace c := by
      simp only [isspace, decide_eq_true_eq]
      rintro (rfl | rfl | rfl | rfl | rfl) <;> exact absurd hlow (by decide)
    have hminus : c ≠ 45 := by
      rintro rfl
      exact absurd hlow (by decide)
    have hplus : c ≠ 43 := by
      rintro rfl
      exact absurd hlow (by decide)
    unfold strtoull
    rw [List.cons_append, List.dropWhile_cons_of_neg hspace, ← List.cons_append]
    simp only [List.cons_append, deref, List.headD_cons, hminus, hplus, if_false]
    exact hloop

theorem value_concat (base : ℕ) (digits : Chars) (c : BitVec 8) :
    value base (digits ++ [c]) = value base digits * base + (c.toNat - 48) := by
  simp [value, List.foldl_append]

theorem value_le_value (digits : Chars) : value 8 digits ≤ value 10 digits := by
  induction digits using List.reverseRecOn with
  | nil => exact Nat.le_refl 0
  | append_singleton digits c ih =>
    rw [value_concat, value_concat]
    omega

/-- Octal digits read as decimal ones give the same number if and only if it has one digit. -/
theorem value_eq_value_iff (hdigits : ∀ c ∈ digits, Octal c) :
    value 10 digits = value 8 digits ↔ value 8 digits < 8 := by
  induction digits using List.reverseRecOn with
  | nil => simp [value]
  | append_singleton digits c ih =>
    have hc := hdigits c (List.mem_append_right _ List.mem_cons_self)
    have hle := value_le_value digits
    have hzero := ih fun d hd => hdigits d (List.mem_append_left _ hd)
    unfold Octal at hc
    rw [value_concat, value_concat]
    omega

theorem value_lt (hbase : 8 ≤ base) (hdigits : ∀ c ∈ digits, Octal c) :
    value base digits < base ^ digits.length := by
  induction digits using List.reverseRecOn with
  | nil => simp [value]
  | append_singleton digits c ih =>
    have hc := hdigits c (List.mem_append_right _ List.mem_cons_self)
    have hlt := ih fun d hd => hdigits d (List.mem_append_left _ hd)
    unfold Octal at hc
    have hmul := Nat.mul_le_mul_right base (Nat.succ_le_iff.mpr hlt)
    rw [Nat.succ_mul] at hmul
    rw [value_concat, List.length_append, List.length_singleton, Nat.pow_succ]
    omega

end Digits

end ReduceOS.Numerals
