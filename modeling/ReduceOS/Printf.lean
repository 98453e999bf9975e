import ReduceOS.Numerals
import Mathlib.Data.List.GetD
import Mathlib.Data.List.TakeWhile
import Mathlib.Logic.Function.Basic
import Mathlib.Order.Basic
import Mathlib.Tactic.IntervalCases

/-!
Formatted output, and `atoi`, which reads numbers back. The format is gone through once; what it
puts out is told apart from where this goes, which for `snprintf` is memory of some size. A decimal
number that is not negative is read back as it was printed.
-/
namespace ReduceOS.Printf

open Machine CString Numerals

section Source

inductive Arg
  | int (value : BitVec 64)
  | str (s : Option Chars)

def vaInt : List Arg → BitVec 64 × List Arg
  | .int value :: args => (value, args)
  | args => (0, args.tail)

def vaStr : List Arg → Option Chars × List Arg
  | .str s :: args => (s, args)
  | args => (none, args.tail)

def widthLoop : ℕ → ℕ → ℕ → ℕ
  | 0, _, nWidth => nWidth
  | fuel + 1, val, nWidth => if val ≥ 10 then widthLoop fuel (val / 10) (nWidth + 1) else nWidth

def digitsLoop : ℕ → ℕ → Chars → Chars
  | 0, _, tmp => tmp
  | i + 1, value, tmp => digitsLoop i (value / 10) (BitVec.ofNat 8 (value % 10 + 48) :: tmp)

/-- `print_dec`; more than a hundred digits would not fit in its buffer. -/
def printDec (value : BitVec 64) (width : ℕ) (fillZero alignRight : Bool) (precision : CInt) :
    Chars :=
  let precision := if precision = -1 then 1 else precision
  let nWidth := if value = 0 then 0 else widthLoop 20 value.toNat 1
  let nWidth := max nWidth (precision.signExtend 64).toNat
  let fill := List.replicate (width - nWidth) (if fillZero then 48 else 32)
  let digits := digitsLoop nWidth value.toNat []
  if alignRight then fill ++ digits else digits ++ fill

def hexWidthLoop : ℕ → ℕ → ℕ → ℕ
  | 0, _, nWidth => nWidth
  | fuel + 1, val, nWidth => if val > 0xF then hexWidthLoop fuel (val / 16) (nWidth + 1) else nWidth

def hexDigit (caps : Bool) (k : ℕ) : BitVec 8 :=
  if k < 10 then BitVec.ofNat 8 (48 + k)
  else if caps then BitVec.ofNat 8 (55 + k) else BitVec.ofNat 8 (87 + k)

def printHex (value : BitVec 64) (width : ℕ) (fillZero alt caps align : Bool) : Chars :=
  let nWidth := hexWidthLoop 16 value.toNat 1
  let pad := width - (nWidth + if alt then 2 else 0)
  let digits := (List.range nWidth).reverse.map fun i =>
      hexDigit caps (value.toNat >>> (i * 4) % 16)
  (if !fillZero && align then List.replicate pad 32 else []) ++
    (if alt then [48, if caps then 88 else 120] else []) ++
    (if fillZero && align then List.replicate pad 48 else []) ++ digits ++
    (if align then [] else List.replicate pad 32)

def isFlag (c : BitVec 8) : Bool := c = 45 ∨ c = 43 ∨ c = 32 ∨ c = 48 ∨ c = 35

def readDigits (f : Chars) : CInt :=
  (f.takeWhile isdigit).foldl (fun value c => value * 10 + (c.signExtend 32 - 48)) 0

def readNumber (f : Chars) (args : List Arg) : CInt × Chars × List Arg :=
  if deref f = 42 then
    let (value, args) := vaInt args
    (value.setWidth 32, f.tail, args)
  else (readDigits f, f.dropWhile isdigit, args)

def readLength (f : Chars) : ℕ × Chars :=
  match f with
  | 104 :: 104 :: f => (2, f)
  | 104 :: f => (1, f)
  | 108 :: 108 :: f => (4, f)
  | 108 :: f => (3, f)
  | 106 :: f => (5, f)
  | 122 :: f => (6, f)
  | 116 :: f => (7, f)
  | 76 :: f => (8, f)
  | f => (0, f)

def signedArg (length : ℕ) (value : BitVec 64) : BitVec 64 :=
  if 3 ≤ length ∧ length ≤ 7 then value else (value.setWidth 32).signExtend 64

def unsignedArg (length : ℕ) (value : BitVec 64) : BitVec 64 :=
  if 3 ≤ length ∧ length ≤ 7 then value else (value.setWidth 32).setWidth 64

def printStr (s : Option Chars) (width precision : CInt) (padding : BitVec 8) : Chars :=
  let s := s.getD [40, 78, 85, 76, 76, 41]
  let s := if precision.toInt ≥ 0 then s.take precision.toNat else s
  s ++ List.replicate (width.toInt - s.length).toNat padding

def printArg (f : BitVec 8) (flags : Chars) (width precision : CInt) (length : ℕ)
    (args : List Arg) : Chars × List Arg :=
  let justification := flags.contains 45
  let zero := flags.contains 48
  if f = 100 ∨ f = 105 then
    let (value, args) := vaInt args
    (printDec (signedArg length value) width.toNat zero (!justification) precision, args)
  else if f = 112 then
    let (value, args) := vaInt args
    (printHex value width.toNat zero true false (!justification), args)
  else if f = 120 ∨ f = 88 then
    let (value, args) := vaInt args
    (printHex (unsignedArg length value) width.toNat zero (flags.contains 35) (f = 88)
      (!justification), args)
  else if f = 117 then
    let (value, args) := vaInt args
    (printDec (unsignedArg length value) width.toNat zero (!justification) precision, args)
  else if f = 115 then
    let (s, args) := vaStr args
    (printStr s width precision (if zero then 48 else 32), args)
  else if f = 99 then
    let (value, args) := vaInt args
    ([value.setWidth 8], args)
  else ([f], args)

/-- The loop of `xvasprintf`, with fuel for the characters of the format. -/
def formatLoop : ℕ → Chars → List Arg → Chars
  | 0, _, _ => []
  | _, [], _ => []
  | fuel + 1, c :: f, args =>
    if c ≠ 37 then c :: formatLoop fuel f args
    else if deref f = 37 then 37 :: formatLoop fuel f.tail args
    else
      let flags := f.takeWhile isFlag
      let (width, f, args) := readNumber (f.dropWhile isFlag) args
      let (precision, f, args) := if deref f = 46 then readNumber f.tail args else (-1, f, args)
      let (length, f) := readLength f
      let (out, args) := printArg (deref f) flags width precision length args
      out ++ formatLoop fuel f.tail args

/-- `xvasprintf`: the characters that the callback gets. Their number is returned. -/
def xvasprintf (fmt : Chars) (args : List Arg) : Chars := formatLoop fmt.length fmt args

/-- `struct CBData`, with the memory that `str` points to. -/
structure CBData where
  str : ℕ → BitVec 8
  size : ℕ
  written : ℕ

def cbSprintf (data : CBData) (c : BitVec 8) : CBData :=
  if data.size > data.written + 1 then
    let data :=
      { data with str := Function.update data.str data.written c, written := data.written + 1 }
    if data.written < data.size then
      { data with str := Function.update data.str data.written 0 }
    else data
  else data

/-- `snprintf` into memory: what it returns and the memory after it. -/
def snprintf (str : ℕ → BitVec 8) (size : ℕ) (format : Chars) (args : List Arg) :
    CInt × (ℕ → BitVec 8) :=
  let out := xvasprintf format args
  let data := out.foldl cbSprintf ⟨str, size, 0⟩
  (BitVec.ofNat 32 out.length, (cbSprintf data 0).str)

def atoi (str : Chars) : CInt :=
  let ptr := str.dropWhile isspace
  if deref ptr = 45 then readDigits ptr.tail * -1
  else if deref ptr = 43 then readDigits ptr.tail
  else readDigits ptr

end Source

section Buffers

variable {str : ℕ → BitVec 8} {out : Chars} {size : ℕ}

/-- Output for which there is room is stored as it comes. -/
theorem foldl_cbSprintf (h : out.length < size) :
    (out.foldl cbSprintf ⟨str, size, 0⟩).size = size ∧
      (out.foldl cbSprintf ⟨str, size, 0⟩).written = out.length ∧
      ∀ k < out.length, (out.foldl cbSprintf ⟨str, size, 0⟩).str k = out.getD k 0 := by
  induction out using List.reverseRecOn with
  | nil => exact ⟨rfl, rfl, fun k hk => absurd hk (Nat.not_lt_zero k)⟩
  | append_singleton out c ih =>
    rw [List.length_append, List.length_singleton] at h ⊢
    obtain ⟨hsize, hwritten, hstr⟩ := ih (by omega)
    rw [List.foldl_append, List.foldl_cons, List.foldl_nil]
    generalize out.foldl cbSprintf ⟨str, size, 0⟩ = data at hsize hwritten hstr ⊢
    have hstored : (cbSprintf data c).size = size ∧ (cbSprintf data c).written = out.length + 1 ∧
        ∀ k ≤ out.length, (cbSprintf data c).str k = if k = out.length then c else data.str k := by
      unfold cbSprintf
      rw [if_pos (by omega)]
      dsimp only
      rw [if_pos (by omega), hwritten]
      refine ⟨hsize, rfl, fun k hk => ?_⟩
      change Function.update (Function.update data.str out.length c) (out.length + 1) 0 k = _
      rw [Function.update_of_ne (by omega), Function.update_apply]
    refine ⟨hstored.1, hstored.2.1, fun k hk => ?_⟩
    rw [hstored.2.2 k (by omega)]
    split_ifs with hlast
    · simp [hlast, List.getD_eq_getElem?_getD]
    · rw [hstr k (by omega), List.getD_append _ _ _ _ (by omega)]

/-- The string in memory that begins with some characters and a terminator. -/
theorem cstring_range {mem : ℕ → BitVec 8} {n : ℕ} (h0 : 0 ∉ out) (hn : out.length < n)
    (hmem : ∀ k < out.length, mem k = out.getD k 0) (hend : mem out.length = 0) (rest : Chars) :
    cstring ((List.range n).map mem ++ rest) = out := by
  obtain ⟨m, rfl⟩ : ∃ m, n = out.length + (1 + m) := ⟨n - out.length - 1, by omega⟩
  have hout : (List.range out.length).map mem = out := by
    apply List.ext_getElem
    · simp
    · intro k hk hk'
      simp [hmem k hk', List.getD_eq_getElem?_getD, hk']
  rw [List.range_add, List.map_append, hout, List.range_add, List.map_append, List.map_append,
    List.append_assoc, List.append_assoc]
  change cstring (out ++ mem out.length :: _) = out
  rw [hend]
  exact cstring_append h0 _

/-- The string that `snprintf` leaves, where there is room for it and a terminator. -/
theorem cstring_snprintf {format : Chars} {args : List Arg} (h0 : 0 ∉ xvasprintf format args)
    (h : (xvasprintf format args).length + 1 < size) (rest : Chars) :
    cstring ((List.range size).map (snprintf str size format args).2 ++ rest) =
      xvasprintf format args := by
  obtain ⟨hsize, hwritten, hstr⟩ := @foldl_cbSprintf str _ size (Nat.lt_of_succ_lt h)
  unfold snprintf
  dsimp only
  generalize (xvasprintf format args).foldl cbSprintf ⟨str, size, 0⟩ = data at hsize hwritten hstr ⊢
  have hlast : ∀ k ≤ (xvasprintf format args).length, (cbSprintf data 0).str k =
      if k = (xvasprintf format args).length then 0 else data.str k := by
    intro k hk
    unfold cbSprintf
    rw [if_pos (by omega)]
    dsimp only
    rw [if_pos (by omega), hwritten]
    change Function.update (Function.update data.str _ 0) (_ + 1) 0 k = _
    rw [Function.update_of_ne (by omega), Function.update_apply]
  refine cstring_range h0 (by omega) (fun k hk => ?_) ?_ rest
  · rw [hlast k hk.le, if_neg (by omega), hstr k hk]
  · rw [hlast _ (Nat.le_refl _), if_pos rfl]

end Buffers

section Numbers

variable {digits : Chars} {value k n : ℕ}

theorem digitsLoop_append (n value : ℕ) (tmp : Chars) :
    digitsLoop n value tmp = digitsLoop n value [] ++ tmp := by
  induction n generalizing value tmp with
  | zero => rfl
  | succ n ih =>
    rw [digitsLoop, digitsLoop, ih, ih _ [_], List.append_assoc]
    rfl

theorem digitsLoop_succ (n value : ℕ) :
    digitsLoop (n + 1) value [] =
      digitsLoop n (value / 10) [] ++ [BitVec.ofNat 8 (value % 10 + 48)] := by
  rw [digitsLoop, digitsLoop_append]

theorem digitsLoop_length (n value : ℕ) : (digitsLoop n value []).length = n := by
  induction n generalizing value with
  | zero => rfl
  | succ n ih => rw [digitsLoop_succ, List.length_append, ih, List.length_singleton]

theorem digit_cases (hk : k < 10) : isdigit (BitVec.ofNat 8 (k + 48)) = true ∧
    isspace (BitVec.ofNat 8 (k + 48)) = false ∧ BitVec.ofNat 8 (k + 48) ≠ 45 ∧
    BitVec.ofNat 8 (k + 48) ≠ 43 ∧ BitVec.ofNat 8 (k + 48) ≠ 46 ∧ BitVec.ofNat 8 (k + 48) ≠ 0 ∧
    (BitVec.ofNat 8 (k + 48)).signExtend 32 - 48 = BitVec.ofNat 32 k := by
  interval_cases k <;> decide

theorem mem_digitsLoop {c : BitVec 8} (h : c ∈ digitsLoop n value []) :
    ∃ k < 10, c = BitVec.ofNat 8 (k + 48) := by
  induction n generalizing value with
  | zero => exact absurd h List.not_mem_nil
  | succ n ih =>
    rw [digitsLoop_succ, List.mem_append, List.mem_singleton] at h
    rcases h with h | rfl
    · exact ih h
    · exact ⟨value % 10, Nat.mod_lt _ (by decide), rfl⟩

/-- Digits are read back as they were stored, the last `n` of them. -/
theorem readDigits_digitsLoop (n value : ℕ) :
    readDigits (digitsLoop n value []) = BitVec.ofNat 32 (value % 10 ^ n) := by
  have hall : ∀ m v, (digitsLoop m v []).takeWhile isdigit = digitsLoop m v [] := fun m v =>
    List.takeWhile_eq_self_iff.mpr fun c hc => by
      obtain ⟨k, hk, rfl⟩ := mem_digitsLoop hc
      exact (digit_cases hk).1
  unfold readDigits
  rw [hall]
  induction n generalizing value with
  | zero => simp [digitsLoop, Nat.mod_one]
  | succ n ih =>
    obtain ⟨-, -, -, -, -, -, hdigit⟩ := digit_cases (Nat.mod_lt value (by decide : 0 < 10))
    have hmod : value % 10 ^ (n + 1) = value / 10 % 10 ^ n * 10 + value % 10 := by
      rw [Nat.pow_succ', Nat.mod_mul]
      omega
    rw [digitsLoop_succ, List.foldl_append, List.foldl_cons, List.foldl_nil, ih, hdigit, hmod,
      BitVec.ofNat_add, BitVec.ofNat_mul]
    rfl

/-- The count of digits: enough for the number, and no more than it needs. -/
theorem widthLoop_cases (fuel val nWidth : ℕ) (h : val < 10 ^ (fuel + 1)) :
    ∃ j, widthLoop fuel val nWidth = nWidth + j ∧ val < 10 ^ (j + 1) ∧
      ∀ m, val < 10 ^ (m + 1) → j ≤ m := by
  induction fuel generalizing val nWidth with
  | zero => exact ⟨0, rfl, h, fun m _ => Nat.zero_le m⟩
  | succ fuel ih =>
    rw [widthLoop]
    split_ifs with hten
    · have hdiv : val / 10 < 10 ^ (fuel + 1) := by
        rw [Nat.pow_succ] at h
        exact Nat.div_lt_of_lt_mul (by omega)
      obtain ⟨j, hj, hlt, hleast⟩ := ih (val / 10) (nWidth + 1) hdiv
      refine ⟨j + 1, by omega, ?_, fun m hm => ?_⟩
      · rw [Nat.pow_succ]
        omega
      · cases m with
        | zero => omega
        | succ m =>
          rw [Nat.pow_succ] at hm
          exact Nat.succ_le_succ (hleast m (Nat.div_lt_of_lt_mul (by omega)))
    · exact ⟨0, rfl, by omega, fun m _ => Nat.zero_le m⟩

/-- What `%d` prints of a number that is not negative: its digits, at least one. -/
theorem printDec_cases (value : BitVec 64) :
    ∃ n, printDec value 0 false true (-1) = digitsLoop n value.toNat [] ∧ 0 < n ∧
      value.toNat < 10 ^ n ∧ ∀ m, 0 < m → value.toNat < 10 ^ m → n ≤ m := by
  have hone : ((if (-1 : CInt) = -1 then (1 : CInt) else -1).signExtend 64).toNat = 1 := by decide
  unfold printDec
  dsimp only
  rw [if_pos rfl, Nat.zero_sub, List.replicate_zero, hone]
  by_cases hzero : value = 0
  · rw [if_pos hzero, hzero]
    exact ⟨1, rfl, by decide, by decide, fun m hm _ => hm⟩
  · have hlt := value.isLt
    obtain ⟨j, hj, hbound, hleast⟩ := widthLoop_cases 20 value.toNat 1 (by omega)
    rw [if_neg hzero, hj]
    rw [Nat.max_eq_left (by omega)]
    refine ⟨1 + j, rfl, by omega, by rwa [Nat.add_comm], fun m hm hmlt => ?_⟩
    obtain ⟨m, rfl⟩ : ∃ k, m = k + 1 := ⟨m - 1, by omega⟩
    have hle := hleast m hmlt
    omega

theorem atoi_printDec (value : BitVec 64) :
    atoi (printDec value 0 false true (-1)) = value.setWidth 32 := by
  obtain ⟨n, hprint, hpos, hlt, -⟩ := printDec_cases value
  have hread := readDigits_digitsLoop n value.toNat
  rw [Nat.mod_eq_of_lt hlt, BitVec.ofNat_toNat] at hread
  rw [hprint]
  cases hdigits : digitsLoop n value.toNat [] with
  | nil =>
    have hlength := digitsLoop_length n value.toNat
    rw [hdigits, List.length_nil] at hlength
    omega
  | cons c rest =>
    obtain ⟨k, hk, rfl⟩ := mem_digitsLoop (hdigits ▸ List.mem_cons_self : c ∈ _)
    obtain ⟨-, hspace, hminus, hplus, -⟩ := digit_cases hk
    rw [hdigits] at hread
    unfold atoi
    rw [List.dropWhile_cons_of_neg (by rw [hspace]; decide)]
    simp only [deref, List.headD_cons, hminus, hplus, if_false]
    exact hread

end Numbers

end ReduceOS.Printf
