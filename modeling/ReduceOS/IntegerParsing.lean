import ReduceOS.IntegerNumerals
import ReduceOS.Numerals

/-!
The four functions of the C library that read integers from strings have one body. What they read
is a number of the language where no character is taken for a digit, a blank or a prefix that is
none.
-/
namespace ReduceOS.IntegerParsing

open Machine IntegerNumerals
open CString (Chars deref)
open Numerals (isspace isdigit tolower isvalid)

section Source

variable {w : ℕ}

def strtoLoop (base : ℕ) : Chars → BitVec w → BitVec w × Chars
  | [], output => (output, [])
  | ch :: ptr, output =>
    if isvalid base ch then
      let output := output * BitVec.ofNat w base
      if isdigit ch then strtoLoop base ptr (output + BitVec.ofInt w (ch.toInt - 48))
      else strtoLoop base ptr (output + BitVec.ofInt w (tolower ch - 97 + 10))
    else (output, ch :: ptr)

def strtoPrefix (base : ℕ) (ptr : Chars) : ℕ × Chars :=
  let ptr :=
    if base = 16 ∧ deref ptr = 48 then
      let ptr := ptr.tail
      if deref ptr = 120 ∨ deref ptr = 88 then ptr.tail else ptr
    else ptr
  if base = 0 then
    if deref ptr = 48 then
      let ptr := ptr.tail
      if deref ptr = 120 ∨ deref ptr = 88 then (16, ptr.tail) else (8, ptr)
    else (10, ptr)
  else (base, ptr)

/-- The body of the functions, with the rest of the string from `*endptr` on, where that is set. -/
def strto (max : BitVec w) (str : Chars) (base : CInt) : BitVec w × Option Chars :=
  if base.toInt < 0 ∨ base.toInt = 1 ∨ base.toInt > 36 then (max, none)
  else
    let ptr := str.dropWhile isspace
    let (sign, ptr) :=
      if deref ptr = 45 then ((-1 : ℤ), ptr.tail)
      else if deref ptr = 43 then (1, ptr.tail)
      else (1, ptr)
    let (base, ptr) := strtoPrefix base.toInt.toNat ptr
    let (output, ptr) := strtoLoop base ptr 0
    (if sign = -1 then -output else output, some ptr)

def strtol : Chars → CInt → BitVec 64 × Option Chars := strto 0x7FFFFFFFFFFFFFFF

def strtoll : Chars → CInt → BitVec 64 × Option Chars := strto 0x7FFFFFFFFFFFFFFF

def strtoul : Chars → CInt → BitVec 64 × Option Chars := strto 0xFFFFFFFFFFFFFFFF

def strtoull : Chars → CInt → BitVec 64 × Option Chars := strto 0xFFFFFFFFFFFFFFFF

end Source

/-- A function reads the longest prefix that is a number, modulo the width of its result. -/
def Reads {w : ℕ} (f : Chars → CInt → BitVec w × Option Chars) (base : ℕ) (text : Text) : Prop :=
  ∃ value rest, f text (BitVec.ofNat 32 base) = (value, some rest) ∧ Converts base text value rest

/-- There is no form feed among the blanks in front, hexadecimal digits follow a prefix for them,
no decimal digit that is none of the base follows the digits, and without digits there are no
blanks and no sign; or there are no digits, and the form feed is the first character. -/
def Plain (base : ℕ) (text : Text) : Prop :=
  (12 ∉ text.takeWhile isBlank ∧
    (hexPrefix base (unsigned text) = true →
      ((unsigned text).drop 2).head?.any (below 16) = true) ∧
    (∀ c, (behind base (unsigned text)).head? = some c → isdigit c = false) ∧
    (digits base (unsigned text) = [] → unsigned text = text)) ∨
  digits base (unsigned text) = [] ∧ text.head? = some 12

section Characters

variable {b : ℕ} {c : BitVec 8} {w : ℕ}

theorem isBlank_iff (c : BitVec 8) : isBlank c = (isspace c || c = 12) := by
  revert c
  decide

theorem letter_digit (c : BitVec 8) : if 97 ≤ tolower c ∧ tolower c ≤ 122 then
    digitOf c = some (tolower c - 87).toNat ∧ isdigit c = false
    else digitOf c = if isdigit c then some (c.toInt - 48).toNat else none := by
  revert c
  decide

/-- Decimal digits are taken for digits in every base. -/
theorem isvalid_eq (hb : b ≤ 36) (c : BitVec 8) : isvalid b c = (isdigit c || below b c) := by
  have hdigit := letter_digit c
  split_ifs at hdigit with hletter hdecimal
  · have hless : (97 ≤ tolower c ∧ tolower c < 97 + ((b : ℤ) - 10)) ↔
        (tolower c - 87).toNat < b := by omega
    simp [isvalid, below, hdigit.1, hdigit.2, hless]
  · simp [isvalid, hdecimal]
  · have hnone : ¬ (97 ≤ tolower c ∧ tolower c < 97 + ((b : ℤ) - 10)) := by omega
    simp [isvalid, below, hdigit, hnone]

theorem digit_eq (hb : b ≤ 36) (hc : isvalid b c = true) :
    (if isdigit c then BitVec.ofInt w (c.toInt - 48) else BitVec.ofInt w (tolower c - 97 + 10)) =
      BitVec.ofNat w ((digitOf c).getD 0) := by
  have hdigit := letter_digit c
  split_ifs at hdigit with hletter hdecimal
  · have hvalue : tolower c - 97 + 10 = ((tolower c - 87).toNat : ℤ) := by omega
    rw [hdigit.1, hdigit.2, if_neg Bool.false_ne_true, hvalue, BitVec.ofInt_natCast,
      Option.getD_some]
  · have hlow : 48 ≤ c.toInt := by
      simp only [isdigit, decide_eq_true_eq] at hdecimal
      exact hdecimal.1
    have hvalue : c.toInt - 48 = ((c.toInt - 48).toNat : ℤ) := by omega
    rw [hdigit, if_pos hdecimal, Option.getD_some, ← BitVec.ofInt_natCast, ← hvalue]
  · rw [isvalid_eq hb, below, hdigit] at hc
    exact absurd hc (by simp [hdecimal])

/-- The loop stops at the first character that is not taken for a digit. -/
theorem strtoLoop_eq (hb : b ≤ 36) (s : Chars) (n : ℕ) :
    strtoLoop b s (BitVec.ofNat w n) =
      (BitVec.ofNat w ((s.takeWhile (isvalid b)).foldl (fun n c => n * b + (digitOf c).getD 0) n),
        s.dropWhile (isvalid b)) := by
  induction s generalizing n with
  | nil => rfl
  | cons c s ih =>
    rw [strtoLoop]
    by_cases hc : isvalid b c = true
    · have hstep : BitVec.ofNat w n * BitVec.ofNat w b + BitVec.ofNat w ((digitOf c).getD 0) =
          BitVec.ofNat w (n * b + (digitOf c).getD 0) := by
        rw [BitVec.ofNat_add, BitVec.ofNat_mul]
      rw [if_pos hc, List.takeWhile_cons_of_pos hc, List.dropWhile_cons_of_pos hc,
        List.foldl_cons, ← ih, ← hstep, ← digit_eq hb hc]
      split_ifs <;> rfl
    · rw [if_neg hc, List.takeWhile_cons_of_neg hc, List.dropWhile_cons_of_neg hc]
      rfl

end Characters

section Prefixes

variable {base : ℕ} {s : Chars} {w : ℕ}

theorem deref_eq_iff {c : BitVec 8} (hc : c ≠ 0) : deref s = c ↔ s.head? = some c := by
  cases s with
  | nil => exact ⟨fun h => absurd h.symm hc, fun h => absurd h (by simp)⟩
  | cons d s => simp [deref]

theorem deref_zero (s : Chars) : deref (48 :: s) = 48 := rfl

theorem strtoPrefix_zero (s : Chars) : strtoPrefix 0 s =
    if deref s = 48 then
      if deref s.tail = 120 ∨ deref s.tail = 88 then (16, s.tail.tail) else (8, s.tail)
    else (10, s) := by
  have hother : ¬ ((0 : ℕ) = 16 ∧ deref s = 48) := fun h => absurd h.1 (by decide)
  simp only [strtoPrefix, hother, if_false, if_true]

theorem strtoPrefix_sixteen (s : Chars) : strtoPrefix 16 s =
    (16, if deref s = 48 then
      if deref s.tail = 120 ∨ deref s.tail = 88 then s.tail.tail else s.tail
    else s) := by
  have hother : ¬ (16 : ℕ) = 0 := by decide
  simp only [strtoPrefix, hother, if_false, true_and]

theorem strtoPrefix_of_ne (hzero : base ≠ 0) (hsixteen : base ≠ 16) (s : Chars) :
    strtoPrefix base s = (base, s) := by
  simp only [strtoPrefix, hzero, hsixteen, false_and, if_false]

/-- What the loop is given where there is a prefix for hexadecimal digits. -/
theorem strtoPrefix_of_hex (h : hexPrefix base s = true) : strtoPrefix base s = (16, s.drop 2) := by
  match s with
  | [] => exact absurd h (by simp [hexPrefix])
  | [c] => exact absurd h (by simp [hexPrefix])
  | c :: x :: s =>
    simp only [hexPrefix, decide_eq_true_eq] at h
    obtain ⟨rfl | rfl, rfl, hx⟩ := h
    · rw [strtoPrefix_zero, if_pos (deref_zero _)]
      exact if_pos hx
    · rw [strtoPrefix_sixteen, if_pos (deref_zero _)]
      exact congrArg _ (if_pos hx)

theorem strtoLoop_zero (b : ℕ) (s : Chars) :
    strtoLoop b (48 :: s) (0 : BitVec w) = strtoLoop b s 0 := by
  have hvalid : isvalid b 48 = true := by simp [isvalid, isdigit]
  have hdigit : isdigit 48 = true := by decide
  have hnone : (0 : BitVec w) * BitVec.ofNat w b + BitVec.ofInt w
      ((48 : BitVec 8).toInt - 48) = 0 := by
    simp
  rw [strtoLoop, if_pos hvalid]
  dsimp only
  rw [if_pos hdigit, hnone]

theorem strtoLoop_of_not_hex (h : hexPrefix base s = false) :
    strtoLoop (strtoPrefix base s).1 (strtoPrefix base s).2 (0 : BitVec w) =
      strtoLoop (radix base s) s 0 := by
  by_cases hzero : s.head? = some 48
  · cases s with
    | nil => exact absurd hzero (by simp)
    | cons c t =>
      obtain rfl : c = 48 := Option.some.inj hzero
      have hx : base = 0 ∨ base = 16 → ¬ (deref t = 120 ∨ deref t = 88) := by
        intro hbase hx
        cases t with
        | nil => exact absurd hx (by decide)
        | cons x t =>
          have hx' : x = 120 ∨ x = 88 := hx
          simp only [hexPrefix, hbase, hx', and_true, decide_true] at h
          exact absurd h (by decide)
      rw [strtoLoop_zero]
      by_cases hsixteen : base = 16
      · subst hsixteen
        rw [strtoPrefix_sixteen, if_pos (deref_zero _), List.tail_cons, if_neg (hx (Or.inr rfl))]
        rfl
      · by_cases hbase : base = 0
        · subst hbase
          rw [strtoPrefix_zero, if_pos (deref_zero _), List.tail_cons, if_neg (hx (Or.inl rfl))]
          rfl
        · rw [strtoPrefix_of_ne hbase hsixteen, radix, if_pos hbase, strtoLoop_zero]
  · have hderef : ¬ deref s = 48 := fun h => hzero ((deref_eq_iff (by decide)).mp h)
    by_cases hsixteen : base = 16
    · subst hsixteen
      rw [strtoPrefix_sixteen, if_neg hderef]
      rfl
    · by_cases hbase : base = 0
      · subst hbase
        rw [strtoPrefix_zero, if_neg hderef, radix, if_neg (not_not.mpr rfl), if_neg hzero]
      · rw [strtoPrefix_of_ne hbase hsixteen, radix, if_pos hbase]

end Prefixes

section Results

variable {base w : ℕ} {text s : Text}

def IsBase (base : ℕ) : Prop := base = 0 ∨ 2 ≤ base ∧ base ≤ 36

def strtoBody (base : ℕ) (s : Text) : ℕ × Text :=
  if hexPrefix base s then (16, s.drop 2) else (radix base s, s)

theorem strtoBody_le (hbase : IsBase base) (s : Text) : (strtoBody base s).1 ≤ 36 := by
  have hradix : radix base s ≤ 36 := by
    rw [radix]
    obtain hzero | hrange := hbase
    · split_ifs <;> omega
    · split_ifs <;> omega
  rw [strtoBody]
  split_ifs
  · exact Nat.le_of_ble_eq_true rfl
  · exact hradix

def outcome (w base : ℕ) (s : Text) : BitVec w × Text :=
  let (b, ptr) := strtoBody base (afterSign s)
  (BitVec.ofInt w (signOf s * valueOf b (ptr.takeWhile (isvalid b))), ptr.dropWhile (isvalid b))

theorem outcome_eq {b : ℕ} {ptr : Text} (h : strtoBody base (afterSign s) = (b, ptr)) :
    outcome w base s = (BitVec.ofInt w (signOf s * valueOf b (ptr.takeWhile (isvalid b))),
      ptr.dropWhile (isvalid b)) := by
  rw [outcome, h]

theorem sign_eq (s : Text) :
    (if deref s = 45 then ((-1 : ℤ), s.tail) else if deref s = 43 then (1, s.tail) else (1, s)) =
      (signOf s, afterSign s) := by
  have hminus : deref s = 45 ↔ s.head? = some 45 := deref_eq_iff (by decide)
  have hplus : deref s = 43 ↔ s.head? = some 43 := deref_eq_iff (by decide)
  rw [signOf, afterSign, if_congr hminus rfl (if_congr hplus rfl rfl)]
  by_cases h45 : s.head? = some 45
  · rw [if_pos h45, if_pos h45, if_pos (Or.inl h45)]
  · by_cases h43 : s.head? = some 43
    · rw [if_neg h45, if_pos h43, if_neg h45, if_pos (Or.inr h43)]
    · rw [if_neg h45, if_neg h43, if_neg h45, if_neg (not_or.mpr ⟨h45, h43⟩)]

theorem strto_of_isBase (max : BitVec w) (hbase : IsBase base) (text : Text) :
    strto max text (BitVec.ofNat 32 base) =
      let s := text.dropWhile isspace
      let (base, ptr) := strtoPrefix base (afterSign s)
      let (output, ptr) := strtoLoop base ptr 0
      (if signOf s = -1 then -output else output, some ptr) := by
  have hint : (BitVec.ofNat 32 base).toInt = base := by
    rw [BitVec.toInt_eq_toNat_cond, BitVec.toNat_ofNat]
    obtain rfl | hrange := hbase
    · rfl
    · omega
  have hvalid : ¬ ((base : ℤ) < 0 ∨ (base : ℤ) = 1 ∨ (base : ℤ) > 36) := by
    obtain rfl | hrange := hbase
    · decide
    · omega
  rw [strto, hint, if_neg hvalid]
  simp only [sign_eq, Int.toNat_natCast]

/-- What the functions return for a base that there is. -/
theorem strto_eq (max : BitVec w) (hbase : IsBase base) (text : Text) :
    strto max text (BitVec.ofNat 32 base) =
      ((outcome w base (text.dropWhile isspace)).1,
        some (outcome w base (text.dropWhile isspace)).2) := by
  have hloop : ∀ s : Text,
      strtoLoop (strtoPrefix base s).1 (strtoPrefix base s).2 (0 : BitVec w) =
      (BitVec.ofNat w (valueOf (strtoBody base s).1
        ((strtoBody base s).2.takeWhile (isvalid (strtoBody base s).1))),
        (strtoBody base s).2.dropWhile (isvalid (strtoBody base s).1)) := by
    intro s
    rw [valueOf, ← strtoLoop_eq (strtoBody_le hbase s)]
    by_cases hhex : hexPrefix base s = true
    · rw [strtoPrefix_of_hex hhex, strtoBody, if_pos hhex]
      rfl
    · rw [strtoLoop_of_not_hex (Bool.eq_false_iff.mpr hhex), strtoBody, if_neg hhex]
      rfl
  have hnegate : ∀ (s : Text) (n : ℕ),
      (if signOf s = -1 then -BitVec.ofNat w n else BitVec.ofNat w n) =
      BitVec.ofInt w (signOf s * n) := by
    intro s n
    rw [signOf]
    split_ifs with h45 hone hone
    · rw [Int.neg_one_mul, BitVec.ofInt_neg, BitVec.ofInt_natCast]
    · exact absurd rfl hone
    · exact absurd hone (by decide)
    · rw [Int.one_mul, BitVec.ofInt_natCast]
  rw [strto_of_isBase max hbase]
  simp only [hloop, hnegate, outcome]

/-- Without a form feed the blanks are those of the language. -/
theorem dropWhile_isspace (h : 12 ∉ text.takeWhile isBlank) :
    text.dropWhile isspace = text.dropWhile isBlank := by
  induction text with
  | nil => rfl
  | cons c text ih =>
    by_cases hblank : isBlank c = true
    · rw [List.takeWhile_cons_of_pos hblank, List.mem_cons, not_or] at h
      have hspace : isspace c = true := by
        rw [isBlank_iff, Bool.or_eq_true, decide_eq_true_eq] at hblank
        exact hblank.resolve_right fun hc => h.1 hc.symm
      rw [List.dropWhile_cons_of_pos hspace, List.dropWhile_cons_of_pos hblank, ih h.2]
    · have hspace : ¬ isspace c = true := by
        rw [isBlank_iff, Bool.or_eq_true] at hblank
        exact (not_or.mp hblank).1
      rw [List.dropWhile_cons_of_neg hspace, List.dropWhile_cons_of_neg hblank]

theorem exists_form_feed (h : 12 ∈ text.takeWhile isBlank) :
    ∃ back, text.dropWhile isspace = 12 :: back ∧ text.dropWhile isBlank <:+ back := by
  induction text with
  | nil => exact absurd h List.not_mem_nil
  | cons c text ih =>
    have hblank : isBlank c = true := by
      by_contra hblank
      rw [List.takeWhile_cons_of_neg hblank] at h
      exact absurd h List.not_mem_nil
    rw [List.dropWhile_cons_of_pos hblank]
    by_cases hspace : isspace c = true
    · have hne : (12 : BitVec 8) ≠ c := by
        rintro rfl
        exact absurd hspace (by decide)
      rw [List.takeWhile_cons_of_pos hblank] at h
      rw [List.dropWhile_cons_of_pos hspace]
      exact ih (List.mem_of_ne_of_mem hne h)
    · rw [isBlank_iff, Bool.or_eq_true, decide_eq_true_eq] at hblank
      obtain rfl := hblank.resolve_left hspace
      rw [List.dropWhile_cons_of_neg hspace]
      exact ⟨text, rfl, List.dropWhile_suffix _⟩

theorem unsigned_suffix (text : Text) : unsigned text <:+ text.dropWhile isBlank := by
  rw [unsigned, afterSign]
  split_ifs
  · exact List.tail_suffix _
  · exact List.suffix_rfl

theorem dropWhile_isvalid {b : ℕ} (hb : b ≤ 36) (s : Text) :
    s.dropWhile (isvalid b) = (s.dropWhile (below b)).dropWhile (isvalid b) := by
  induction s with
  | nil => rfl
  | cons c s ih =>
    by_cases hc : below b c = true
    · have hvalid : isvalid b c = true := by rw [isvalid_eq hb, hc, Bool.or_true]
      rw [List.dropWhile_cons_of_pos hvalid, List.dropWhile_cons_of_pos hc, ih]
    · rw [List.dropWhile_cons_of_neg hc]

/-- The loop goes no further than the digits exactly if no decimal digit is behind them. -/
theorem dropWhile_isvalid_iff {b : ℕ} (hb : b ≤ 36) (s : Text) :
    s.dropWhile (isvalid b) = s.dropWhile (below b) ↔
      ∀ c, (s.dropWhile (below b)).head? = some c → isdigit c = false := by
  rw [dropWhile_isvalid hb]
  cases hrest : s.dropWhile (below b) with
  | nil => simp
  | cons c rest =>
    have hbelow : below b c = false := by
      have h := List.head?_dropWhile_not (below b) s
      rw [hrest] at h
      simpa using h
    have hvalid : isvalid b c = isdigit c := by rw [isvalid_eq hb, hbelow, Bool.or_false]
    simp only [List.head?_cons, Option.some.injEq, forall_eq']
    cases hc : isdigit c with
    | true =>
      rw [List.dropWhile_cons_of_pos (hvalid.trans hc)]
      refine iff_of_false (fun h => ?_) Bool.noConfusion
      have hle := (List.dropWhile_suffix (isvalid b) (l := rest)).length_le
      rw [h, List.length_cons] at hle
      omega
    | false =>
      rw [List.dropWhile_cons_of_neg (by rw [hvalid, hc]; exact Bool.false_ne_true)]
      exact iff_of_true rfl rfl

theorem takeWhile_eq_of_dropWhile_eq {p q : BitVec 8 → Bool} (h : s.dropWhile p = s.dropWhile q) :
    s.takeWhile p = s.takeWhile q := by
  have hp := List.takeWhile_append_dropWhile (p := p) (l := s)
  have hq := List.takeWhile_append_dropWhile (p := q) (l := s)
  rw [h] at hp
  exact List.append_cancel_right (hp.trans hq.symm)

theorem reads_iff_eq (max : BitVec w) (hbase : IsBase base) (text : Text) :
    Reads (strto max) base text ↔
      outcome w base (text.dropWhile isspace) = convert w base text := by
  have heq := strto_eq max hbase text
  constructor
  · rintro ⟨value, rest, hstrto, hconverts⟩
    obtain ⟨hvalue, hrest⟩ := Prod.mk.inj (heq.symm.trans hstrto)
    rw [← converts_iff.mp hconverts, ← hvalue, ← Option.some.inj hrest]
  · intro h
    exact ⟨_, _, heq, converts_iff.mpr h⟩

theorem behind_suffix (base : ℕ) (s : Text) : behind base s <:+ s := by
  rw [behind, body]
  split_ifs
  · exact (List.dropWhile_suffix _).trans (List.drop_suffix _ _)
  · exact List.dropWhile_suffix _

theorem reads_iff_of_form_feed (max : BitVec w) (hbase : IsBase base)
    (h : 12 ∈ text.takeWhile isBlank) : Reads (strto max) base text ↔
      digits base (unsigned text) = [] ∧ text.head? = some 12 := by
  obtain ⟨back, hspace, hblank⟩ := exists_form_feed h
  have hsign : afterSign (12 :: back) = 12 :: back := if_neg (by simp)
  have hhex : ¬ hexPrefix base (12 :: back) = true := by
    intro hhex
    exact absurd (base_of_hexPrefix hhex).2 (by simp)
  have hvalid : ¬ isvalid (radix base (12 :: back)) 12 = true := by
    simp [isvalid, isdigit, tolower]
  have hbody : strtoBody base (afterSign (12 :: back)) = (radix base (12 :: back), 12 :: back) := by
    rw [hsign, strtoBody, if_neg hhex]
  have houtcome : outcome w base (12 :: back) = (0, 12 :: back) := by
    rw [outcome_eq hbody, List.takeWhile_cons_of_neg hvalid, List.dropWhile_cons_of_neg hvalid]
    simp [valueOf]
  have hbehind : (behind base (unsigned text)).length < (12 :: back).length := by
    have hsuffix := ((behind_suffix base _).trans (unsigned_suffix text)).trans hblank
    exact Nat.lt_succ_of_le hsuffix.length_le
  rw [reads_iff_eq max hbase, hspace, houtcome, convert]
  by_cases hnil : digits base (unsigned text) = []
  · rw [if_pos hnil, Prod.mk.injEq]
    constructor
    · rintro ⟨-, heq⟩
      rw [← heq]
      exact ⟨heq ▸ hnil, rfl⟩
    · rintro ⟨-, hhead⟩
      refine ⟨rfl, hspace.symm.trans ?_⟩
      cases text with
      | nil => rfl
      | cons c text =>
        obtain rfl : c = 12 := Option.some.inj hhead
        exact List.dropWhile_cons_of_neg (by decide)
  · rw [if_neg hnil, Prod.mk.injEq]
    refine iff_of_false (fun heq => ?_) fun h => hnil h.1
    rw [← heq.2] at hbehind
    exact Nat.lt_irrefl _ hbehind

/-- The number that a prefix without hexadecimal digits is, is its zero. -/
theorem behind_of_bare_head (hhead : hexPrefix base s = true)
    (hnone : ¬ (s.drop 2).head?.any (below 16) = true) :
    digits base s ≠ [] ∧ (behind base s).length = (s.drop 2).length + 1 := by
  have hbody := body_of_not_hex fun h : hexPrefix base s = true ∧ _ => hnone h.2
  rw [digits, behind, hbody]
  rcases s with - | ⟨c, - | ⟨x, s⟩⟩
  · exact absurd hhead (by simp [hexPrefix])
  · exact absurd hhead (by simp [hexPrefix])
  · simp only [hexPrefix, decide_eq_true_eq] at hhead
    obtain ⟨hbase, rfl, hx⟩ := hhead
    have hradix : radix base (48 :: x :: s) = 16 ∨ radix base (48 :: x :: s) = 8 := by
      obtain rfl | rfl := hbase
      · exact Or.inr rfl
      · exact Or.inl rfl
    have hzero : below (radix base (48 :: x :: s)) 48 = true := by
      obtain h | h := hradix
      · rw [h]
        decide
      · rw [h]
        decide
    have hother : ¬ below (radix base (48 :: x :: s)) x = true := by
      obtain h | h := hradix
      · rw [h]
        obtain rfl | rfl := hx <;> decide
      · rw [h]
        obtain rfl | rfl := hx <;> decide
    rw [List.takeWhile_cons_of_pos hzero, List.dropWhile_cons_of_pos hzero,
      List.dropWhile_cons_of_neg hother]
    exact ⟨List.cons_ne_nil _ _, rfl⟩

/-- The functions pass over such a prefix as a whole. -/
theorem outcome_ne_of_bare_head (hsign : afterSign s = unsigned text)
    (hhead : hexPrefix base (unsigned text) = true)
    (hnone : ¬ ((unsigned text).drop 2).head?.any (below 16) = true) :
    outcome w base s ≠ convert w base text := by
  intro heq
  obtain ⟨hdigits, hbehind⟩ := behind_of_bare_head hhead hnone
  have hbody : strtoBody base (afterSign s) = (16, (unsigned text).drop 2) := by
    rw [hsign, strtoBody, if_pos hhead]
  have hle : (outcome w base s).2.length ≤ ((unsigned text).drop 2).length := by
    rw [outcome_eq hbody]
    exact (List.dropWhile_suffix _).length_le
  rw [heq, convert, if_neg hdigits, hbehind] at hle
  exact Nat.not_succ_le_self _ hle

/-- Where the loop starts at the digits of the number, it has to stop behind them, and to be at the
start of the text if there are none. -/
theorem outcome_eq_convert_iff (hbase : IsBase base) (hsign : s = text.dropWhile isBlank)
    (hbody : strtoBody base (unsigned text) = body base (unsigned text)) :
    outcome w base s = convert w base text ↔
      (∀ c, (behind base (unsigned text)).head? = some c → isdigit c = false) ∧
        (digits base (unsigned text) = [] → unsigned text = text) := by
  subst hsign
  obtain ⟨b, ptr, hpair⟩ : ∃ b ptr, body base (unsigned text) = (b, ptr) := ⟨_, _, rfl⟩
  have hcode := hbody.trans hpair
  have hle : b ≤ 36 := by
    have h := strtoBody_le hbase (unsigned text)
    rwa [hcode] at h
  have hdigits : digits base (unsigned text) = ptr.takeWhile (below b) := by rw [digits, hpair]
  have hbehind : behind base (unsigned text) = ptr.dropWhile (below b) := by rw [behind, hpair]
  rw [hbehind, ← dropWhile_isvalid_iff hle, outcome_eq hcode, convert, hbehind, hdigits, hpair]
  by_cases hnil : ptr.takeWhile (below b) = []
  · have hplain : ptr = unsigned text := by
      by_cases hhex : hexPrefix base (unsigned text) = true ∧
          ((unsigned text).drop 2).head?.any (below 16) = true
      · exact absurd (hdigits.trans hnil) (digits_of_hex hhex.1 hhex.2)
      · rw [body_of_not_hex hhex] at hpair
        exact (Prod.mk.inj hpair).2.symm
    have hall : ptr.dropWhile (below b) = ptr := by
      have hsplit := List.takeWhile_append_dropWhile (p := below b) (l := ptr)
      rwa [hnil] at hsplit
    have hsuffix : ptr <:+ text :=
      hplain ▸ (unsigned_suffix text).trans (List.dropWhile_suffix _)
    rw [if_pos hnil, Prod.mk.injEq]
    constructor
    · rintro ⟨-, hrest⟩
      have hle := (List.dropWhile_suffix (isvalid b) (l := ptr)).length_le
      rw [hrest] at hle
      have hsame : ptr = text := hsuffix.eq_of_length (hsuffix.length_le.antisymm hle)
      refine ⟨?_, fun _ => hplain ▸ hsame⟩
      rw [hall, hrest, hsame]
    · rintro ⟨hrest, hsame⟩
      refine ⟨?_, ?_⟩
      · rw [takeWhile_eq_of_dropWhile_eq hrest, hnil]
        simp [valueOf]
      · rw [hrest, hall, hplain, hsame hnil]
  · rw [if_neg hnil, Prod.mk.injEq]
    constructor
    · rintro ⟨-, hrest⟩
      exact ⟨hrest, fun h => absurd h hnil⟩
    · rintro ⟨hrest, -⟩
      rw [takeWhile_eq_of_dropWhile_eq hrest]
      exact ⟨rfl, hrest⟩

theorem reads_iff_of_no_form_feed (max : BitVec w) (hbase : IsBase base)
    (h : 12 ∉ text.takeWhile isBlank) : Reads (strto max) base text ↔
      (hexPrefix base (unsigned text) = true →
        ((unsigned text).drop 2).head?.any (below 16) = true) ∧
      (∀ c, (behind base (unsigned text)).head? = some c → isdigit c = false) ∧
      (digits base (unsigned text) = [] → unsigned text = text) := by
  rw [reads_iff_eq max hbase, dropWhile_isspace h]
  by_cases hhead : hexPrefix base (unsigned text) = true
  · by_cases hdigit : ((unsigned text).drop 2).head?.any (below 16) = true
    · have hbody : strtoBody base (unsigned text) = body base (unsigned text) := by
        rw [strtoBody, if_pos hhead, body_of_hex hhead hdigit]
      rw [outcome_eq_convert_iff hbase rfl hbody, and_iff_right fun _ => hdigit]
    · exact iff_of_false (outcome_ne_of_bare_head rfl hhead hdigit) fun h => hdigit (h.1 hhead)
  · have hbody : strtoBody base (unsigned text) = body base (unsigned text) := by
      rw [strtoBody, if_neg hhead, body_of_not_hex fun h => hhead h.1]
    rw [outcome_eq_convert_iff hbase rfl hbody, and_iff_right fun h => absurd h hhead]

theorem reads_iff (max : BitVec w) (hbase : IsBase base) (text : Text) :
    Reads (strto max) base text ↔ Plain base text := by
  by_cases hfeed : 12 ∈ text.takeWhile isBlank
  · rw [reads_iff_of_form_feed max hbase hfeed, Plain, or_iff_right fun h => h.1 hfeed]
  · have hhead : text.head? ≠ some 12 := by
      intro hhead
      cases text with
      | nil => exact absurd hhead (by simp)
      | cons c text =>
        obtain rfl : c = 12 := Option.some.inj hhead
        exact hfeed (by simp [isBlank])
    rw [reads_iff_of_no_form_feed max hbase hfeed, Plain, or_iff_left fun h => hhead h.2,
      and_iff_right hfeed]

/-- Each of the functions reads a number rightly exactly if nothing else is taken for a part of
it. -/
theorem strto_reads_iff (hbase : IsBase base) (text : Text) :
    (Reads strtol base text ↔ Plain base text) ∧ (Reads strtoll base text ↔ Plain base text) ∧
      (Reads strtoul base text ↔ Plain base text) ∧
      (Reads strtoull base text ↔ Plain base text) :=
  ⟨reads_iff _ hbase text, reads_iff _ hbase text, reads_iff _ hbase text,
    reads_iff _ hbase text⟩

theorem strto_reads_hex : Reads strtol 16 [32, 45, 48, 120, 49, 70, 59] := by
  have hplain : Plain 16 [32, 45, 48, 120, 49, 70, 59] := by
    unfold Plain
    decide
  exact (strto_reads_iff (Or.inr ⟨by decide, by decide⟩) _).1.mpr hplain

/-- A nine is taken for an octal digit. -/
theorem nine_read_as_octal : ¬ ∀ base text, IsBase base →
    Reads strtol base text ∧ Reads strtoll base text ∧ Reads strtoul base text ∧
      Reads strtoull base text := by
  intro h
  have hbase : IsBase 8 := Or.inr ⟨by decide, by decide⟩
  have hplain := (reads_iff _ hbase [49, 57]).mp (h 8 [49, 57] hbase).1
  have hnot : ¬ Plain 8 [49, 57] := by
    unfold Plain
    decide
  exact hnot hplain

end Results

end ReduceOS.IntegerParsing
