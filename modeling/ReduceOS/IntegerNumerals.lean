import Mathlib.Data.List.Basic
import Mathlib.Data.List.TakeWhile
import Mathlib.Data.Nat.Basic
import Mathlib.Order.Basic

/-!
Integers as the C library reads them from text: blanks, a sign, a prefix for base 16, and digits.
A conversion takes the longest prefix of the text that is one, and there is one way to read it.
-/
namespace ReduceOS.IntegerNumerals

abbrev Text := List (BitVec 8)

def isBlank (c : BitVec 8) : Bool := c = 32 ∨ 9 ≤ c.toNat ∧ c.toNat ≤ 13

def digitOf (c : BitVec 8) : Option ℕ :=
  if 48 ≤ c.toNat ∧ c.toNat ≤ 57 then some (c.toNat - 48)
  else if 65 ≤ c.toNat ∧ c.toNat ≤ 90 then some (c.toNat - 55)
  else if 97 ≤ c.toNat ∧ c.toNat ≤ 122 then some (c.toNat - 87)
  else none

def below (base : ℕ) (c : BitVec 8) : Bool := (digitOf c).any (· < base)

def valueOf (base : ℕ) (digits : Text) : ℕ :=
  digits.foldl (fun n c => n * base + (digitOf c).getD 0) 0

structure Digits (base : ℕ) (digits : Text) : Prop where
  nonempty : digits ≠ []
  below : ∀ c ∈ digits, below base c = true

inductive Magnitude (base : ℕ) : Text → ℕ → Prop
  | plain {digits} : base ≠ 0 → Digits base digits → Magnitude base digits (valueOf base digits)
  | hex {x digits} : base = 0 ∨ base = 16 → x = 120 ∨ x = 88 → Digits 16 digits →
      Magnitude base (48 :: x :: digits) (valueOf 16 digits)
  | octal {digits} : base = 0 → digits.head? = some 48 → Digits 8 digits →
      Magnitude base digits (valueOf 8 digits)
  | decimal {digits} : base = 0 → digits.head? ≠ some 48 → Digits 10 digits →
      Magnitude base digits (valueOf 10 digits)

inductive Numeral (base : ℕ) : Text → ℤ → Prop
  | unsigned {blanks text n} : (∀ c ∈ blanks, isBlank c = true) → Magnitude base text n →
      Numeral base (blanks ++ text) n
  | plus {blanks text n} : (∀ c ∈ blanks, isBlank c = true) → Magnitude base text n →
      Numeral base (blanks ++ 43 :: text) n
  | minus {blanks text n} : (∀ c ∈ blanks, isBlank c = true) → Magnitude base text n →
      Numeral base (blanks ++ 45 :: text) (-n)

/-- The longest prefix of the text that is a number is read, and what is behind it is left; if
there is none, nothing is read. -/
def Converts {w : ℕ} (base : ℕ) (text : Text) (value : BitVec w) (rest : Text) : Prop :=
  (∃ numeral n, Numeral base numeral n ∧ numeral ++ rest = text ∧ value = BitVec.ofInt w n ∧
    ∀ numeral' n', Numeral base numeral' n' → numeral' <+: text →
      numeral'.length ≤ numeral.length) ∨
  (∀ numeral n, Numeral base numeral n → ¬ numeral <+: text) ∧ value = 0 ∧ rest = text

section Reading

variable {base : ℕ} {s text rest : Text}

/-- A zero and an `x`, where they can begin a number of base 16. -/
def hexPrefix (base : ℕ) : Text → Bool
  | c :: x :: _ => (base = 0 ∨ base = 16) ∧ c = 48 ∧ (x = 120 ∨ x = 88)
  | _ => false

def radix (base : ℕ) (s : Text) : ℕ :=
  if base ≠ 0 then base else if s.head? = some 48 then 8 else 10

def body (base : ℕ) (s : Text) : ℕ × Text :=
  if hexPrefix base s ∧ (s.drop 2).head?.any (below 16) then (16, s.drop 2) else (radix base s, s)

def digits (base : ℕ) (s : Text) : Text := (body base s).2.takeWhile (below (body base s).1)

def behind (base : ℕ) (s : Text) : Text := (body base s).2.dropWhile (below (body base s).1)

/-- Digits in front of a text are among those that it begins with. -/
theorem takeWhile_digits {b : ℕ} {ds : Text} (rest : Text) (h : Digits b ds) :
    (ds ++ rest).takeWhile (below b) ≠ [] ∧
        ((ds ++ rest).dropWhile (below b)).length ≤ rest.length ∧
      (((ds ++ rest).dropWhile (below b)).length = rest.length →
        (ds ++ rest).takeWhile (below b) = ds) := by
  rw [List.takeWhile_append_of_pos h.below, List.dropWhile_append_of_pos h.below]
  refine ⟨fun hnil => h.nonempty (List.append_eq_nil_iff.mp hnil).1,
    (List.dropWhile_suffix _).length_le, fun hlength => ?_⟩
  have hall : rest.dropWhile (below b) = rest := (List.dropWhile_suffix _).eq_of_length hlength
  have hnone : rest.takeWhile (below b) = [] := by
    have hsplit := List.takeWhile_append_dropWhile (p := below b) (l := rest)
    rw [hall] at hsplit
    exact List.append_left_eq_self.mp hsplit
  rw [hnone, List.append_nil]

/-- Where a text begins as a number of base 16 does, other digits in front are the zero alone. -/
theorem digits_before_hex {b : ℕ} {ds : Text} (h : Digits b ds) (hb : b ≤ 16)
    (hhead : hexPrefix base (ds ++ rest) = true) : ds = [48] := by
  obtain ⟨hne, hall⟩ := h
  cases ds with
  | nil => exact absurd rfl hne
  | cons c ds =>
    cases ds with
    | nil =>
      have hzero : c = 48 := by
        cases rest with
        | nil => exact absurd hhead (by simp [hexPrefix])
        | cons x rest =>
          simp only [List.cons_append, List.nil_append, hexPrefix, decide_eq_true_eq] at hhead
          exact hhead.2.1
      rw [hzero]
    | cons x ds =>
      exfalso
      simp only [List.cons_append, hexPrefix, decide_eq_true_eq] at hhead
      have hx := hall x (List.mem_cons_of_mem _ List.mem_cons_self)
      obtain ⟨-, -, rfl | rfl⟩ := hhead
      · have h33 : 33 < b := by simpa [below, digitOf] using hx
        omega
      · have h33 : 33 < b := by simpa [below, digitOf] using hx
        omega

theorem body_of_hex (hhead : hexPrefix base s = true)
    (hdigit : (s.drop 2).head?.any (below 16) = true) : body base s = (16, s.drop 2) :=
  if_pos ⟨hhead, hdigit⟩

theorem body_of_not_hex
    (h : ¬ (hexPrefix base s = true ∧ (s.drop 2).head?.any (below 16) = true)) :
    body base s = (radix base s, s) :=
  if_neg h

theorem digits_of_hex (hhead : hexPrefix base s = true)
    (hdigit : (s.drop 2).head?.any (below 16) = true) : digits base s ≠ [] := by
  rw [digits, body_of_hex hhead hdigit]
  cases hrest : s.drop 2 with
  | nil => exact absurd hdigit (by simp [hrest])
  | cons c rest =>
    have hc : below 16 c = true := by simpa [hrest] using hdigit
    rw [List.takeWhile_cons_of_pos hc]
    exact List.cons_ne_nil _ _

/-- A number of base 16 is longer than the zero in front of its `x`. -/
theorem behind_lt_of_hex {b : ℕ} {ds : Text} (h : Digits b ds) (hb : b ≤ 16)
    (hhead : hexPrefix base (ds ++ rest) = true)
    (hdigit : ((ds ++ rest).drop 2).head?.any (below 16) = true) :
    (behind base (ds ++ rest)).length < rest.length := by
  have hle : (behind base (ds ++ rest)).length ≤ ((ds ++ rest).drop 2).length := by
    rw [behind, body_of_hex hhead hdigit]
    exact (List.dropWhile_suffix _).length_le
  rw [digits_before_hex h hb hhead] at hle hdigit ⊢
  cases rest with
  | nil => exact absurd hdigit (by simp)
  | cons x rest => exact Nat.lt_succ_of_le hle

/-- What is read of a text goes at least as far as the number in front of `rest`, and stands for
the same if it does not go further. -/
structure Reaches (base : ℕ) (s rest : Text) (n : ℕ) : Prop where
  nonempty : digits base s ≠ []
  far : (behind base s).length ≤ rest.length
  same : (behind base s).length = rest.length → valueOf (body base s).1 (digits base s) = n

theorem reaches_of_body {b : ℕ} {ds : Text} (h : Digits b ds)
    (hbody : body base s = (b, ds ++ rest)) :
    Reaches base s rest (valueOf b ds) := by
  obtain ⟨hne, hle, hsame⟩ := takeWhile_digits rest h
  constructor
  · rwa [digits, hbody]
  · rwa [behind, hbody]
  · intro hlength
    rw [behind, hbody] at hlength
    rw [digits, hbody, hsame hlength]

theorem reaches_of_hex {b n : ℕ} (h : Digits b text) (hb : b ≤ 16)
    (hhex : hexPrefix base (text ++ rest) = true ∧
      ((text ++ rest).drop 2).head?.any (below 16) = true) :
    Reaches base (text ++ rest) rest n := by
  have hless := behind_lt_of_hex h hb hhex.1 hhex.2
  exact ⟨digits_of_hex hhex.1 hhex.2, hless.le, fun heq => absurd heq hless.ne⟩

theorem base_of_hexPrefix (h : hexPrefix base s = true) :
    (base = 0 ∨ base = 16) ∧ s.head? = some 48 := by
  match s with
  | [] => exact absurd h (by simp [hexPrefix])
  | [c] => exact absurd h (by simp [hexPrefix])
  | c :: x :: s =>
    simp only [hexPrefix, decide_eq_true_eq] at h
    exact ⟨h.1, congrArg some h.2.1⟩

/-- Nothing that is a number goes beyond what is read. -/
theorem Magnitude.reaches {n : ℕ} (h : Magnitude base text n) (rest : Text) :
    Reaches base (text ++ rest) rest n := by
  have hhead : ∀ {ds : Text}, ds ≠ [] → (ds ++ rest).head? = ds.head? := by
    intro ds hne
    rw [List.head?_append_of_ne_nil _ hne]
  by_cases hhex : hexPrefix base (text ++ rest) = true ∧
      ((text ++ rest).drop 2).head?.any (below 16) = true
  · obtain ⟨hbase, hzero⟩ := base_of_hexPrefix hhex.1
    cases h with
    | plain hne hdigits =>
      have h16 : base ≤ 16 := by omega
      exact reaches_of_hex hdigits h16 hhex
    | hex _ _ hdigits => exact reaches_of_body hdigits (body_of_hex hhex.1 hhex.2)
    | octal _ _ hdigits => exact reaches_of_hex hdigits (by decide) hhex
    | decimal _ hother hdigits =>
      rw [hhead hdigits.nonempty] at hzero
      exact absurd hzero hother
  · cases h with
    | plain hne hdigits =>
      refine reaches_of_body hdigits ?_
      rw [body_of_not_hex hhex, radix, if_pos hne]
    | @hex x ds hbase hx hdigits =>
      refine absurd ⟨?_, ?_⟩ hhex
      · simp only [List.cons_append, hexPrefix, decide_eq_true_eq]
        exact ⟨hbase, trivial, hx⟩
      · obtain ⟨hne, hall⟩ := hdigits
        cases ds with
        | nil => exact absurd rfl hne
        | cons c ds => exact hall c List.mem_cons_self
    | octal hbase hzero hdigits =>
      refine reaches_of_body hdigits ?_
      rw [body_of_not_hex hhex, radix, if_neg (not_not.mpr hbase), hhead hdigits.nonempty,
        if_pos hzero]
    | decimal hbase hother hdigits =>
      refine reaches_of_body hdigits ?_
      rw [body_of_not_hex hhex, radix, if_neg (not_not.mpr hbase), hhead hdigits.nonempty,
        if_neg hother]

theorem magnitude_read (h : digits base s ≠ []) : ∃ text,
    Magnitude base text (valueOf (body base s).1 (digits base s)) ∧ text ++ behind base s = s := by
  have hall : Digits (body base s).1 (digits base s) := ⟨h, fun c hc => List.mem_takeWhile_imp hc⟩
  have hsplit : digits base s ++ behind base s = (body base s).2 := List.takeWhile_append_dropWhile
  by_cases hhex : hexPrefix base s = true ∧ (s.drop 2).head?.any (below 16) = true
  · have hbody := body_of_hex hhex.1 hhex.2
    match s with
    | [] => exact absurd hhex.1 (by simp [hexPrefix])
    | [c] => exact absurd hhex.1 (by simp [hexPrefix])
    | c :: x :: s =>
      have hhead := hhex.1
      simp only [hexPrefix, decide_eq_true_eq] at hhead
      obtain ⟨hbase, rfl, hx⟩ := hhead
      refine ⟨48 :: x :: digits base (48 :: x :: s), ?_, ?_⟩
      · rw [hbody] at hall ⊢
        exact .hex hbase hx hall
      · rw [hbody] at hsplit
        exact congrArg (48 :: x :: ·) hsplit
  · have hbody := body_of_not_hex hhex
    rw [hbody] at hall hsplit ⊢
    refine ⟨digits base s, ?_, hsplit⟩
    have hhead : s.head? = (digits base s).head? := by
      rw [← List.head?_append_of_ne_nil _ h, hsplit]
    rw [radix, hhead] at hall ⊢
    split_ifs at hall ⊢ with hbase hzero
    · exact .plain hbase hall
    · exact .octal (not_not.mp hbase) hzero hall
    · exact .decimal (not_not.mp hbase) hzero hall

def signOf (s : Text) : ℤ := if s.head? = some 45 then -1 else 1

def afterSign (s : Text) : Text := if s.head? = some 45 ∨ s.head? = some 43 then s.tail else s

def unsigned (text : Text) : Text := afterSign (text.dropWhile isBlank)

theorem digit_not_blank {c : BitVec 8} (h : (digitOf c).isSome) :
    isBlank c = false ∧ c ≠ 45 ∧ c ≠ 43 := by
  revert c
  decide

theorem Magnitude.head {n : ℕ} (h : Magnitude base text n) :
    ∃ c rest, text = c :: rest ∧ (digitOf c).isSome := by
  have hfirst : ∀ {b ds}, Digits b ds → ∃ c rest, ds = c :: rest ∧ (digitOf c).isSome := by
    intro b ds hds
    obtain ⟨hne, hall⟩ := hds
    cases ds with
    | nil => exact absurd rfl hne
    | cons c ds =>
      refine ⟨c, ds, rfl, ?_⟩
      have hc := hall c List.mem_cons_self
      rw [below] at hc
      cases hdigit : digitOf c with
      | none => exact absurd hc (by simp [hdigit])
      | some d => rfl
  cases h with
  | plain _ hds => exact hfirst hds
  | hex _ _ _ => exact ⟨48, _, rfl, by decide⟩
  | octal _ _ hds => exact hfirst hds
  | decimal _ _ hds => exact hfirst hds

theorem dropWhile_blanks {blanks : Text} {c : BitVec 8}
    (hblanks : ∀ c ∈ blanks, isBlank c = true) (hc : isBlank c = false) (s : Text) :
    (blanks ++ c :: s).dropWhile isBlank = c :: s := by
  rw [List.dropWhile_append_of_pos hblanks, List.dropWhile_cons_of_neg (Bool.eq_false_iff.mp hc)]

/-- A number in front of `rest`, and its part without blanks and sign. -/
theorem numeral_iff {n : ℤ} : (∃ numeral, Numeral base numeral n ∧ numeral ++ rest = text) ↔
    ∃ magnitude m, Magnitude base magnitude m ∧ magnitude ++ rest = unsigned text ∧
      n = signOf (text.dropWhile isBlank) * m := by
  constructor
  · rintro ⟨numeral, hnumeral, rfl⟩
    cases hnumeral with
    | @unsigned blanks magnitude m hblanks hmagnitude =>
      obtain ⟨c, tail, rfl, hc⟩ := hmagnitude.head
      obtain ⟨hblank, hminus, hplus⟩ := digit_not_blank hc
      have hdrop := dropWhile_blanks hblanks hblank (tail ++ rest)
      have hminus' : some c ≠ some 45 := fun h => hminus (Option.some.inj h)
      have hplus' : some c ≠ some 43 := fun h => hplus (Option.some.inj h)
      refine ⟨c :: tail, m, hmagnitude, ?_, ?_⟩
      · rw [IntegerNumerals.unsigned, List.append_assoc, List.cons_append, hdrop, afterSign,
          List.head?_cons, if_neg (not_or.mpr ⟨hminus', hplus'⟩)]
      · rw [List.append_assoc, List.cons_append, hdrop, signOf, List.head?_cons, if_neg hminus',
          Int.one_mul]
    | @plus blanks magnitude m hblanks hmagnitude =>
      have hblank : isBlank 43 = false := by decide
      have hdrop := dropWhile_blanks hblanks hblank (magnitude ++ rest)
      refine ⟨magnitude, m, hmagnitude, ?_, ?_⟩
      · rw [IntegerNumerals.unsigned, List.append_assoc, List.cons_append, hdrop]
        exact (if_pos (Or.inr rfl)).symm
      · rw [List.append_assoc, List.cons_append, hdrop]
        exact (Int.one_mul _).symm
    | @minus blanks magnitude m hblanks hmagnitude =>
      have hblank : isBlank 45 = false := by decide
      have hdrop := dropWhile_blanks hblanks hblank (magnitude ++ rest)
      refine ⟨magnitude, m, hmagnitude, ?_, ?_⟩
      · rw [IntegerNumerals.unsigned, List.append_assoc, List.cons_append, hdrop]
        exact (if_pos (Or.inl rfl)).symm
      · rw [List.append_assoc, List.cons_append, hdrop]
        exact (Int.neg_one_mul _).symm
  · rintro ⟨magnitude, m, hmagnitude, hunsigned, rfl⟩
    have hblanks : ∀ c ∈ text.takeWhile isBlank, isBlank c = true :=
      fun c hc => List.mem_takeWhile_imp hc
    have hsplit := List.takeWhile_append_dropWhile (p := isBlank) (l := text)
    generalize text.takeWhile isBlank = blanks at hblanks hsplit
    rw [IntegerNumerals.unsigned] at hunsigned
    generalize text.dropWhile isBlank = s at hsplit hunsigned ⊢
    subst hsplit
    rw [afterSign] at hunsigned
    split_ifs at hunsigned with hsign
    · cases s with
      | nil => exact absurd hsign (by simp)
      | cons c s =>
        obtain rfl : magnitude ++ rest = s := hunsigned
        simp only [List.head?_cons, Option.some.injEq] at hsign
        obtain rfl | rfl := hsign
        · exact ⟨_, by simpa [signOf] using Numeral.minus hblanks hmagnitude, by simp⟩
        · exact ⟨_, by simpa [signOf] using Numeral.plus hblanks hmagnitude, by simp⟩
    · subst hunsigned
      have hplus : signOf (magnitude ++ rest) = 1 := if_neg (not_or.mp hsign).1
      rw [hplus, Int.one_mul]
      exact ⟨_, Numeral.unsigned hblanks hmagnitude, by simp⟩

def convert (w base : ℕ) (text : Text) : BitVec w × Text :=
  let s := unsigned text
  if digits base s = [] then (0, text)
  else (BitVec.ofInt w (signOf (text.dropWhile isBlank) * valueOf (body base s).1 (digits base s)),
    behind base s)

theorem not_numeral_of_nil (h : digits base (unsigned text) = []) {numeral : Text} {n : ℤ}
    (hnumeral : Numeral base numeral n) : ¬ numeral <+: text := by
  rintro ⟨rest, heq⟩
  obtain ⟨magnitude, m, hmagnitude, hunsigned, -⟩ := numeral_iff.mp ⟨numeral, hnumeral, heq⟩
  have hreaches := hmagnitude.reaches rest
  rw [hunsigned] at hreaches
  exact hreaches.nonempty h

theorem exists_longest (h : digits base (unsigned text) ≠ []) : ∃ numeral,
    Numeral base numeral (signOf (text.dropWhile isBlank) *
      valueOf (body base (unsigned text)).1 (digits base (unsigned text))) ∧
    numeral ++ behind base (unsigned text) = text ∧
    ∀ numeral' n', Numeral base numeral' n' → numeral' <+: text →
      numeral'.length ≤ numeral.length := by
  obtain ⟨magnitude, hmagnitude, hsplit⟩ := magnitude_read h
  obtain ⟨numeral, hnumeral, heq⟩ := numeral_iff.mpr ⟨magnitude, _, hmagnitude, hsplit, rfl⟩
  refine ⟨numeral, hnumeral, heq, fun numeral' n' hnumeral' ⟨rest', heq'⟩ => ?_⟩
  obtain ⟨magnitude', m', hmagnitude', hunsigned, -⟩ := numeral_iff.mp ⟨numeral', hnumeral', heq'⟩
  have hreaches := hmagnitude'.reaches rest'
  rw [hunsigned] at hreaches
  have hlength := congrArg List.length (heq.trans heq'.symm)
  simp only [List.length_append] at hlength
  have hfar := hreaches.far
  omega

theorem converts_iff {w : ℕ} {value : BitVec w} :
    Converts base text value rest ↔ (value, rest) = convert w base text := by
  by_cases hnil : digits base (unsigned text) = []
  · rw [convert, if_pos hnil, Prod.mk.injEq]
    constructor
    · rintro (⟨numeral, n, hnumeral, heq, -⟩ | ⟨-, hvalue, hrest⟩)
      · exact absurd ⟨rest, heq⟩ (not_numeral_of_nil hnil hnumeral)
      · exact ⟨hvalue, hrest⟩
    · intro h
      exact Or.inr ⟨fun numeral n hnumeral => not_numeral_of_nil hnil hnumeral, h⟩
  · obtain ⟨longest, hlongest, hsplit, hmost⟩ := exists_longest hnil
    rw [convert, if_neg hnil, Prod.mk.injEq]
    constructor
    · rintro (⟨numeral, n, hnumeral, heq, rfl, hmost'⟩ | ⟨hnone, -⟩)
      · have hle := hmost numeral n hnumeral ⟨rest, heq⟩
        have hle' := hmost' longest _ hlongest ⟨_, hsplit⟩
        obtain ⟨rfl, rfl⟩ := List.append_inj (heq.trans hsplit.symm) (hle.antisymm hle')
        obtain ⟨magnitude, m, hmagnitude, hunsigned, rfl⟩ := numeral_iff.mp ⟨_, hnumeral, heq⟩
        have hreaches := hmagnitude.reaches (behind base (unsigned text))
        rw [hunsigned] at hreaches
        rw [hreaches.same rfl]
        exact ⟨rfl, rfl⟩
      · exact absurd ⟨_, hsplit⟩ (hnone longest _ hlongest)
    · rintro ⟨rfl, rfl⟩
      exact Or.inl ⟨longest, _, hlongest, hsplit, rfl, hmost⟩

end Reading

end ReduceOS.IntegerNumerals
