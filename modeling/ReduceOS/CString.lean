import ReduceOS.Machine
import Mathlib.Data.Int.Notation
import Mathlib.Data.List.TakeWhile
import Mathlib.Tactic.SplitIfs

/-! Strings of C, and the functions of the C library on them that the kernel uses. -/
namespace ReduceOS.CString

abbrev Chars := List (BitVec 8)

def deref (s : Chars) : BitVec 8 := s.headD 0

def difference (s1 s2 : Chars) : ℤ := (deref s1).toNat - (deref s2).toNat

def strncmpLoop : ℕ → Chars → Chars → ℤ
  | 0, s1, s2 => difference s1 s2
  | n + 1, s1, s2 =>
    if deref s1 = deref s2 then
      if n = 0 ∨ deref s1 = 0 then difference s1 s2 else strncmpLoop n s1.tail s2.tail
    else difference s1 s2

def strncmp (s1 s2 : Chars) (n : ℕ) : ℤ := if n = 0 then 0 else strncmpLoop n s1 s2

variable {s1 s2 : Chars}

theorem difference_eq_zero_iff : difference s1 s2 = 0 ↔ deref s1 = deref s2 := by
  unfold difference
  rw [← BitVec.toNat_inj]
  omega

theorem deref_eq_zero_iff (h : 0 ∉ s1) : deref s1 = 0 ↔ s1 = [] := by
  cases s1 with
  | nil => simp [deref]
  | cons c s1 =>
    have hne : c ≠ 0 := by
      rintro rfl
      exact h List.mem_cons_self
    simp only [deref, List.headD_cons, hne, List.cons_ne_nil]

theorem strncmpLoop_of_ne {n : ℕ} (h : deref s1 ≠ deref s2) : strncmpLoop (n + 1) s1 s2 ≠ 0 := by
  rw [strncmpLoop, if_neg h, ne_eq, difference_eq_zero_iff]
  exact h

theorem strncmpLoop_take_iff {n : ℕ} (h1 : 0 ∉ s1) (h2 : 0 ∉ s2) :
    strncmpLoop (n + 1) s1 s2 = 0 ↔ s1.take (n + 1) = s2.take (n + 1) := by
  induction s1 generalizing s2 n with
  | nil =>
    cases s2 with
    | nil => simp [strncmpLoop, deref, difference]
    | cons d s2 =>
      have hne : deref [] ≠ deref (d :: s2) := fun h =>
        absurd ((deref_eq_zero_iff h2).mp h.symm) (List.cons_ne_nil d s2)
      exact iff_of_false (strncmpLoop_of_ne hne) (by simp)
  | cons c s1 ih =>
    have hc : deref (c :: s1) ≠ 0 := mt (deref_eq_zero_iff h1).mp (List.cons_ne_nil c s1)
    cases s2 with
    | nil => exact iff_of_false (strncmpLoop_of_ne hc) (by simp)
    | cons d s2 =>
      by_cases hcd : c = d
      · subst hcd
        simp only [List.mem_cons, not_or] at h1 h2
        have hsame : deref (c :: s1) = deref (c :: s2) := rfl
        rw [strncmpLoop, if_pos hsame, List.take_succ_cons, List.take_succ_cons,
          List.cons_inj_right]
        cases n with
        | zero => simp [difference, hsame]
        | succ n =>
          rw [if_neg (fun h => h.elim (Nat.succ_ne_zero n) hc)]
          exact ih h1.2 h2.2
      · refine iff_of_false (strncmpLoop_of_ne hcd) ?_
        rw [List.take_succ_cons, List.take_succ_cons, List.cons.injEq]
        exact fun h => hcd h.1

/-- Two strings are the same to `strncmp` exactly when what it looks at is. -/
theorem strncmp_eq_zero_iff_take {n : ℕ} (h1 : 0 ∉ s1) (h2 : 0 ∉ s2) :
    strncmp s1 s2 n = 0 ↔ s1.take n = s2.take n := by
  unfold strncmp
  cases n with
  | zero => simp
  | succ n => rw [if_neg (Nat.succ_ne_zero n), strncmpLoop_take_iff h1 h2]

/-- A string begins with another one, of the length of the bound. -/
theorem strncmpLoop_prefix_iff {n : ℕ} (h2 : 0 ∉ s2) (hn : s2.length = n + 1) :
    strncmpLoop (n + 1) s1 s2 = 0 ↔ s2 <+: s1 := by
  induction n generalizing s1 s2 with
  | zero =>
    obtain ⟨c, rfl⟩ := List.length_eq_one_iff.mp hn
    have hc : ¬ 0#8 = c := fun heq => h2 (heq ▸ List.mem_cons_self)
    cases s1 with
    | nil => simp [strncmpLoop, deref, hc, difference_eq_zero_iff]
    | cons d s1 =>
      by_cases hcd : d = c
      · simp [strncmpLoop, deref, hcd, difference]
      · simp [strncmpLoop, deref, hcd, difference_eq_zero_iff, Ne.symm hcd]
  | succ n ih =>
    cases s2 with
    | nil => simp at hn
    | cons c s2 =>
      have hc : ¬ 0#8 = c := fun heq => h2 (heq ▸ List.mem_cons_self)
      have htail : 0 ∉ s2 := fun h => h2 (List.mem_cons_of_mem _ h)
      rw [List.length_cons, Nat.add_right_cancel_iff] at hn
      cases s1 with
      | nil => simp [strncmpLoop, deref, hc, difference_eq_zero_iff]
      | cons d s1 =>
        by_cases hcd : d = c
        · subst hcd
          have hgo : ¬ (n + 1 = 0 ∨ deref (d :: s1) = 0) := by
            simpa [deref] using Ne.symm hc
          have hsame : deref (d :: s1) = deref (d :: s2) := rfl
          rw [strncmpLoop, if_pos hsame, if_neg hgo, List.prefix_cons_inj]
          exact ih htail hn
        · simp [strncmpLoop, deref, hcd, difference_eq_zero_iff, Ne.symm hcd]

section Search

def strchr : Chars → BitVec 8 → Option Chars
  | [], _ => none
  | c :: str, character => if c = character then some (c :: str) else strchr str character

def strchrnul : Chars → BitVec 8 → Chars
  | [], _ => []
  | c :: str, character => if c = character then c :: str else strchrnul str character

def strspn : Chars → BitVec 8 → ℕ
  | [], _ => 0
  | c :: str, sep => if c = sep then strspn str sep + 1 else 0

def strcspn (str : Chars) (sep : BitVec 8) : ℕ := str.length - (strchrnul str sep).length

def strpbrk (str1 : Chars) (sep : BitVec 8) : Option Chars :=
  let ptr := str1.drop (strcspn str1 sep)
  if deref ptr = 0 then none else some ptr

/-- `strtok_r`, which returns the token and the new `*lasts`; the latter is `NULL` after the last
token, as `strchr` does not find the terminator. -/
def strtokR (str : Option Chars) (sep : BitVec 8) (lasts : Option Chars) :
    Option Chars × Option Chars :=
  match str.or lasts with
  | none => (none, lasts)
  | some str =>
    let token := str.drop (strspn str sep)
    if deref token = 0 then (none, some token)
    else
      match strpbrk token sep with
      | none => (some token, strchr token 0)
      | some str => (some (token.take (token.length - str.length)), some str.tail)

/-- The tokens that `strtok_r` returns, one call after another, in at most `n` calls. -/
def tokens (sep : BitVec 8) : ℕ → Option Chars → Option Chars → List Chars
  | 0, _, _ => []
  | n + 1, str, lasts =>
    match strtokR str sep lasts with
    | (none, _) => []
    | (some pch, lasts) => pch :: tokens sep n none lasts

/-- The separators that these calls overwrite with terminators, each as the string from there on. -/
def overwritten (sep : BitVec 8) : ℕ → Option Chars → Option Chars → List Chars
  | 0, _, _ => []
  | n + 1, str, lasts =>
    match strtokR str sep lasts with
    | (some _, some rest) => (sep :: rest) :: overwritten sep n none (some rest)
    | _ => []

/-- The parts of a string between separators, without the empty ones. -/
def components (sep : BitVec 8) (str : Chars) : List Chars := (str.splitOn sep).filter (· ≠ [])

def strcmp : Chars → Chars → ℤ
  | c :: str1, d :: str2 =>
    if c ≠ 0 ∧ d ≠ 0 ∧ c = d then strcmp str1 str2 else difference (c :: str1) (d :: str2)
  | str1, str2 => difference str1 str2

def cstring (memory : Chars) : Chars := memory.takeWhile (· ≠ 0)

def strrchr : Chars → BitVec 8 → Option Chars
  | [], _ => none
  | c :: str, character =>
    (strrchr str character).or (if c = character then some (c :: str) else none)

/-- `strstr`, as it is documented: where a string has another in it first. -/
def strstr : Chars → Chars → Option Chars
  | [], needle => if needle = [] then some [] else none
  | c :: haystack, needle =>
    if needle <+: c :: haystack then some (c :: haystack) else strstr haystack needle

def strncat (dest src : Chars) (n : ℕ) : Chars := dest ++ src.take n

def snprintf (n : ℕ) (str1 str2 : Chars) : Chars := (str1 ++ str2).take (n - 1)

end Search

section Tokens

variable {token str : Chars} {sep : BitVec 8}

/-- A string ends at its terminator, whatever stands behind it. -/
theorem cstring_append (h0 : 0 ∉ str) (rest : Chars) : cstring (str ++ 0 :: rest) = str := by
  have hall : ∀ c ∈ str, decide (c ≠ 0) = true := fun c hc =>
    decide_eq_true (ne_of_mem_of_not_mem hc h0)
  rw [cstring, List.takeWhile_append_of_pos hall, List.takeWhile_cons_of_neg (by decide),
    List.append_nil]

theorem zero_notMem_cstring (memory : Chars) : 0 ∉ cstring memory := by
  intro h
  have hne := List.mem_takeWhile_imp h
  exact absurd hne (by decide)

theorem strcmp_eq_zero_iff (h1 : 0 ∉ s1) (h2 : 0 ∉ s2) : strcmp s1 s2 = 0 ↔ s1 = s2 := by
  induction s1 generalizing s2 with
  | nil =>
    rw [strcmp, difference_eq_zero_iff, eq_comm, @eq_comm _ []]
    · exact deref_eq_zero_iff h2
    · simp
  | cons c s1 ih =>
    cases s2 with
    | nil =>
      rw [strcmp, difference_eq_zero_iff]
      · exact deref_eq_zero_iff h1
      · simp
    | cons d s2 =>
      simp only [List.mem_cons, not_or] at h1 h2
      rw [strcmp]
      by_cases hcd : c = d
      · rw [if_pos ⟨Ne.symm h1.1, Ne.symm h2.1, hcd⟩, ih h1.2 h2.2, hcd]
        simp
      · rw [if_neg (fun h => hcd h.2.2), difference_eq_zero_iff]
        simp [deref, hcd]

theorem strchr_eq_none {c : BitVec 8} (h : c ∉ str) : strchr str c = none := by
  induction str with
  | nil => rfl
  | cons d str ih =>
    simp only [List.mem_cons, not_or] at h
    rw [strchr, if_neg (Ne.symm h.1), ih h.2]

theorem strchr_eq_none_iff {c : BitVec 8} : strchr str c = none ↔ c ∉ str := by
  refine ⟨fun h => ?_, strchr_eq_none⟩
  induction str with
  | nil => simp
  | cons d str ih =>
    rw [strchr] at h
    split_ifs at h with hd
    simp [ih h, Ne.symm hd]

theorem strchr_append {c : BitVec 8} {before : Chars} (h : c ∉ before) (after : Chars) :
    strchr (before ++ c :: after) c = some (c :: after) := by
  induction before with
  | nil => simp [strchr]
  | cons d before ih =>
    simp only [List.mem_cons, not_or] at h
    rw [List.cons_append, strchr, if_neg (Ne.symm h.1), ih h.2]

theorem strrchr_eq_none_iff {c : BitVec 8} : strrchr str c = none ↔ c ∉ str := by
  induction str with
  | nil => simp [strrchr]
  | cons d str ih =>
    rw [strrchr, Option.or_eq_none_iff, ih, List.mem_cons, not_or, and_comm]
    simp [eq_comm]

theorem strrchr_append {c : BitVec 8} (before : Chars) {after : Chars} (h : c ∉ after) :
    strrchr (before ++ c :: after) c = some (c :: after) := by
  induction before with
  | nil => simp [strrchr, strrchr_eq_none_iff.mpr h]
  | cons d before ih => rw [List.cons_append, strrchr, ih, Option.some_or]

theorem exists_last {c : BitVec 8} (h : c ∈ str) :
    ∃ before after, str = before ++ c :: after ∧ c ∉ after := by
  obtain ⟨after, before, heq, hafter⟩ := List.eq_append_cons_of_mem (List.mem_reverse.mpr h)
  refine ⟨before.reverse, after.reverse, ?_, by simpa using hafter⟩
  simpa using congrArg List.reverse heq

theorem length_strstr_le {needle found : Chars} (h : strstr str needle = some found) :
    found.length ≤ str.length := by
  induction str with
  | nil =>
    rw [strstr] at h
    split_ifs at h
    exact Option.some.inj h ▸ Nat.le_refl _
  | cons c str ih =>
    rw [strstr] at h
    split_ifs at h
    · exact Option.some.inj h ▸ Nat.le_refl _
    · exact Nat.le_succ_of_le (ih h)

/-- A string is found at the beginning of another if and only if this begins with it. -/
theorem strstr_eq_self_iff {needle : Chars} : strstr str needle = some str ↔ needle <+: str := by
  cases str with
  | nil => simp [strstr]
  | cons c str =>
    rw [strstr]
    split_ifs with hbegins
    · simp [hbegins]
    · refine iff_of_false (fun h => ?_) hbegins
      have hle := length_strstr_le h
      rw [List.length_cons] at hle
      omega

theorem strchrnul_append (h : sep ∉ token) : strchrnul (token ++ sep :: str) sep = sep :: str := by
  induction token with
  | nil => simp [strchrnul]
  | cons d token ih =>
    simp only [List.mem_cons, not_or] at h
    rw [List.cons_append, strchrnul, if_neg (Ne.symm h.1), ih h.2]

theorem strchrnul_eq_nil (h : sep ∉ token) : strchrnul token sep = [] := by
  induction token with
  | nil => rfl
  | cons d token ih =>
    simp only [List.mem_cons, not_or] at h
    rw [strchrnul, if_neg (Ne.symm h.1), ih h.2]

theorem strspn_eq_zero (hne : token ≠ []) (h : sep ∉ token) (str : Chars) :
    strspn (token ++ str) sep = 0 := by
  cases token with
  | nil => exact absurd rfl hne
  | cons c token =>
    simp only [List.mem_cons, not_or] at h
    rw [List.cons_append, strspn, if_neg (Ne.symm h.1)]

theorem deref_append_ne_zero (hne : token ≠ []) (h : 0 ∉ token) (str : Chars) :
    deref (token ++ str) ≠ 0 := by
  cases token with
  | nil => exact absurd rfl hne
  | cons c token =>
    simp only [List.mem_cons, not_or] at h
    exact Ne.symm h.1

theorem strtokR_append (hsep : sep ≠ 0) (hne : token ≠ []) (h0 : 0 ∉ token) (h : sep ∉ token)
    {first lasts : Option Chars} (hstr : first.or lasts = some (token ++ sep :: str)) :
    strtokR first sep lasts = (some token, some str) := by
  have hcspn : (token ++ sep :: str).drop (strcspn (token ++ sep :: str) sep) = sep :: str := by
    rw [strcspn, strchrnul_append h]
    simp
  have hpbrk : strpbrk (token ++ sep :: str) sep = some (sep :: str) := by
    rw [strpbrk, hcspn]
    exact if_neg hsep
  unfold strtokR
  simp only [hstr, strspn_eq_zero hne h, List.drop_zero,
    if_neg (deref_append_ne_zero hne h0 (sep :: str)), hpbrk]
  simp

theorem strtokR_last (hne : token ≠ []) (h0 : 0 ∉ token) (h : sep ∉ token)
    {first lasts : Option Chars} (hstr : first.or lasts = some token) :
    strtokR first sep lasts = (some token, none) := by
  have hspn : strspn token sep = 0 := by simpa using strspn_eq_zero hne h []
  have hderef : deref token ≠ 0 := by simpa using deref_append_ne_zero hne h0 []
  have hpbrk : strpbrk token sep = none := by
    rw [strpbrk, strcspn, strchrnul_eq_nil h]
    simp [deref]
  unfold strtokR
  simp only [hstr, hspn, List.drop_zero, if_neg hderef, hpbrk, strchr_eq_none h0]

/-- Separators in front of a token make no difference. -/
theorem strtokR_cons (str : Chars) (first lasts first' lasts' : Option Chars)
    (hstr : first.or lasts = some (sep :: str)) (hstr' : first'.or lasts' = some str) :
    strtokR first sep lasts = strtokR first' sep lasts' := by
  unfold strtokR
  simp only [hstr, hstr', strspn, if_pos, List.drop_succ_cons]

def join (sep : BitVec 8) (parts : List Chars) : Chars := parts.flatMap fun part => sep :: part

@[simp] theorem join_nil (sep : BitVec 8) : join sep [] = [] := rfl

@[simp] theorem join_cons (sep : BitVec 8) (part : Chars) (parts : List Chars) :
    join sep (part :: parts) = sep :: (part ++ join sep parts) := rfl

theorem tokens_none (sep : BitVec 8) (n : ℕ) : tokens sep n none none = [] := by
  cases n <;> rfl

@[simp] theorem components_nil (sep : BitVec 8) : components sep [] = [] := rfl

theorem components_append_sep (sep : BitVec 8) (before after : Chars) :
    components sep (before ++ sep :: after) = components sep before ++ components sep after := by
  simp [components, List.splitOn_append_cons_self]

@[simp] theorem components_sep (sep : BitVec 8) (str : Chars) :
    components sep (sep :: str) = components sep str := components_append_sep sep [] str

theorem components_single (hne : token ≠ []) (h : sep ∉ token) :
    components sep token = [token] := by
  simp [components, List.splitOn_eq_singleton h, hne]

/-- A string is empty, or begins with a separator, or with a component. -/
theorem leading_cases (sep : BitVec 8) (str : Chars) :
    str = [] ∨ (∃ rest, str = sep :: rest) ∨ (str ≠ [] ∧ sep ∉ str) ∨
      ∃ token rest, token ≠ [] ∧ sep ∉ token ∧ str = token ++ sep :: rest := by
  induction str with
  | nil => exact .inl rfl
  | cons c str ih =>
    by_cases hc : c = sep
    · exact .inr (.inl ⟨str, by rw [hc]⟩)
    · right
      right
      rcases ih with rfl | ⟨rest, rfl⟩ | ⟨-, hmem⟩ | ⟨token, rest, -, hmem, rfl⟩
      · exact .inl (by simp [Ne.symm hc])
      · exact .inr ⟨[c], rest, by simp, by simp [Ne.symm hc], rfl⟩
      · exact .inl (by simp [Ne.symm hc, hmem])
      · exact .inr ⟨c :: token, rest, by simp, by simp [Ne.symm hc, hmem], rfl⟩

theorem components_induction {P : Chars → Prop} (sep : BitVec 8) (nil : P [])
    (separator : ∀ rest, P rest → P (sep :: rest))
    (single : ∀ token, token ≠ [] → sep ∉ token → P token)
    (append : ∀ token rest, token ≠ [] → sep ∉ token → P rest → P (token ++ sep :: rest))
    (str : Chars) : P str := by
  induction hlength : str.length using Nat.strongRecOn generalizing str with
  | _ length ih =>
    subst hlength
    rcases leading_cases sep str with rfl | ⟨rest, rfl⟩ | ⟨hne, hmem⟩ |
      ⟨token, rest, hne, hmem, rfl⟩
    · exact nil
    · exact separator rest (ih rest.length (by simp) rest rfl)
    · exact single str hne hmem
    · refine append token rest hne hmem (ih rest.length ?_ rest rfl)
      simp only [List.length_append, List.length_cons]
      omega

theorem tokens_congr (n : ℕ) {first lasts first' lasts' : Option Chars}
    (h : strtokR first sep lasts = strtokR first' sep lasts') :
    tokens sep n first lasts = tokens sep n first' lasts' := by
  cases n with
  | zero => rfl
  | succ n => rw [tokens, tokens, h]

/-- The tokens of a string are its components, if there are enough calls. -/
theorem tokens_eq (hsep : sep ≠ 0) (str : Chars) (h0 : 0 ∉ str) {n : ℕ}
    (hn : (components sep str).length < n) {first lasts : Option Chars}
    (hstr : first.or lasts = some str) : tokens sep n first lasts = components sep str := by
  induction str using components_induction sep generalizing n first lasts with
  | nil =>
    obtain ⟨n, rfl⟩ := Nat.exists_eq_add_one_of_ne_zero (by omega : n ≠ 0)
    simp [tokens, strtokR, hstr, deref]
  | separator rest ih =>
    rw [List.mem_cons, not_or] at h0
    rw [components_sep] at hn
    rw [components_sep, tokens_congr n (strtokR_cons rest first lasts (some rest) none hstr rfl)]
    exact ih h0.2 hn rfl
  | single token hne hmem =>
    obtain ⟨n, rfl⟩ := Nat.exists_eq_add_one_of_ne_zero (by omega : n ≠ 0)
    rw [tokens, strtokR_last hne h0 hmem hstr, components_single hne hmem]
    simp [tokens_none]
  | append token rest hne hmem ih =>
    obtain ⟨n, rfl⟩ := Nat.exists_eq_add_one_of_ne_zero (by omega : n ≠ 0)
    simp only [List.mem_append, List.mem_cons, not_or] at h0
    rw [components_append_sep, components_single hne hmem] at hn ⊢
    simp only [List.length_append, List.length_singleton] at hn
    rw [tokens, strtokR_append hsep hne h0.1 hmem hstr]
    dsimp only
    rw [ih h0.2.2 (by omega) rfl]
    rfl

theorem length_components_le (sep : BitVec 8) (str : Chars) :
    (components sep str).length ≤ str.length := by
  induction str using components_induction sep with
  | nil => simp
  | separator rest ih =>
    rw [components_sep, List.length_cons]
    omega
  | single token hne hmem =>
    have hpos := List.length_pos_iff.mpr hne
    rw [components_single hne hmem, List.length_singleton]
    omega
  | append token rest hne hmem ih =>
    rw [components_append_sep, components_single hne hmem]
    simp only [List.length_append, List.length_cons, List.length_nil]
    omega

/-- Components are not empty, and made of the other characters of the string. -/
theorem mem_components {part : Chars} (h : part ∈ components sep str) :
    part ≠ [] ∧ sep ∉ part ∧ ∀ c ∈ part, c ∈ str := by
  induction str using components_induction sep with
  | nil => simp at h
  | separator rest ih =>
    rw [components_sep] at h
    obtain ⟨hne, hsep, hmem⟩ := ih h
    exact ⟨hne, hsep, fun c hc => List.mem_cons_of_mem _ (hmem c hc)⟩
  | single token hne hmem =>
    rw [components_single hne hmem, List.mem_singleton] at h
    subst h
    exact ⟨hne, hmem, fun c hc => hc⟩
  | append token rest hne hmem ih =>
    rw [components_append_sep, components_single hne hmem, List.mem_append,
      List.mem_singleton] at h
    rcases h with rfl | hrest
    · exact ⟨hne, hmem, fun c hc => List.mem_append_left _ hc⟩
    · obtain ⟨hne, hsep, hmem⟩ := ih hrest
      exact ⟨hne, hsep, fun c hc => List.mem_append_right _ (List.mem_cons_of_mem _ (hmem c hc))⟩

theorem components_join {parts : List Chars} (hparts : ∀ part ∈ parts, part ≠ [] ∧ sep ∉ part) :
    components sep (join sep parts) = parts := by
  induction parts with
  | nil => rfl
  | cons part parts ih =>
    obtain ⟨hne, hmem⟩ := hparts part List.mem_cons_self
    have hrest := ih fun q hq => hparts q (List.mem_cons_of_mem _ hq)
    rw [join_cons, components_sep]
    cases parts with
    | nil => simp [components_single hne hmem]
    | cons q parts =>
      rw [join_cons, components_sep] at hrest
      rw [join_cons, components_append_sep, components_single hne hmem, hrest]
      rfl

/-- The parts of a path are its tokens, if there are enough calls. -/
theorem tokens_join (hsep : sep ≠ 0) {parts : List Chars}
    (hparts : ∀ part ∈ parts, part ≠ [] ∧ 0 ∉ part ∧ sep ∉ part) {n : ℕ} (hn : parts.length < n)
    {first lasts : Option Chars} (hstr : first.or lasts = some (join sep parts)) :
    tokens sep n first lasts = parts := by
  have hcomponents : components sep (join sep parts) = parts :=
    components_join fun part hpart => ⟨(hparts part hpart).1, (hparts part hpart).2.2⟩
  have h0 : 0 ∉ join sep parts := by
    simp only [join, List.mem_flatMap, List.mem_cons, not_exists, not_and, not_or]
    exact fun part hpart => ⟨Ne.symm hsep, (hparts part hpart).2.1⟩
  rw [tokens_eq hsep _ h0 (by rwa [hcomponents]) hstr, hcomponents]

theorem strchrnul_suffix (str : Chars) (sep : BitVec 8) : strchrnul str sep <:+ str ∧
    (strchrnul str sep = [] ∨ ∃ rest, strchrnul str sep = sep :: rest) := by
  induction str with
  | nil => simp [strchrnul]
  | cons c str ih =>
    by_cases hc : c = sep
    · rw [strchrnul, if_pos hc]
      exact ⟨List.suffix_rfl, .inr ⟨str, by rw [hc]⟩⟩
    · rw [strchrnul, if_neg hc]
      exact ⟨ih.1.trans (List.suffix_cons c str), ih.2⟩

theorem strpbrk_eq_some {rest : Chars} (h : strpbrk str sep = some rest) :
    rest <:+ str ∧ ∃ after, rest = sep :: after := by
  obtain ⟨⟨before, hbefore⟩, hhead⟩ := strchrnul_suffix str sep
  have hdrop : str.drop (strcspn str sep) = strchrnul str sep := by
    have hlength := congrArg List.length hbefore
    rw [List.length_append] at hlength
    have hcspn : strcspn str sep = before.length := by
      unfold strcspn
      omega
    have hleft : (before ++ strchrnul str sep).drop before.length = strchrnul str sep :=
      List.drop_left
    rwa [hbefore, ← hcspn] at hleft
  simp only [strpbrk, hdrop] at h
  split_ifs at h with hderef
  obtain rfl := Option.some.inj h
  refine ⟨⟨before, hbefore⟩, hhead.resolve_left ?_⟩
  intro hnil
  simp [hnil, deref] at hderef

/-- The separators that are overwritten stand in the string. -/
theorem overwritten_suffix (h0 : 0 ∉ str) {n : ℕ} {first lasts : Option Chars}
    (hstr : first.or lasts = some str) :
    ∀ part ∈ overwritten sep n first lasts, part ≠ [] ∧ part <:+ str := by
  induction n generalizing str first lasts with
  | zero => simp [overwritten]
  | succ n ih =>
    have hdrop := List.drop_suffix (strspn str sep) str
    cases hpbrk : strpbrk (str.drop (strspn str sep)) sep with
    | none =>
      have hlast : strchr (str.drop (strspn str sep)) 0 = none :=
        strchr_eq_none fun h => h0 (hdrop.subset h)
      unfold overwritten strtokR
      simp only [hstr, hpbrk, hlast]
      split_ifs <;> simp
    | some found =>
      obtain ⟨hsuffix, after, rfl⟩ := strpbrk_eq_some hpbrk
      have hafter : after <:+ str :=
        (List.suffix_cons sep after).trans (hsuffix.trans hdrop)
      unfold overwritten strtokR
      simp only [hstr, hpbrk, List.tail_cons]
      split_ifs
      · simp
      · intro part hpart
        rcases List.mem_cons.mp hpart with rfl | hrest
        · exact ⟨by simp, hsuffix.trans hdrop⟩
        · obtain ⟨hne, hpart⟩ := ih (fun h => h0 (hafter.subset h)) rfl part hrest
          exact ⟨hne, hpart.trans hafter⟩

end Tokens

end ReduceOS.CString
