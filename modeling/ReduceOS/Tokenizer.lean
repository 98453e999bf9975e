import ReduceOS.Bitmap
import ReduceOS.BoundedScan
import ReduceOS.CString
import ReduceOS.MaximalRuns

/-!
The tokenizer of the C library in the memory of its string, for separator sets of any size. A
pointer into the string is a place in the buffer, and a loop that does not stop in the buffer has
no result. A set of one character is compared with, one of more is made into a bit for each
character; the last token leaves `NULL` behind, since `strchr` does not find terminators.
-/
namespace ReduceOS.Tokenizer

open CString (Chars deref cstring)
open BoundedScan MaximalRuns

section Source

abbrev Byteset := Fin 4 → BitVec 64

def word (c : BitVec 8) : Fin 4 := ⟨c.toNat / 64, Nat.div_lt_of_lt_mul c.isLt⟩

def bitopOr (byteset : Byteset) (c : BitVec 8) : Byteset :=
  Bitmap.set byteset (word c) (c.toNat % 64)

def bitopAnd (byteset : Byteset) (c : BitVec 8) : BitVec 64 :=
  byteset (word c) &&& 1#64 <<< (c.toNat % 64)

def bytesetLoop : Chars → Byteset → Byteset
  | [], byteset => byteset
  | c :: seps, byteset =>
    let byteset := bitopOr byteset c
    if byteset (word c) ≠ 0 then bytesetLoop seps byteset else byteset

/-- `strspn`, of the memory that a string is at the beginning of. -/
def strspn (str : Chars) : Chars → Option ℕ
  | [] => some 0
  | [c] => advance (fun d => d ≠ 0 ∧ d = c) str
  | c :: d :: seps =>
    let byteset := bytesetLoop (c :: d :: seps) fun _ => 0
    advance (fun e => e ≠ 0 ∧ bitopAnd byteset e ≠ 0) str

def strchrnul (str : Chars) (character : BitVec 8) : Option ℕ :=
  advance (fun d => d ≠ 0 ∧ d ≠ character) str

def strcspn (str : Chars) : Chars → Option ℕ
  | c :: d :: seps =>
    let byteset := bytesetLoop (c :: d :: seps) fun _ => 0
    advance (fun e => e ≠ 0 ∧ bitopAnd byteset e = 0) str
  | seps => strchrnul str (deref seps)

def strchr : Chars → BitVec 8 → Option (Option ℕ)
  | [], _ => none
  | c :: str, character =>
    if c = 0 then some none
    else if c = character then some (some 0)
    else (strchr str character).map (·.map (· + 1))

def strpbrk (str1 str2 : Chars) : Option (Option ℕ) := do
  let n ← strcspn str1 str2
  if deref (str1.drop n) = 0 then some none else some (some n)

def strtokR (buffer : Chars) (str : Option ℕ) (seps : Chars) (lasts : Option ℕ) :
    Option (Chars × Option ℕ × Option ℕ) :=
  match str.or lasts with
  | none => some (buffer, none, lasts)
  | some str => do
    let n ← strspn (buffer.drop str) seps
    let token := str + n
    if deref (buffer.drop token) = 0 then some (buffer, none, some token)
    else
      match ← strpbrk (buffer.drop token) seps with
      | none => do
        let last ← strchr (buffer.drop token) 0
        some (buffer, some token, last.map (token + ·))
      | some m => do
        let buffer ← store buffer (token + m) 0
        some (buffer, some token, some (token + m + 1))

/-- A first call and more with `NULL`, `n` in all: the buffer after them and what they return. -/
def calls (seps : Chars) : ℕ → Chars → Option ℕ → Option ℕ → Option (Chars × List (Option ℕ))
  | 0, buffer, _, _ => some (buffer, [])
  | n + 1, buffer, str, lasts => do
    let (buffer, pch, lasts) ← strtokR buffer str seps lasts
    let (buffer, results) ← calls seps n buffer none lasts
    some (buffer, pch :: results)

end Source

section Sets

variable {seps l gap : Chars} {byteset : Byteset} {c d : BitVec 8} {rest : Chars}

theorem bitopAnd_ne_zero_iff : bitopAnd byteset d ≠ 0 ↔
    Bitmap.test byteset (word d) (d.toNat % 64) = true := by
  rw [bitopAnd, ne_eq, Bitmap.and_mask_eq_zero_iff (Nat.mod_lt _ (by decide)), Bitmap.test,
    Bool.not_eq_false]

theorem bitopAnd_bitopOr :
    bitopAnd (bitopOr byteset c) d ≠ 0 ↔ d = c ∨ bitopAnd byteset d ≠ 0 := by
  have hbit : (word d = word c ∧ d.toNat % 64 = c.toNat % 64) ↔ d = c := by
    rw [word, word, Fin.mk.injEq, ← BitVec.toNat_inj]
    omega
  rw [bitopAnd_ne_zero_iff, bitopAnd_ne_zero_iff, bitopOr,
    Bitmap.test_set byteset (Nat.mod_lt _ (by decide)), Bool.or_eq_true, decide_eq_true_iff, hbit,
    or_comm]

theorem bitopOr_ne_zero : bitopOr byteset c (word c) ≠ 0 := by
  intro hzero
  have hbit : bitopAnd (bitopOr byteset c) c ≠ 0 := bitopAnd_bitopOr.mpr (.inl rfl)
  refine hbit ?_
  rw [bitopAnd, hzero]
  exact BitVec.zero_and

theorem bitopAnd_bytesetLoop :
    bitopAnd (bytesetLoop seps byteset) d ≠ 0 ↔ d ∈ seps ∨ bitopAnd byteset d ≠ 0 := by
  induction seps generalizing byteset with
  | nil => simp [bytesetLoop]
  | cons c seps ih =>
    rw [bytesetLoop, if_pos bitopOr_ne_zero, ih, bitopAnd_bitopOr, List.mem_cons, or_assoc,
        or_left_comm]

theorem bitopAnd_seps : bitopAnd (bytesetLoop seps fun _ => 0) d ≠ 0 ↔ d ∈ seps := by
  rw [bitopAnd_bytesetLoop, or_iff_left]
  simp [bitopAnd]

/-- Both ways of looking a character up are the same. -/
theorem strspn_eq (hne : seps ≠ []) :
    strspn l seps = advance (fun d => d ≠ 0 ∧ d ∈ seps) l := by
  match seps with
  | [] => exact absurd rfl hne
  | [c] => simp [strspn]
  | c :: d :: seps => simp only [strspn, bitopAnd_seps]

theorem strcspn_eq (hne : seps ≠ []) :
    strcspn l seps = advance (fun d => d ≠ 0 ∧ d ∉ seps) l := by
  match seps with
  | [] => exact absurd rfl hne
  | [c] => simp [strcspn, strchrnul, deref]
  | c :: d :: seps =>
    have hbit : ∀ e, bitopAnd (bytesetLoop (c :: d :: seps) fun _ => 0) e = 0 ↔
        e ∉ c :: d :: seps := fun e => by rw [← bitopAnd_seps, not_not]
    simp only [strcspn, hbit]

/-- `strchr` does not find the terminator. -/
theorem strchr_zero (h0 : 0 ∉ l) : strchr (l ++ 0 :: rest) 0 = some none := by
  induction l with
  | nil => simp [strchr]
  | cons c l ih =>
    rw [List.mem_cons, not_or] at h0
    rw [List.cons_append, strchr, if_neg (Ne.symm h0.1), if_neg (Ne.symm h0.1), ih h0.2]
    rfl

end Sets

section Calls

variable {seps done l word behind buffer : Chars} {c : BitVec 8} {str lasts : Option ℕ}

theorem strtokR_separator (hne : seps ≠ []) (h0 : 0 ∉ seps) (hc : c ∈ seps)
    {str' lasts' : Option ℕ} (hstr : str.or lasts = some done.length)
    (hstr' : str'.or lasts' = some (done.length + 1)) :
    strtokR (done ++ c :: l) str seps lasts = strtokR (done ++ c :: l) str' seps lasts' := by
  have hzero : c ≠ 0 := ne_of_mem_of_not_mem hc h0
  have hdrop : (done ++ c :: l).drop done.length = c :: l := List.drop_left
  have hdrop' : (done ++ c :: l).drop (done.length + 1) = l := by
    rw [← List.drop_drop, hdrop, List.drop_one, List.tail_cons]
  have hspn : strspn (c :: l) seps = (strspn l seps).map (· + 1) := by
    rw [strspn_eq hne, strspn_eq hne, advance, if_pos (decide_eq_true ⟨hzero, hc⟩)]
  unfold strtokR
  simp only [hstr, hstr', hdrop, hdrop', hspn]
  cases strspn l seps with
  | none => rfl
  | some n =>
    have hplus : done.length + (n + 1) = done.length + 1 + n := by omega
    simp only [Option.map_some, Option.bind_eq_bind, Option.bind_some, hplus]

theorem strtokR_end (hne : seps ≠ []) (hstr : str.or lasts = some done.length) :
    strtokR (done ++ 0 :: behind) str seps lasts =
      some (done ++ 0 :: behind, none, some done.length) := by
  have hdrop : (done ++ 0 :: behind).drop done.length = 0 :: behind := List.drop_left
  have hspn : strspn (0 :: behind) seps = some 0 := by
    rw [strspn_eq hne]
    exact advance_of_neg (by simp)
  unfold strtokR
  simp only [hstr, hdrop, hspn, Option.bind_eq_bind, Option.bind_some, Nat.add_zero]
  exact if_pos rfl

section Token

variable (hne : seps ≠ []) (hword : word ≠ []) (hplain : ∀ d ∈ word, d ≠ 0 ∧ d ∉ seps)
  (hstr : str.or lasts = some done.length)

include hne hword hplain hstr

theorem strtokR_word (hc : c = 0 ∨ c ∈ seps) : strtokR (done ++ (word ++ c :: l)) str seps lasts =
    (if c = 0 then
      (strchr (word ++ c :: l) 0).map fun last =>
        (done ++ (word ++ c :: l), some done.length, last.map (done.length + ·))
    else some (done ++ (word ++ 0 :: l), some done.length,
      some (done.length + word.length + 1))) := by
  have hdrop : (done ++ (word ++ c :: l)).drop done.length = word ++ c :: l := List.drop_left
  have hspn : strspn (word ++ c :: l) seps = some 0 := by
    obtain ⟨d, word, rfl⟩ := List.exists_cons_of_ne_nil hword
    have hd := hplain d List.mem_cons_self
    rw [strspn_eq hne]
    exact advance_of_neg (by simp [hd.2])
  have hfirst : deref (word ++ c :: l) ≠ 0 := by
    obtain ⟨d, word, rfl⟩ := List.exists_cons_of_ne_nil hword
    exact (hplain d List.mem_cons_self).1
  have hcspn : strcspn (word ++ c :: l) seps = some word.length := by
    rw [strcspn_eq hne]
    refine advance_stops (fun d hd => decide_eq_true (hplain d hd)) ?_
    rcases hc with rfl | hmem
    · simp
    · simp [hmem]
  have hderef : deref ((word ++ c :: l).drop word.length) = c := by
    rw [List.drop_left]
    rfl
  unfold strtokR
  simp only [hstr, hdrop, hspn, Option.bind_eq_bind, Option.bind_some, Nat.add_zero, strpbrk,
    hcspn, hderef]
  rw [if_neg hfirst]
  split_ifs with hzero
  · cases strchr (word ++ c :: l) 0 <;> rfl
  · have hstore : store (done ++ (word ++ c :: l)) (done.length + word.length) 0 =
        some (done ++ (word ++ 0 :: l)) := by
      have happend := store_append (done ++ word) c 0 l
      rwa [List.append_assoc, List.append_assoc, List.length_append] at happend
    simp only [Option.bind_some, hstore]

/-- The token is the last one: nothing is written, and `*lasts` is `NULL`. -/
theorem strtokR_last : strtokR (done ++ (word ++ 0 :: behind)) str seps lasts =
    some (done ++ (word ++ 0 :: behind), some done.length, none) := by
  rw [strtokR_word hne hword hplain hstr (.inl rfl), if_pos rfl,
    strchr_zero fun h => (hplain 0 h).1 rfl]
  rfl

theorem strtokR_next (h0 : 0 ∉ seps) (hc : c ∈ seps) :
    strtokR (done ++ (word ++ c :: l)) str seps lasts =
      some (done ++ (word ++ 0 :: l), some done.length,
        some (done.length + word.length + 1)) := by
  rw [strtokR_word hne hword hplain hstr (.inr hc), if_neg (ne_of_mem_of_not_mem hc h0)]

end Token

theorem calls_succ {n : ℕ} {pch : Option ℕ} {results : List (Option ℕ)} {buffer' : Chars}
    (h : calls seps (n + 1) buffer str lasts = some (buffer', pch :: results)) :
    ∃ buffer₁ lasts₁, strtokR buffer str seps lasts = some (buffer₁, pch, lasts₁) ∧
      calls seps n buffer₁ none lasts₁ = some (buffer', results) := by
  obtain ⟨⟨buffer₁, pch₁, lasts₁⟩, hcall, hrest⟩ := Option.bind_eq_some_iff.mp h
  obtain ⟨⟨buffer₂, results₂⟩, hcalls, heq⟩ := Option.bind_eq_some_iff.mp hrest
  simp only [Option.some.injEq, Prod.mk.injEq, List.cons.injEq] at heq
  obtain ⟨rfl, rfl, rfl⟩ := heq
  exact ⟨buffer₁, lasts₁, hcall, hcalls⟩

theorem calls_null (seps buffer : Chars) (n : ℕ) :
    calls seps n buffer none none = some (buffer, List.replicate n none) := by
  induction n with
  | zero => rfl
  | succ n ih =>
    have hnull : strtokR buffer none seps none = some (buffer, none, none) := rfl
    simp only [calls, hnull, Option.bind_eq_bind, Option.bind_some, ih]
    rfl

theorem calls_end (hne : seps ≠ []) (n : ℕ) (hstr : str.or lasts = some done.length) :
    calls seps n (done ++ 0 :: behind) str lasts =
      some (done ++ 0 :: behind, List.replicate n none) := by
  induction n generalizing str lasts with
  | zero => rfl
  | succ n ih =>
    have hrest : calls seps n (done ++ 0 :: behind) none (some done.length) = _ := ih rfl
    simp only [calls, strtokR_end hne hstr, Option.bind_eq_bind, Option.bind_some, hrest]
    rfl

end Calls

section Tokens

variable {seps s done l behind : Chars} {c : BitVec 8} {runs : List (ℕ × Chars)} {n : ℕ}
  {str lasts : Option ℕ}

/-- What is left of a string at a place has been taken apart by `n` calls: they return the places
of the runs and then `NULL`, each run is a string there, and only separators are overwritten. -/
def Parsed (seps done l behind : Chars) (runs : List (ℕ × Chars)) (n : ℕ)
    (outcome : Option (Chars × List (Option ℕ))) : Prop :=
  ∃ l', outcome = some (done ++ (l' ++ 0 :: behind),
      (List.range n).map fun k => runs[k]?.map Prod.fst) ∧
    l'.length = l.length ∧ (∀ (i : ℕ) c, l[i]? = some c → c ∉ seps → l'[i]? = some c) ∧
    ∀ k < n, ∀ run ∈ runs[k]?, cstring ((done ++ (l' ++ 0 :: behind)).drop run.1) = run.2

theorem parsed_zero (str lasts : Option ℕ) :
    Parsed seps done l behind runs 0 (calls seps 0 (done ++ (l ++ 0 :: behind)) str lasts) :=
  ⟨l, rfl, rfl, fun _ _ hc _ => hc, fun _ hk => absurd hk (Nat.not_lt_zero _)⟩

/-- Passing over a character leaves the same to be done behind it. -/
theorem Parsed.separator {outcome : Option (Chars × List (Option ℕ))}
    (h : Parsed seps (done ++ [c]) l behind runs n outcome) :
    Parsed seps done (c :: l) behind runs n outcome := by
  obtain ⟨l', houtcome, hlength, hkept, htokens⟩ := h
  have hassoc : done ++ [c] ++ (l' ++ 0 :: behind) = done ++ (c :: l' ++ 0 :: behind) := by simp
  rw [hassoc] at houtcome htokens
  refine ⟨c :: l', houtcome, by simp [hlength], fun i => ?_, htokens⟩
  cases i with
  | zero => exact fun d hd _ => hd
  | succ i => simpa using hkept i

theorem results_cons (run : ℕ × Chars) (runs : List (ℕ × Chars)) (n : ℕ) :
    ((List.range (n + 1)).map fun k => (run :: runs)[k]?.map Prod.fst) =
      some run.1 :: (List.range n).map fun k => runs[k]?.map Prod.fst := by
  rw [List.range_succ_eq_map, List.map_cons, List.map_map]
  rfl

/-- A call has returned the token that the rest of the string begins with. -/
theorem Parsed.token {word : Chars} {outcome : Option (Chars × List (Option ℕ))} (hword : 0 ∉ word)
    (hc : c ∈ seps) (h : Parsed seps (done ++ (word ++ [0])) l behind runs n outcome) :
    Parsed seps done (word ++ c :: l) behind ((done.length, word) :: runs) (n + 1)
      (outcome.map fun r => (r.1, some done.length :: r.2)) := by
  obtain ⟨l', rfl, hlength, hkept, htokens⟩ := h
  have hassoc : done ++ (word ++ [0]) ++ (l' ++ 0 :: behind) =
      done ++ (word ++ 0 :: l' ++ 0 :: behind) := by simp
  rw [hassoc] at htokens ⊢
  refine ⟨word ++ 0 :: l', by rw [results_cons, Option.map_some], by simp [hlength], ?_, ?_⟩
  · intro i d hd hsep
    rw [List.getElem?_append] at hd ⊢
    split_ifs at hd ⊢ with hi
    · exact hd
    · cases hindex : i - word.length with
      | zero =>
        rw [hindex, List.getElem?_cons_zero, Option.some.injEq] at hd
        exact absurd (hd ▸ hc) hsep
      | succ j =>
        rw [hindex, List.getElem?_cons_succ] at hd
        rw [List.getElem?_cons_succ]
        exact hkept j d hd hsep
  · intro k hk run hrun
    cases k with
    | zero =>
      obtain rfl : (done.length, word) = run := by simpa using hrun
      rw [List.drop_left, List.append_assoc, List.cons_append]
      exact CString.cstring_append hword _
    | succ k =>
      exact htokens k (by omega) run (by simpa using hrun)

theorem parsed_last {word : Chars} (hword : 0 ∉ word) :
    Parsed seps done word behind [(done.length, word)] (n + 1)
      (some (done ++ (word ++ 0 :: behind), some done.length :: List.replicate n none)) := by
  refine ⟨word, ?_, rfl, fun _ _ hc _ => hc, ?_⟩
  · rw [results_cons]
    simp
  · intro k _ run hrun
    cases k with
    | zero =>
      obtain rfl : (done.length, word) = run := by simpa using hrun
      rw [List.drop_left]
      exact CString.cstring_append hword _
    | succ k => exact absurd hrun (by simp)

/-- What one call after another does with the rest of a string. -/
theorem parsed_calls (hne : seps ≠ []) (h0 : 0 ∉ seps) (hl : 0 ∉ l)
    (hruns : Runs (· ∈ seps) done.length l runs) (hstr : str.or lasts = some done.length) :
    Parsed seps done l behind runs n (calls seps n (done ++ (l ++ 0 :: behind)) str lasts) := by
  induction hlength : l.length using Nat.strongRecOn generalizing done l runs n str lasts with
  | _ length ih =>
    subst hlength
    cases n with
    | zero => exact parsed_zero str lasts
    | succ n =>
      cases hruns with
      | nil =>
        rw [List.nil_append, calls_end hne _ hstr]
        refine ⟨[], by simp, rfl, fun i c hc => absurd hc (by simp), fun k _ run hrun => ?_⟩
        exact absurd hrun (by simp)
      | @separator _ c l _ hc hruns =>
        rw [List.mem_cons, not_or] at hl
        have hdone : (done ++ [c]).length = done.length + 1 := by simp
        have hbehind := strtokR_separator (l := l ++ 0 :: behind) hne h0 hc hstr
          (Option.some_or : (some (done.length + 1)).or none = _)
        rw [List.cons_append, calls, hbehind, ← calls]
        refine Parsed.separator ?_
        have hparsed := ih l.length (by simp) hl.2 (hdone ▸ hruns) (n := n + 1)
          (by rw [hdone]; rfl : (some (done.length + 1)).or none = some (done ++ [c]).length) rfl
        rwa [List.append_assoc] at hparsed
      | @word _ word l runs hword hplain hhead hruns =>
        have hstart : ∀ d ∈ word, d ≠ 0 ∧ d ∉ seps := fun d hd =>
          ⟨fun hd0 => hl (List.mem_append_left _ (hd0 ▸ hd)), hplain d hd⟩
        have hword0 : 0 ∉ word := fun h => (hstart 0 h).1 rfl
        cases hruns with
        | nil =>
          rw [List.append_nil, calls, strtokR_last hne hword hstart hstr]
          simp only [Option.bind_eq_bind, Option.bind_some, calls_null]
          exact parsed_last hword0
        | @separator _ c l _ hc hruns =>
          have hdone : (done ++ (word ++ [0])).length = done.length + word.length + 1 := by
            simp [Nat.add_assoc]
          rw [List.mem_append, List.mem_cons, not_or, not_or] at hl
          have hlt : l.length < (word ++ c :: l).length := by simp; omega
          have hparsed := ih l.length hlt hl.2.2 (hdone ▸ hruns) (n := n)
            (by rw [hdone]; rfl : (none : Option ℕ).or (some (done.length + word.length + 1)) =
              some (done ++ (word ++ [0])).length) rfl
          have hbuffer : done ++ (word ++ [0]) ++ (l ++ 0 :: behind) =
              done ++ (word ++ 0 :: (l ++ 0 :: behind)) := by simp
          rw [hbuffer] at hparsed
          rw [List.append_assoc, List.cons_append, calls, strtokR_next hne hword hstart hstr h0 hc]
          have hresult := hparsed.token hword0 hc
          obtain ⟨l', hcalls, -⟩ := hparsed
          simp only [hcalls, Option.map_some] at hresult
          simpa only [Option.bind_eq_bind, Option.bind_some, hcalls] using hresult
        | @word _ word' l runs hword' hplain' hhead' hruns' =>
          obtain ⟨d, word', rfl⟩ := List.exists_cons_of_ne_nil hword'
          exact absurd (hhead d (by simp)) (hplain' d List.mem_cons_self)

/-- What `n` calls make of a string with the runs `runs`. -/
structure Tokenized (seps s behind : Chars) (runs : List (ℕ × Chars)) (n : ℕ) (buffer : Chars)
    (results : List (Option ℕ)) : Prop where
  /-- They return the places of the runs in order, and then `NULL`. -/
  results : results = (List.range n).map fun k => runs[k]?.map Prod.fst
  /-- Each run is a string at its place. -/
  tokens : ∀ k < n, ∀ run ∈ runs[k]?, cstring (buffer.drop run.1) = run.2
  length : buffer.length = (s ++ 0 :: behind).length
  /-- Only separators of the string are overwritten. -/
  kept : ∀ (i : ℕ) c, (s ++ 0 :: behind)[i]? = some c → ¬ (i < s.length ∧ c ∈ seps) →
    buffer[i]? = some c

theorem Parsed.tokenized {outcome : Option (Chars × List (Option ℕ))}
    (h : Parsed seps [] s behind runs n outcome) :
    ∃ buffer results, outcome = some (buffer, results) ∧
      Tokenized seps s behind runs n buffer results := by
  obtain ⟨s', rfl, hlength, hkept, htokens⟩ := h
  refine ⟨_, _, rfl, rfl, htokens, by simp [hlength], ?_⟩
  intro i c hc hout
  rw [List.nil_append]
  rw [List.getElem?_append] at hc ⊢
  rw [hlength]
  split_ifs at hc ⊢ with hi
  · exact hkept i c hc fun hsep => hout ⟨hi, hsep⟩
  · exact hc

theorem tokenized_calls (h0 : 0 ∉ s) (hseps : 0 ∉ seps) (hne : seps ≠ [])
    (hruns : Lists (· ∈ seps) s runs) (behind : Chars) (lasts : Option ℕ) (n : ℕ) :
    ∃ buffer results, calls seps n (s ++ 0 :: behind) (some 0) lasts = some (buffer, results) ∧
      Tokenized seps s behind runs n buffer results := by
  have hparsed : Parsed seps [] s behind runs n (calls seps n ([] ++ (s ++ 0 :: behind)) (some 0)
      lasts) := parsed_calls hne hseps h0 hruns.toRuns rfl
  exact hparsed.tokenized

/-- The tokens that `strtok_r` returns are the maximal runs of characters that are no separators,
and then there are no more, however often it is called. -/
theorem strtok_tokens (h0 : 0 ∉ s) (hseps : 0 ∉ seps) (hne : seps ≠ []) :
    ∃ runs, Lists (· ∈ seps) s runs ∧ ∀ behind lasts n, ∃ buffer results,
      calls seps n (s ++ 0 :: behind) (some 0) lasts = some (buffer, results) ∧
        Tokenized seps s behind runs n buffer results := by
  obtain ⟨runs, hruns⟩ := exists_runs (· ∈ seps) 0 s
  exact ⟨runs, hruns.lists, tokenized_calls h0 hseps hne hruns.lists⟩

/-- `,a;;b` with the separators `,;` -/
theorem strtok_tokens_two : ∃ runs, Lists (· ∈ [44, 59]) [44, 97, 59, 59, 98] runs ∧
    ∀ behind lasts n, ∃ buffer results,
      calls [44, 59] n ([44, 97, 59, 59, 98] ++ 0 :: behind) (some 0) lasts =
          some (buffer, results) ∧
        Tokenized [44, 59] [44, 97, 59, 59, 98] behind runs n buffer results :=
  strtok_tokens (by decide) (by decide) (by decide)

example : calls [44, 59] 4 [44, 97, 59, 59, 98, 0] (some 0) none =
    some ([44, 97, 0, 59, 98, 0], [some 1, some 4, none, none]) := by
  decide +kernel

end Tokens

end ReduceOS.Tokenizer
