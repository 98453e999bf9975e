import ReduceOS.LineEditing
import ReduceOS.Tokenizer

/-!
How the shell takes a command line apart. Its array has room for as many tokens as the line has
characters, and the words with a `NULL` behind them fit into it, but for a line that is one
character and no space.
-/
namespace ReduceOS.ShellCommand

open Machine BoundedScan MaximalRuns Tokenizer LineEditing
open CString (Chars cstring)

section Source

def strlen (str : Chars) : Option ℕ := advance (· ≠ 0) str

/-- The loop of `shell_processCommand`, which puts a token into the array and asks for the next. -/
def processLoop : ℕ → Chars → List (Option ℕ) → CInt → Option ℕ → Option ℕ →
    Option (Chars × List (Option ℕ) × CInt)
  | 0, _, _, _, _, _ => none
  | _ + 1, command, tokens, i, none, _ => some (command, tokens, i)
  | fuel + 1, command, tokens, i, some pch, save => do
    let tokens ← storeAt tokens i (some pch)
    let (command, pch, save) ← strtokR command none [32] save
    processLoop fuel command tokens (i + 1) pch save

/-- `shell_processCommand`, with what `save` is before: the memory of the line, the array with the
places of the tokens in it, and `*argc`. -/
def shellProcessCommand (fuel : ℕ) (command : Chars) (save : Option ℕ) :
    Option (Chars × List (Option ℕ) × CInt) := do
  let length ← strlen command
  let size := BitVec.ofNat 64 length * 8
  let tokens := List.replicate (size.toNat / 8) none
  let (command, pch, save) ← strtokR command (some 0) [32] save
  let (command, tokens, i) ← processLoop fuel command tokens 0 pch save
  let tokens ← storeAt tokens i none
  some (command, tokens, i)

end Source

/-- The array begins with the words of the line, in order, and a `NULL`; their number is counted;
and no store is outside of it. -/
def Splits (line behind : Chars) (save : Option ℕ) : Prop :=
  ∃ fuel command tokens argc runs,
    shellProcessCommand fuel (line ++ 0 :: behind) save = some (command, tokens, argc) ∧
    Lists (· ∈ [(32 : BitVec 8)]) line runs ∧
    (runs.map fun run => some run.1) ++ [none] <+: tokens ∧ argc.toInt = runs.length ∧
    ∀ run ∈ runs, cstring (command.drop run.1) = run.2

/-- The line is not one character and no space, and an `int` can count its words; where the size of
the array does not fit in 64 bits, it still has room for them. -/
def Fits (line : Chars) : Prop :=
  (∀ c, line = [c] → c = 32) ∧ ∀ runs, Lists (· ∈ [(32 : BitVec 8)]) line runs →
    runs.length < 2 ^ 31 ∧ (2 ^ 61 ≤ line.length → runs.length < line.length % 2 ^ 61)

section Arrays

variable {stored free : List (Option ℕ)} {ps : List ℕ}

def storeAll (tokens : List (Option ℕ)) (i : CInt) : List ℕ → Option (List (Option ℕ) × CInt)
  | [] => some (tokens, i)
  | p :: ps => do
    let tokens ← storeAt tokens i (some p)
    storeAll tokens (i + 1) ps

/-- The loop stores what the calls of the tokenizer return, if there is enough fuel. -/
theorem processLoop_eq {command command' : Chars} {str save : Option ℕ}
    (tokens : List (Option ℕ)) (i : CInt) (fuel : ℕ)
        (hcalls : calls [32] (ps.length + 1) command str save =
      some (command', ps.map some ++ [none])) :
    ((strtokR command str [32] save).bind fun r =>
      processLoop fuel r.1 tokens i r.2.1 r.2.2) =
    if ps.length < fuel then (storeAll tokens i ps).map fun r => (command', r.1, r.2)
      else none := by
  induction ps generalizing command str save fuel tokens i with
  | nil =>
    obtain ⟨command₁, save₁, hcall, hend⟩ := calls_succ hcalls
    obtain ⟨rfl, -⟩ := Prod.mk.inj (Option.some.inj hend)
    rw [hcall, Option.bind_some]
    cases fuel with
    | zero => rfl
    | succ fuel => simp [processLoop, storeAll]
  | cons p ps ih =>
    obtain ⟨command₁, save₁, hcall, hrest⟩ := calls_succ hcalls
    rw [hcall, Option.bind_some]
    cases fuel with
    | zero => rfl
    | succ fuel =>
      have hlength : (p :: ps).length < fuel + 1 ↔ ps.length < fuel := by simp
      rw [processLoop, storeAll, if_congr hlength rfl rfl]
      cases storeAt tokens i (some p) with
      | none => simp
      | some tokens₁ => exact ih tokens₁ (i + 1) fuel hrest

theorem storeAt_end (hstored : stored.length ≤ 2 ^ 31)
    (hlength : (stored ++ free).length < 2 ^ 61) (a : Option ℕ) :
    storeAt (stored ++ free) (BitVec.ofNat 32 stored.length) a =
      if stored.length < 2 ^ 31 ∧ 0 < free.length then some (stored ++ a :: free.tail)
      else none := by
  by_cases hshort : stored.length < 2 ^ 31
  · rw [storeAt_ofNat hshort]
    cases free with
    | nil => simp [store]
    | cons b free =>
      rw [store_append, if_pos ⟨hshort, Nat.succ_pos _⟩]
      rfl
  · have hwrapped : stored.length = 2 ^ 31 := by omega
    rw [if_neg fun h => hshort h.1, hwrapped, storeAt_wrapped hlength]

/-- Tokens and a `NULL` behind them are stored exactly if the array has room and the index is no
greater than an `int` can be. -/
theorem storeAll_eq (ps : List ℕ) (hstored : stored.length ≤ 2 ^ 31)
    (hlength : (stored ++ free).length < 2 ^ 61) :
    ((storeAll (stored ++ free) (BitVec.ofNat 32 stored.length) ps).bind fun r =>
      (storeAt r.1 r.2 none).map fun tokens => (tokens, r.2)) =
    if stored.length + ps.length < 2 ^ 31 ∧ ps.length < free.length then
      some (stored ++ (ps.map some ++ none :: free.drop (ps.length + 1)),
        BitVec.ofNat 32 (stored.length + ps.length))
    else none := by
  induction ps generalizing stored free with
  | nil =>
    rw [storeAll, Option.bind_some, storeAt_end hstored hlength]
    split_ifs <;> simp_all
  | cons p ps ih =>
    rw [storeAll, storeAt_end hstored hlength]
    by_cases hroom : stored.length < 2 ^ 31 ∧ 0 < free.length
    · have hmove : stored ++ some p :: free.tail = stored ++ [some p] ++ free.tail := by simp
      have hindex : BitVec.ofNat 32 stored.length + 1 =
          BitVec.ofNat 32 (stored ++ [some p]).length := by
        rw [List.length_append, List.length_singleton, BitVec.ofNat_add]
        rfl
      have hcond : (stored ++ [some p]).length + ps.length < 2 ^ 31 ∧
          ps.length < free.tail.length ↔
          stored.length + (p :: ps).length < 2 ^ 31 ∧ (p :: ps).length < free.length := by
        simp only [List.length_append, List.length_cons, List.length_nil, List.length_tail]
        omega
      have hstored' : (stored ++ [some p]).length ≤ 2 ^ 31 := by
        simp only [List.length_append, List.length_cons, List.length_nil]
        omega
      have hlength' : (stored ++ [some p] ++ free.tail).length < 2 ^ 61 := by
        simp only [List.length_append, List.length_cons, List.length_nil,
          List.length_tail] at hlength ⊢
        omega
      rw [if_pos hroom, Option.bind_eq_bind, Option.bind_some, hmove, hindex,
        ih hstored' hlength', if_congr hcond rfl rfl]
      split_ifs
      · simp [Nat.add_assoc, Nat.add_comm 1]
      · rfl
    · rw [if_neg hroom, if_neg]
      · rfl
      · rw [List.length_cons]
        omega

end Arrays

section Lines

variable {line behind : Chars} {runs : List (ℕ × Chars)}

theorem results_eq (runs : List (ℕ × Chars)) :
    ((List.range (runs.length + 1)).map fun k => runs[k]?.map Prod.fst) =
      (runs.map Prod.fst).map some ++ [none] := by
  rw [List.range_succ, List.map_append]
  congr 1
  · refine List.ext_getElem (by simp) fun k hk hk' => ?_
    simp only [List.length_map, List.length_range] at hk
    simp [hk]
  · simp

/-- What `shell_processCommand` does with a line with these words. -/
theorem shellProcessCommand_eq (h0 : 0 ∉ line) (hruns : Lists (· ∈ [(32 : BitVec 8)]) line runs)
    (behind : Chars) (save : Option ℕ) : ∃ command,
    (∀ run ∈ runs, cstring (command.drop run.1) = run.2) ∧ ∀ fuel,
      shellProcessCommand fuel (line ++ 0 :: behind) save =
        if runs.length < fuel ∧ runs.length < 2 ^ 31 ∧ runs.length < line.length % 2 ^ 61 then
          some (command, (runs.map Prod.fst).map some ++ none ::
            List.replicate (line.length % 2 ^ 61 - (runs.length + 1)) none,
            BitVec.ofNat 32 runs.length)
        else none := by
  obtain ⟨command, results, hcalls, htokenized⟩ :=
    tokenized_calls h0 (by decide) (by decide) hruns behind save (runs.length + 1)
  have hwords : ∀ run ∈ runs, cstring (command.drop run.1) = run.2 := by
    intro run hrun
    obtain ⟨k, hk, rfl⟩ := List.mem_iff_getElem.mp hrun
    exact htokenized.tokens k (by omega) _ (by simp [hk])
  refine ⟨command, hwords, fun fuel => ?_⟩
  rw [htokenized.results, results_eq] at hcalls
  have hlength : (runs.map Prod.fst).length = runs.length := List.length_map _
  rw [← hlength] at hcalls
  have hstrlen : strlen (line ++ 0 :: behind) = some line.length := by
    refine advance_stops (fun c hc => decide_eq_true (ne_of_mem_of_not_mem hc h0)) ?_
    simp
  have hsize : (BitVec.ofNat 64 line.length * 8).toNat / 8 = line.length % 2 ^ 61 := by
    rw [BitVec.toNat_mul, BitVec.toNat_ofNat]
    change line.length % 2 ^ 64 * 8 % 2 ^ 64 / 8 = _
    omega
  have hlt : ([] ++ List.replicate (line.length % 2 ^ 61) (none : Option ℕ)).length < 2 ^ 61 := by
    rw [List.nil_append, List.length_replicate]
    exact Nat.mod_lt _ (by decide)
  have hloop := processLoop_eq (List.replicate (line.length % 2 ^ 61) none) 0 fuel hcalls
  have hstores := storeAll_eq (runs.map Prod.fst) (Nat.zero_le (2 ^ 31)) hlt
  rw [hlength] at hloop
  simp only [hlength, List.nil_append, List.length_nil, Nat.zero_add, List.length_replicate,
    List.drop_replicate] at hstores
  have hsteps : shellProcessCommand fuel (line ++ 0 :: behind) save =
      ((strtokR (line ++ 0 :: behind) (some 0) [32] save).bind fun r =>
        processLoop fuel r.1 (List.replicate (line.length % 2 ^ 61) none) 0 r.2.1 r.2.2).bind
        fun r => (storeAt r.2.1 r.2.2 none).bind fun tokens => some (r.1, tokens, r.2.2) := by
    simp only [shellProcessCommand, hstrlen, hsize, Option.bind_eq_bind, Option.bind_some,
      Option.bind_assoc]
  rw [hsteps, hloop]
  by_cases hfuel : runs.length < fuel
  · have hcond : runs.length < fuel ∧ runs.length < 2 ^ 31 ∧
        runs.length < line.length % 2 ^ 61 ↔
        runs.length < 2 ^ 31 ∧ runs.length < line.length % 2 ^ 61 := and_iff_right hfuel
    have houtcome := congrArg (Option.map fun q => (command, q.1, q.2)) hstores
    rw [if_pos hfuel, if_congr hcond rfl rfl, Option.bind_map]
    rw [Option.map_bind] at houtcome
    convert houtcome using 1
    · congr 1
      funext r
      simp only [Function.comp_apply]
      cases storeAt r.1 r.2 none <;> rfl
    · split_ifs <;> rfl
  · rw [if_neg hfuel, if_neg fun h => hfuel h.1]
    rfl

theorem runs_single {c : BitVec 8} (hruns : Lists (· ∈ [(32 : BitVec 8)]) [c] runs) :
    runs.length = if c = 32 then 0 else 1 := by
  split_ifs with hc
  · have hnone : Lists (· ∈ [(32 : BitVec 8)]) [c] [] :=
      (Runs.separator (by simpa using hc) .nil : Runs _ 0 [c] []).lists
    rw [hruns.unique hnone, List.length_nil]
  · have hone : Lists (· ∈ [(32 : BitVec 8)]) [c] [(0, [c])] :=
      (Runs.word (List.cons_ne_nil c []) (by simpa using hc) (by simp) .nil :
          Runs _ 0 ([c] ++ []) _).lists
    rw [hruns.unique hone, List.length_singleton]

theorem fits_iff (hne : line ≠ []) (hruns : Lists (· ∈ [(32 : BitVec 8)]) line runs) :
    Fits line ↔ runs.length < 2 ^ 31 ∧ runs.length < line.length % 2 ^ 61 := by
  have hpos := List.length_pos_iff.mpr hne
  constructor
  · rintro ⟨hsingle, hcount⟩
    obtain ⟨hint, hwide⟩ := hcount runs hruns
    refine ⟨hint, ?_⟩
    by_cases hlong : 2 ^ 61 ≤ line.length
    · exact hwide hlong
    · rw [Nat.mod_eq_of_lt (by omega)]
      have hle := hruns.toRuns.length_le
      by_cases hone : line.length = 1
      · obtain ⟨c, rfl⟩ := List.length_eq_one_iff.mp hone
        rw [runs_single hruns, if_pos (hsingle c rfl)]
        exact hpos
      · omega
  · rintro ⟨hint, hroom⟩
    refine ⟨?_, ?_⟩
    · rintro c rfl
      by_contra hc
      rw [runs_single hruns, if_neg hc, List.length_singleton] at hroom
      exact absurd hroom (by decide)
    · intro runs' hruns'
      rw [hruns'.unique hruns]
      exact ⟨hint, fun _ => hroom⟩

theorem splits_of_fits (h0 : 0 ∉ line) (hne : line ≠ []) (hfits : Fits line) (behind : Chars)
    (save : Option ℕ) : Splits line behind save := by
  obtain ⟨runs, hruns⟩ := exists_runs (· ∈ [(32 : BitVec 8)]) 0 line
  obtain ⟨hint, hroom⟩ := (fits_iff hne hruns.lists).mp hfits
  obtain ⟨command, hwords, hprocess⟩ := shellProcessCommand_eq h0 hruns.lists behind save
  refine ⟨runs.length + 1, command, _, _, runs, (hprocess _).trans (if_pos ⟨?_, hint, hroom⟩),
    hruns.lists, ?_, ?_, hwords⟩
  · refine ⟨List.replicate (line.length % 2 ^ 61 - (runs.length + 1)) none, ?_⟩
    rw [List.map_map, List.append_assoc]
    rfl
  · rw [BitVec.toInt_eq_toNat_cond, BitVec.toNat_ofNat]
    omega
  · exact Nat.lt_succ_self _

theorem fits_of_splits (h0 : 0 ∉ line) (hne : line ≠ []) {behind : Chars} {save : Option ℕ}
    (h : Splits line behind save) : Fits line := by
  obtain ⟨fuel, command, tokens, argc, runs, hprocess, hruns, -⟩ := h
  obtain ⟨command', -, heq⟩ := shellProcessCommand_eq h0 hruns behind save
  rw [heq] at hprocess
  by_cases hroom : runs.length < fuel ∧ runs.length < 2 ^ 31 ∧ runs.length < line.length % 2 ^ 61
  · exact (fits_iff hne hruns).mpr hroom.2
  · rw [if_neg hroom] at hprocess
    exact absurd hprocess (by simp)

/-- A command line is taken apart rightly exactly if its words and a `NULL` fit into the array. -/
theorem splits_iff (h0 : 0 ∉ line) (hne : line ≠ []) (behind : Chars) (save : Option ℕ) :
    Splits line behind save ↔ Fits line :=
  ⟨fits_of_splits h0 hne, fun h => splits_of_fits h0 hne h behind save⟩

/-- The array for a line of two characters has two entries. -/
theorem splits_two : Splits [108, 115] [] none := by
  refine (splits_iff (by decide) (by decide) [] none).mpr ⟨fun c h => absurd h (by simp), ?_⟩
  intro runs hruns
  have hle := hruns.toRuns.length_le
  simp only [List.length_cons, List.length_nil] at hle ⊢
  omega

/-- For a line of one character the `NULL` is stored behind the array. -/
theorem one_character_overflows : ¬ Splits [97] [] none := by
  intro h
  have hfits := fits_of_splits (by decide) (by decide) h
  exact absurd (hfits.1 97 rfl) (by decide)

end Lines

end ReduceOS.ShellCommand
