import Mathlib.Data.List.Basic

/-!
Loops over a buffer that must not leave it. A loop goes on from some place for as long as what it
reads meets a condition, and has no result if it comes to the end of the buffer first; a store has
none outside of it.
-/
namespace ReduceOS.BoundedScan

variable {α : Type} {p : α → Bool} {before buffer rest token : List α} {a b : α} {n : ℕ}

def advance (p : α → Bool) : List α → Option ℕ
  | [] => none
  | a :: rest => if p a then (advance p rest).map (· + 1) else some 0

def store (buffer : List α) (n : ℕ) (a : α) : Option (List α) :=
  if n < buffer.length then some (buffer.set n a) else none

theorem advance_of_neg (ha : p a = false) : advance p (a :: rest) = some 0 := by
  simp [advance, ha]

theorem advance_append (htoken : ∀ b ∈ token, p b = true) (rest : List α) :
    advance p (token ++ rest) = (advance p rest).map (· + token.length) := by
  induction token with
  | nil => simp
  | cons b token ih =>
    obtain ⟨hb, htoken⟩ := List.forall_mem_cons.mp htoken
    rw [List.cons_append, advance, if_pos hb, ih htoken, Option.map_map]
    refine congrArg (Option.map · (advance p rest)) (funext fun n => ?_)
    simp only [Function.comp_apply, List.length_cons]
    omega

/-- It stops at the first element that does not meet the condition. -/
theorem advance_stops (htoken : ∀ b ∈ token, p b = true) (ha : p a = false) :
    advance p (token ++ a :: rest) = some token.length := by
  rw [advance_append htoken, advance_of_neg ha]
  simp

/-- Where it stops, the buffer is what it went over and what it has not met yet. -/
theorem advance_eq_some_iff :
    advance p buffer = some n ↔ ∃ token a rest, buffer = token ++ a :: rest ∧
      token.length = n ∧ (∀ b ∈ token, p b = true) ∧ p a = false := by
  constructor
  · intro h
    induction buffer generalizing n with
    | nil => exact absurd h (by simp [advance])
    | cons a rest ih =>
      rw [advance] at h
      split_ifs at h with ha
      · obtain ⟨m, hm, rfl⟩ := Option.map_eq_some_iff.mp h
        obtain ⟨token, b, rest', rfl, hlength, htoken, hb⟩ := ih hm
        refine ⟨a :: token, b, rest', rfl, by rw [List.length_cons, hlength], ?_, hb⟩
        exact List.forall_mem_cons.mpr ⟨ha, htoken⟩
      · have hzero : 0 = n := Option.some.inj h
        exact ⟨[], a, rest, rfl, hzero, List.forall_mem_nil _, Bool.eq_false_iff.mpr ha⟩
  · rintro ⟨token, a, rest, rfl, rfl, htoken, ha⟩
    exact advance_stops htoken ha

/-- It stops in the buffer if something there does not meet the condition. -/
theorem exists_advance (hmem : b ∈ buffer) (hb : p b = false) :
    ∃ token a rest, buffer = token ++ a :: rest ∧ (∀ b ∈ token, p b = true) ∧ p a = false ∧
      advance p buffer = some token.length := by
  induction buffer with
  | nil => exact absurd hmem List.not_mem_nil
  | cons a rest ih =>
    by_cases ha : p a = true
    · have hne : b ≠ a := by
        rintro rfl
        exact absurd ha (by simp [hb])
      obtain ⟨token, c, rest', rfl, htoken, hc, -⟩ := ih (List.mem_of_ne_of_mem hne hmem)
      have hall : ∀ b ∈ a :: token, p b = true := List.forall_mem_cons.mpr ⟨ha, htoken⟩
      exact ⟨a :: token, c, rest', rfl, hall, hc, advance_stops hall hc⟩
    · have hfalse := Bool.eq_false_iff.mpr ha
      exact ⟨[], a, rest, rfl, List.forall_mem_nil _, hfalse, advance_of_neg hfalse⟩

theorem store_append (before : List α) (a b : α) (rest : List α) :
    store (before ++ a :: rest) before.length b = some (before ++ b :: rest) := by
  simp [store]

/-- A store behind a place leaves what comes after it there. -/
theorem store_behind (before : List α) (a : α) (rest : List α) (hn : n ≤ before.length) (b : α) :
    ∃ before', before'.length = before.length + 1 ∧
      store (before ++ a :: rest) n b = some (before' ++ rest) := by
  have hlt : n < (before ++ a :: rest).length := by
    rw [List.length_append, List.length_cons]
    omega
  refine ⟨(before ++ [a]).set n b, by simp, ?_⟩
  have hsplit : before ++ a :: rest = before ++ [a] ++ rest := by simp
  rw [store, if_pos hlt, hsplit, List.set_append_left _ _ (by simp; omega)]

/-- A store at the start of a gap moves the gap on by one. -/
theorem store_gap (before gap : List α) (a b : α) (rest : List α) :
    ∃ gap', gap'.length = gap.length ∧ store (before ++ gap ++ a :: rest) before.length b =
      some (before ++ b :: (gap' ++ rest)) := by
  cases gap with
  | nil => exact ⟨[], rfl, by rw [List.append_nil, store_append]; rfl⟩
  | cons c gap =>
    refine ⟨gap ++ [a], by simp, ?_⟩
    have hsplit : before ++ c :: gap ++ a :: rest = before ++ c :: (gap ++ [a] ++ rest) := by simp
    rw [hsplit, store_append]

end ReduceOS.BoundedScan
