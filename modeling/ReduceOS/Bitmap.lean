import Mathlib.Data.Nat.Notation
import Mathlib.Logic.Function.Basic
import Mathlib.Tactic.SplitIfs

/-!
Bitmaps in words of any width, at any kind of index: one bit is set or cleared through a
mask, and a free bit is found by going through the words and, in each that is not full,
through its bits.
-/
namespace ReduceOS.Bitmap

section Bits

variable {ι : Type} [DecidableEq ι] {w : ℕ}

def test (words : ι → BitVec w) (i : ι) (bit : ℕ) : Bool := (words i).getLsbD bit

def set (words : ι → BitVec w) (i : ι) (bit : ℕ) : ι → BitVec w :=
  Function.update words i (words i ||| 1#w <<< bit)

def clear (words : ι → BitVec w) (i : ι) (bit : ℕ) : ι → BitVec w :=
  Function.update words i (words i &&& ~~~(1#w <<< bit))

theorem getLsbD_mask {bit j : ℕ} (hj : j < w) : (1#w <<< bit).getLsbD j = decide (j = bit) := by
  rw [BitVec.getLsbD_shiftLeft]
  by_cases hlt : j < bit
  · have hne : j ≠ bit := by omega
    simp [hlt, hne]
  · by_cases heq : j = bit
    · subst heq
      have hw : 0 < w := by omega
      simp [hj, hw]
    · have hpos : j - bit ≠ 0 := by omega
      simp [hpos, heq]

theorem test_set (words : ι → BitVec w) {i j : ι} {b c : ℕ} (hc : c < w) :
    test (set words i b) j c = (test words j c || decide (j = i ∧ c = b)) := by
  unfold test set
  by_cases hij : j = i
  · subst hij
    simp only [Function.update_self, BitVec.getLsbD_or, getLsbD_mask hc, true_and]
  · simp [hij]

theorem test_clear (words : ι → BitVec w) {i j : ι} {b c : ℕ} (hc : c < w) :
    test (clear words i b) j c = (test words j c && !decide (j = i ∧ c = b)) := by
  unfold test clear
  by_cases hij : j = i
  · subst hij
    simp only [Function.update_self, BitVec.getLsbD_and, BitVec.getLsbD_not, hc, decide_true,
      getLsbD_mask hc, true_and, Bool.true_and]
  · simp [hij]

theorem and_mask_eq_zero_iff {x : BitVec w} {bit : ℕ} (hb : bit < w) :
    x &&& 1#w <<< bit = 0 ↔ x.getLsbD bit = false := by
  constructor
  · intro h
    have hbit := congrArg (fun v => BitVec.getLsbD v bit) h
    simpa [BitVec.getLsbD_and, getLsbD_mask hb] using hbit
  · intro h
    apply BitVec.eq_of_getLsbD_eq
    intro j hj
    rw [BitVec.getLsbD_and, getLsbD_mask hj]
    by_cases heq : j = bit
    · simp [heq, h]
    · simp [heq]

theorem clear_eq_self_iff (words : ι → BitVec w) (i : ι) (bit : ℕ) :
    clear words i bit = words ↔ words i &&& 1#w <<< bit = 0 := by
  unfold clear
  rw [Function.update_eq_self_iff]
  constructor
  · intro h
    rw [← h, BitVec.and_assoc, BitVec.and_comm (~~~_), BitVec.and_not_self]
    exact BitVec.and_zero
  · intro h
    generalize 1#w <<< bit = mask at h ⊢
    apply BitVec.eq_of_getLsbD_eq
    intro j hj
    have hbit : (words i &&& mask).getLsbD j = false := by
      rw [h]
      exact BitVec.getLsbD_zero
    rw [BitVec.getLsbD_and] at hbit
    rw [BitVec.getLsbD_and, BitVec.getLsbD_not, decide_eq_true hj, Bool.true_and]
    cases hword : (words i).getLsbD j
    · rfl
    · rw [hword, Bool.true_and] at hbit
      rw [hbit]
      rfl

theorem clear_and_eq_zero (words : ι → BitVec w) (i j : ι) (bit : ℕ) {m : BitVec w}
    (h : words j &&& m = 0) : clear words i bit j &&& m = 0 := by
  unfold clear
  by_cases hij : j = i
  · subst hij
    rw [Function.update_self, BitVec.and_assoc, BitVec.and_comm (~~~_), ← BitVec.and_assoc, h]
    exact BitVec.zero_and
  · rw [Function.update_of_ne hij, h]

theorem clear_and_mask (words : ι → BitVec w) (i : ι) (bit : ℕ) :
    clear words i bit i &&& 1#w <<< bit = 0 := by
  unfold clear
  rw [Function.update_self, BitVec.and_assoc, BitVec.and_comm (~~~_), BitVec.and_not_self]
  exact BitVec.and_zero

end Bits

section Scan

/-- Go through words of `w` bits, skipping the full ones, for the first bit that is accepted. -/
def scan (w words : ℕ) (full : ℕ → Bool) (accept : ℕ → ℕ → Bool) : Option (ℕ × ℕ) :=
  (List.range words).findSome? fun i =>
    if full i then none
    else (List.range w).findSome? fun bit => if accept i bit then some (i, bit) else none

theorem findSome?_range_eq_some {β : Type} {n : ℕ} {f : ℕ → Option β} {x : β}
    (h : (List.range n).findSome? f = some x) :
    ∃ i < n, f i = some x ∧ ∀ j < i, f j = none := by
  induction n with
  | zero => simp at h
  | succ n ih =>
    rw [List.range_succ, List.findSome?_append] at h
    cases hbefore : (List.range n).findSome? f with
    | some y =>
      rw [hbefore, Option.some_or] at h
      obtain ⟨i, hi, hfi⟩ := ih (hbefore.trans h)
      exact ⟨i, by omega, hfi⟩
    | none =>
      rw [hbefore, Option.none_or] at h
      rw [List.findSome?_eq_none_iff] at hbefore
      refine ⟨n, by omega, by simpa using h, fun j hj => hbefore j (List.mem_range.mpr hj)⟩

variable {w words : ℕ} {full : ℕ → Bool} {accept : ℕ → ℕ → Bool} {i bit : ℕ}

/-- What is found is accepted, and nothing before it is. -/
theorem scan_eq_some (h : scan w words full accept = some (i, bit)) :
    i < words ∧ bit < w ∧ accept i bit = true ∧ full i = false ∧
      ∀ j c, c < w → full j = false → j < i ∨ (j = i ∧ c < bit) → accept j c = false := by
  obtain ⟨k, hk, hfound, hbefore⟩ := findSome?_range_eq_some h
  split_ifs at hfound with hfull
  obtain ⟨c, hc, haccept, hbefore'⟩ := findSome?_range_eq_some hfound
  split_ifs at haccept with hbit
  obtain ⟨rfl, rfl⟩ := Prod.mk.inj (Option.some.inj haccept)
  refine ⟨hk, hc, hbit, by simpa using hfull, fun j c' hc' hj hlt => ?_⟩
  rcases hlt with hlt | ⟨rfl, hlt⟩
  · have hnone := hbefore j hlt
    rw [if_neg (by simp [hj]), List.findSome?_eq_none_iff] at hnone
    simpa using hnone c' (List.mem_range.mpr hc')
  · simpa using hbefore' c' hlt

theorem scan_eq_none (h : scan w words full accept = none) :
    ∀ j c, j < words → c < w → full j = false → accept j c = false := by
  intro j c hj hc hfull
  have hnone := List.findSome?_eq_none_iff.mp h j (List.mem_range.mpr hj)
  rw [if_neg (by simp [hfull]), List.findSome?_eq_none_iff] at hnone
  simpa using hnone c (List.mem_range.mpr hc)

end Scan

section Runs

/-- Count what is free among `checks` and answer as soon as `n` have been counted. -/
def countTo (free : ℕ → Bool) (n : ℕ) : List ℕ → ℕ → Bool
  | [], _ => false
  | check :: checks, freeBits =>
    let freeBits := if free check then freeBits + 1 else freeBits
    if freeBits = n then true else countTo free n checks freeBits

variable {free : ℕ → Bool} {n : ℕ}

theorem countTo_short {checks : List ℕ} {k : ℕ} (h : k + checks.length < n) :
    countTo free n checks k = false := by
  induction checks generalizing k with
  | nil => rfl
  | cons check checks ih =>
    rw [List.length_cons] at h
    unfold countTo
    cases free check
    · have hk : k ≠ n := by omega
      simp only [Bool.false_eq_true, if_false, hk]
      exact ih (by omega)
    · have hk : k + 1 ≠ n := by omega
      simp only [if_true, hk, if_false]
      exact ih (by omega)

/-- With as many checks as are wanted, all of them have to be free. -/
theorem countTo_eq_true_iff {checks : List ℕ} {k : ℕ} (hlen : k + checks.length = n)
    (hne : checks ≠ []) : countTo free n checks k = true ↔ ∀ c ∈ checks, free c = true := by
  induction checks generalizing k with
  | nil => exact absurd rfl hne
  | cons check checks ih =>
    rw [List.length_cons] at hlen
    unfold countTo
    cases hfree : free check
    · have hk : k ≠ n := by omega
      have hshort : countTo free n checks k = false := countTo_short (by omega)
      simp [hk, hshort, hfree]
    · simp only [if_true]
      cases checks with
      | nil =>
        have hk : k + 1 = n := by simpa using hlen
        simp [hk, hfree]
      | cons c checks =>
        have hk : k + 1 ≠ n := by
          rw [List.length_cons] at hlen
          omega
        rw [if_neg hk, ih (by omega) (List.cons_ne_nil c checks)]
        simp [hfree]

end Runs

end ReduceOS.Bitmap
