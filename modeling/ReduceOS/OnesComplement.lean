import Mathlib.Data.Nat.ModEq
import Mathlib.Algebra.BigOperators.Group.List.Basic
import Mathlib.Tactic.SplitIfs

/-!
Sums in ones' complement. Numbers below a base are added with the carry out of the highest place
brought in at the lowest. The sum of any numbers is what their total leaves modulo the base less
one, where nothing but zeros adds up to zero; so it does not depend on the order or on where the
carries are brought in.
-/
namespace ReduceOS.OnesComplement

variable {base : ℕ}

def add (base a b : ℕ) : ℕ := if a + b < base then a + b else a + b - base + 1

def sum (base : ℕ) (words : List ℕ) : ℕ := words.foldl (add base) 0

def checksum (base : ℕ) (words : List ℕ) : ℕ := base - 1 - sum base words

structure IsSum (base total s : ℕ) : Prop where
  lt : s < base
  modEq : s ≡ total [MOD base - 1]
  eq_zero_iff : s = 0 ↔ total = 0

section Sums

variable {total a b s s' x : ℕ} {words : List ℕ}

theorem IsSum.unique (h : IsSum base total s) (h' : IsSum base total s') : s = s' := by
  have hmod : s ≡ s' [MOD base - 1] := h.modEq.trans h'.modEq.symm
  have hzero : s = 0 ↔ s' = 0 := h.eq_zero_iff.trans h'.eq_zero_iff.symm
  have hs := h.lt
  have hs' := h'.lt
  rcases Nat.lt_trichotomy s s' with hlt | heq | hgt
  · have hdvd := (Nat.modEq_iff_dvd' hlt.le).mp hmod
    have hle := Nat.le_of_dvd (by omega) hdvd
    omega
  · exact heq
  · have hdvd := (Nat.modEq_iff_dvd' hgt.le).mp hmod.symm
    have hle := Nat.le_of_dvd (by omega) hdvd
    omega

theorem IsSum.zero (hbase : 0 < base) : IsSum base 0 0 := ⟨hbase, rfl, Iff.rfl⟩

theorem IsSum.add (h : IsSum base total s) (hx : x < base) :
    IsSum base (total + x) (add base s x) := by
  have hs := h.lt
  have hzero := h.eq_zero_iff
  have hmod : s + x ≡ total + x [MOD base - 1] := h.modEq.add_right x
  unfold OnesComplement.add
  split_ifs with hcarry
  · exact ⟨hcarry, hmod, by omega⟩
  · have hsplit : s + x = s + x - base + 1 + (base - 1) := by omega
    refine ⟨by omega, ?_, by omega⟩
    rw [hsplit] at hmod
    exact Nat.ModEq.trans (by simp [Nat.ModEq]) hmod

theorem isSum_foldl (h : IsSum base total s) (hwords : ∀ x ∈ words, x < base) :
    IsSum base (total + words.sum) (words.foldl (OnesComplement.add base) s) := by
  induction words generalizing total s with
  | nil => exact h
  | cons x words ih =>
    obtain ⟨hx, hrest⟩ := List.forall_mem_cons.mp hwords
    rw [List.sum_cons, ← Nat.add_assoc]
    exact ih (h.add hx) hrest

theorem isSum_sum (hbase : 0 < base) (hwords : ∀ x ∈ words, x < base) :
    IsSum base words.sum (sum base words) := by
  have hsum := isSum_foldl (IsSum.zero hbase) hwords
  rwa [Nat.zero_add] at hsum

/-- A number below the base with the right remainder is the sum of a positive total, or the
largest number stands for it. -/
theorem isSum_of_modEq (hs : s < base) (hpos : 0 < s) (htotal : 0 < total)
    (hmod : s ≡ total [MOD base - 1]) : IsSum base total s :=
  ⟨hs, hmod, iff_of_false (by omega) (by omega)⟩

/-- A sum with its complement put in comes to the largest number. -/
theorem IsSum.complement (h : IsSum base total s) (hbase : 1 < base) :
    IsSum base (total + (base - 1 - s)) (base - 1) := by
  have hs := h.lt
  have hzero := h.eq_zero_iff
  refine ⟨by omega, ?_, by omega⟩
  have hmod := h.modEq.add_right (base - 1 - s)
  rwa [Nat.add_sub_cancel' (by omega)] at hmod

/-- A total has the largest number for its sum exactly when it is a positive multiple of that. -/
theorem isSum_top_iff (hbase : 1 < base) :
    IsSum base total (base - 1) ↔ 0 < total ∧ base - 1 ∣ total := by
  constructor
  · intro h
    refine ⟨Nat.pos_of_ne_zero fun hzero => ?_, ?_⟩
    · have htop := h.eq_zero_iff.mpr hzero
      omega
    · exact (Nat.modEq_zero_iff_dvd.mp (h.modEq.symm.trans (by simp [Nat.ModEq])))
  · rintro ⟨hpos, hdvd⟩
    refine isSum_of_modEq (by omega) (by omega) hpos ?_
    exact Nat.ModEq.trans (by simp [Nat.ModEq]) (Nat.modEq_zero_iff_dvd.mpr hdvd).symm

end Sums

section Words

def pairs (digit : ℕ) : List ℕ → List ℕ
  | a :: b :: digits => (digit * a + b) :: pairs digit digits
  | [a] => [digit * a]
  | [] => []

variable {digit : ℕ}

theorem pairs_lt {digits : List ℕ} (h : ∀ a ∈ digits, a < digit) :
    ∀ x ∈ pairs digit digits, x < digit * digit := by
  intro x hx
  induction digits using pairs.induct with
  | case1 a b digits ih =>
    have ha := h a (by simp)
    have hb := h b (by simp)
    rw [pairs, List.mem_cons] at hx
    rcases hx with rfl | hx
    · have hmul := Nat.mul_le_mul_left digit (Nat.succ_le_of_lt ha)
      rw [Nat.mul_succ] at hmul
      omega
    · exact ih (fun c hc => h c (by simp [hc])) hx
  | case2 a =>
    have ha := h a (by simp)
    obtain rfl := List.mem_singleton.mp hx
    exact Nat.mul_lt_mul_of_pos_left ha (by omega)
  | case3 => exact absurd hx List.not_mem_nil

theorem pairs_length (digit : ℕ) (digits : List ℕ) :
    (pairs digit digits).length = (digits.length + 1) / 2 := by
  induction digits using pairs.induct with
  | case1 a b digits ih =>
    simp only [pairs, List.length_cons, ih]
    omega
  | case2 a => simp [pairs]
  | case3 => rfl

theorem pairs_append {first digits : List ℕ} (h : first.length % 2 = 0) :
    pairs digit (first ++ digits) = pairs digit first ++ pairs digit digits := by
  induction first using pairs.induct with
  | case1 a b first ih =>
    have hrest : first.length % 2 = 0 := by
      simp only [List.length_cons] at h
      omega
    simp only [List.cons_append, pairs, ih hrest]
  | case2 a => simp at h
  | case3 => rfl

end Words

end ReduceOS.OnesComplement
