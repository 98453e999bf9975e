import Mathlib.Order.Defs.Unbundled
import Mathlib.Order.RelClasses
import Mathlib.Data.Nat.Init
import Mathlib.Tactic.SplitIfs

/-!
Words and where to split them. A word is given by its letters and its length. Of its greatest
suffixes by an order of the letters and by the opposite order, the shorter one begins at a critical
position: whatever repeats around that position is a period of the whole word. Searches that compare
a word with a text from such a position can be told how far to move on.
-/
namespace ReduceOS.CriticalFactorization

variable {α : Type*} {r : α → α → Prop} {x h : ℕ → α} {l a b c d e i j k m p : ℕ}

section Suffixes

/-- The suffix from `a` comes before the suffix from `b`: it ends first, or has the smaller letter
where they differ. -/
def SuffixLt (r : α → α → Prop) (x : ℕ → α) (l a b : ℕ) : Prop :=
  ∃ q, (∀ s < q, x (a + s) = x (b + s)) ∧ b + q < l ∧
    (a + q = l ∨ a + q < l ∧ r (x (a + q)) (x (b + q)))

structure IsMaxSuffix (r : α → α → Prop) (x : ℕ → α) (l i : ℕ) : Prop where
  lt : i < l
  max : ∀ a < l, a ≠ i → SuffixLt r x l a i

theorem SuffixLt.prepend (hlt : SuffixLt r x l (a + e) (b + e))
    (hsame : ∀ s < e, x (a + s) = x (b + s)) : SuffixLt r x l a b := by
  obtain ⟨q, hq, hb, hend⟩ := hlt
  refine ⟨e + q, fun s hs => ?_, by omega, ?_⟩
  · by_cases hse : s < e
    · exact hsame s hse
    · obtain ⟨t, rfl⟩ := Nat.exists_eq_add_of_le (Nat.le_of_not_lt hse)
      simpa only [Nat.add_assoc] using hq t (by omega)
  · simpa only [Nat.add_assoc] using hend

theorem SuffixLt.strip [Std.Irrefl r] (hlt : SuffixLt r x l a b)
    (hsame : ∀ s < e, x (a + s) = x (b + s)) (he : a + e ≤ l) :
    SuffixLt r x l (a + e) (b + e) := by
  obtain ⟨q, hq, hb, hend⟩ := hlt
  have heq : e ≤ q := by
    by_contra hnot
    rcases hend with hend | ⟨-, hend⟩
    · omega
    · rw [hsame q (by omega)] at hend
      exact irrefl _ hend
  obtain ⟨q, rfl⟩ := Nat.exists_eq_add_of_le heq
  refine ⟨q, fun s hs => ?_, by omega, ?_⟩
  · simpa only [Nat.add_assoc] using hq (e + s) (by omega)
  · simpa only [Nat.add_assoc] using hend

/-- Two suffixes that come before one another, each by one of two opposite orders, part only where
the first one ends. -/
theorem SuffixLt.opposite [IsStrictOrder α r] (hlt : SuffixLt r x l a b)
    (hgt : SuffixLt (flip r) x l a b) : ∀ s, a + s < l → x (a + s) = x (b + s) := by
  obtain ⟨q, hq, hb, hend⟩ := hlt
  obtain ⟨q', hq', hb', hend'⟩ := hgt
  rcases hend with hend | ⟨hin, hr⟩
  · exact fun s hs => hq s (by omega)
  · exfalso
    rcases Nat.lt_trichotomy q q' with hqq | rfl | hqq
    · rw [hq' q hqq] at hr
      exact irrefl _ hr
    · rcases hend' with hend' | ⟨-, hr'⟩
      · omega
      · exact asymm hr hr'
    · rcases hend' with hend' | ⟨-, hr'⟩
      · omega
      · rw [hq q' hqq] at hr'
        exact irrefl (r := r) _ hr'

theorem SuffixLt.not_lt [IsStrictOrder α r] (hlt : SuffixLt r x l a b) : ¬ SuffixLt r x l b a := by
  rintro ⟨q', hq', ha', hend'⟩
  obtain ⟨q, hq, hb, hend⟩ := hlt
  rcases Nat.lt_trichotomy q q' with hqq | rfl | hqq
  · rcases hend with hend | ⟨-, hr⟩
    · omega
    · rw [hq' q hqq] at hr
      exact irrefl _ hr
  · rcases hend with hend | ⟨-, hr⟩
    · omega
    · rcases hend' with hend' | ⟨-, hr'⟩
      · omega
      · exact asymm hr hr'
  · rcases hend' with hend' | ⟨-, hr'⟩
    · omega
    · rw [hq q' hqq] at hr'
      exact irrefl _ hr'

theorem SuffixLt.trans [IsStrictOrder α r] (hab : SuffixLt r x l a b) (hbc : SuffixLt r x l b c) :
    SuffixLt r x l a c := by
  obtain ⟨q, hq, hb, hend⟩ := hab
  obtain ⟨q', hq', hc, hend'⟩ := hbc
  rcases Nat.lt_trichotomy q q' with hqq | rfl | hqq
  · refine ⟨q, fun s hs => (hq s hs).trans (hq' s (by omega)), by omega, ?_⟩
    rw [← hq' q hqq]
    exact hend
  · refine ⟨q, fun s hs => (hq s hs).trans (hq' s hs), hc, ?_⟩
    rcases hend' with hend' | ⟨-, hr'⟩
    · omega
    · rcases hend with hend | ⟨hin, hr⟩
      · exact Or.inl hend
      · exact Or.inr ⟨hin, IsTrans.trans _ _ _ hr hr'⟩
  · refine ⟨q', fun s hs => (hq s (by omega)).trans (hq' s hs), hc, ?_⟩
    rcases hend' with hend' | ⟨-, hr'⟩
    · omega
    · refine Or.inr ⟨by omega, ?_⟩
      rw [hq q' hqq]
      exact hr'

theorem SuffixLt.total [Std.Trichotomous r] (ha : a < l) (hb : b < l) (hne : a ≠ b) :
    SuffixLt r x l a b ∨ SuffixLt r x l b a := by
  obtain ⟨n, rfl⟩ := Nat.exists_eq_add_of_lt ha
  induction n generalizing a b with
  | zero =>
    rcases trichotomous_of r (x a) (x b) with hr | heq | hr
    · exact Or.inl ⟨0, by simp, by omega, Or.inr ⟨by omega, hr⟩⟩
    · exact Or.inl ⟨1, by simpa using heq, by omega, Or.inl (by omega)⟩
    · exact Or.inr ⟨0, by simp, by omega, Or.inr ⟨by omega, hr⟩⟩
  | succ n ih =>
    rcases trichotomous_of r (x a) (x b) with hr | heq | hr
    · exact Or.inl ⟨0, by simp, by omega, Or.inr ⟨by omega, hr⟩⟩
    · have hsame : ∀ s < 1, x (a + s) = x (b + s) := fun s hs => by
        obtain rfl : s = 0 := by omega
        exact heq
      by_cases hlast : b + 1 = a + (n + 1) + 1
      · refine Or.inr ⟨1, fun s hs => (hsame s hs).symm, by omega, Or.inl (by omega)⟩
      · rw [show a + (n + 1) + 1 = a + 1 + n + 1 by omega] at hb hlast ⊢
        exact (ih (by omega) (by omega) (by omega)).imp (·.prepend hsame)
          (·.prepend fun s hs => (hsame s hs).symm)
    · exact Or.inr ⟨0, by simp, by omega, Or.inr ⟨by omega, hr⟩⟩

theorem exists_maxSuffix [IsStrictTotalOrder α r] (hl : 0 < l) : ∃ i, IsMaxSuffix r x l i := by
  have hfirst : ∀ n, n < l → ∃ i ≤ n, ∀ a ≤ n, a ≠ i → SuffixLt r x l a i := by
    intro n
    induction n with
    | zero => exact fun _ => ⟨0, Nat.le_refl 0, fun a ha hne => absurd (Nat.le_zero.mp ha) hne⟩
    | succ n ih =>
      intro hn
      obtain ⟨i, hi, hmax⟩ := ih (by omega)
      rcases SuffixLt.total (r := r) (x := x) (show i < l by omega) hn (by omega) with hlt | hlt
      · refine ⟨n + 1, Nat.le_refl _, fun a ha hne => ?_⟩
        by_cases hai : a = i
        · exact hai ▸ hlt
        · exact (hmax a (by omega) hai).trans hlt
      · refine ⟨i, by omega, fun a ha hne => ?_⟩
        by_cases han : a = n + 1
        · exact han ▸ hlt
        · exact hmax a (by omega) hne
  obtain ⟨i, hi, hmax⟩ := hfirst (l - 1) (by omega)
  exact ⟨i, by omega, fun a ha => hmax a (by omega)⟩

end Suffixes

section Repetitions

def PeriodFrom (x : ℕ → α) (l i p : ℕ) : Prop := ∀ q, i ≤ q → q + p < l → x q = x (q + p)

/-- What stands on the two sides of position `i` repeats, as far as the word reaches. -/
def RepeatsAt (x : ℕ → α) (l i d : ℕ) : Prop :=
  ∀ q < i, i ≤ q + d → q + d < l → x q = x (q + d)

def Critical (x : ℕ → α) (l i : ℕ) : Prop :=
  ∀ d, 0 < d → RepeatsAt x l i d → i < d ∧ PeriodFrom x l 0 d

theorem PeriodFrom.mul (hp : PeriodFrom x l i p) (n : ℕ) {q : ℕ} (hq : i ≤ q)
    (hlt : q + n * p < l) : x q = x (q + n * p) := by
  induction n with
  | zero => simp
  | succ n ih =>
    rw [Nat.succ_mul] at hlt ⊢
    rw [ih (by omega), ← Nat.add_assoc]
    exact hp _ (by omega) (by omega)

theorem PeriodFrom.congr (hp : PeriodFrom x l i p) {q q' : ℕ} (hq : i ≤ q) (hlt : q' < l)
    (hle : q ≤ q') (hmod : p ∣ q' - q) : x q = x q' := by
  obtain ⟨n, hn⟩ := hmod
  have hq' : q' = q + n * p := by
    rw [Nat.mul_comm]
    omega
  rw [hq']
  exact hp.mul n hq (hq' ▸ hlt)

/-- The shorter one of the greatest suffixes by two opposite orders begins at a critical
position. -/
theorem critical_of_maxSuffix [IsStrictTotalOrder α r] (hi : IsMaxSuffix r x l i)
    (hj : IsMaxSuffix (flip r) x l j) (hle : j ≤ i) : Critical x l i := by
  intro d hd hrep
  have hil := hi.lt
  have hlong : i < d := by
    by_contra hshort
    have hsame : ∀ s < d, i + s < l → x (i - d + s) = x (i + s) := fun s hs hlt => by
      have := hrep (i - d + s) (by omega) (by omega) (by omega)
      rwa [show i - d + s + d = i + s by omega] at this
    have hlt := hi.max (i - d) (by omega) (by omega)
    refine hlt.not_lt ?_
    by_cases hend : l ≤ i + d
    · refine ⟨l - i, fun s hs => (hsame s (by omega) (by omega)).symm, by omega, Or.inl (by omega)⟩
    · refine SuffixLt.prepend (e := d) ?_ fun s hs => (hsame s hs (by omega)).symm
      rw [show i - d + d = i by omega]
      exact hi.max (i + d) (by omega) (by omega)
  refine ⟨hlong, fun q _ hq => ?_⟩
  by_cases hqi : q < i
  · exact hrep q hqi (by omega) hq
  have hlt := hi.max (i + d) (by omega) (by omega)
  have hgt : SuffixLt (flip r) x l (i + d) i := by
    have hsame : ∀ s < i - j, x (j + d + s) = x (j + s) := fun s hs => by
      have := hrep (j + s) (by omega) (by omega) (by omega)
      rw [this]
      congr 1
      omega
    have hirrefl : Std.Irrefl (flip r) := ⟨fun a => irrefl (r := r) a⟩
    have hstrip := (hj.max (j + d) (by omega) (by omega)).strip (e := i - j) hsame (by omega)
    rwa [show j + d + (i - j) = i + d by omega, show j + (i - j) = i by omega] at hstrip
  have hsame := hlt.opposite hgt (q - i) (by omega)
  rw [show i + d + (q - i) = q + d by omega, show i + (q - i) = q by omega] at hsame
  exact hsame.symm

def LeastFrom (x : ℕ → α) (l i p : ℕ) : Prop :=
  i + p ≤ l ∧ ∀ d, 0 < d → d < p → ¬ PeriodFrom x l i d

theorem PeriodFrom.mono (hp : PeriodFrom x l i p) (hij : i ≤ j) : PeriodFrom x l j p :=
  fun q hq => hp q (Nat.le_trans hij hq)

/-- If the part in front goes on with the period of the suffix, this is the least repetition. -/
theorem Critical.periodic (hc : Critical x l i) (hleast : LeastFrom x l i p)
    (hp : PeriodFrom x l i p) (hfront : ∀ q < i, x q = x (q + p)) :
    PeriodFrom x l 0 p ∧ ∀ d, 0 < d → RepeatsAt x l i d → p ≤ d := by
  refine ⟨fun q _ hq => ?_, fun d hd hrep => ?_⟩
  · by_cases hqi : q < i
    · exact hfront q hqi
    · exact hp q (by omega) hq
  · by_contra hlt
    exact hleast.2 d hd (by omega) ((hc d hd hrep).2.mono (Nat.zero_le i))

/-- Otherwise what repeats is longer than both parts. -/
theorem Critical.aperiodic (hc : Critical x l i) (hleast : LeastFrom x l i p) (hpos : 0 < p)
    (hp : PeriodFrom x l i p) (hfront : ¬ ∀ q < i, x q = x (q + p)) (hd : 0 < d)
    (hrep : RepeatsAt x l i d) : i < d ∧ l - i < d := by
  obtain ⟨hlong, hperiod⟩ := hc d hd hrep
  refine ⟨hlong, ?_⟩
  by_contra hshort
  have hle := hleast.1
  have hmod : d % p = 0 := by
    by_contra hmod
    have hlt := Nat.mod_lt d hpos
    have hrest : RepeatsAt x l i (d % p) := fun q hq hiq hql => by
      rw [hperiod q (Nat.zero_le q) (by omega)]
      refine (hp.congr hiq (by omega) (by have := Nat.mod_le d p; omega) ?_).symm
      rw [show q + d - (q + d % p) = d - d % p by omega]
      exact Nat.dvd_sub_mod d
    exact hleast.2 _ (by omega) hlt ((hc _ (by omega) hrest).2.mono (Nat.zero_le i))
  have hpd : p ≤ d := Nat.le_of_dvd hd (Nat.dvd_of_mod_eq_zero hmod)
  refine hfront fun q hq => ?_
  rw [hperiod q (Nat.zero_le q) (by omega)]
  by_cases hin : i ≤ q + p
  · refine (hp.congr hin (by omega) (by omega) ?_).symm
    rw [show q + d - (q + p) = d - p by omega]
    exact Nat.dvd_sub (Nat.dvd_of_mod_eq_zero hmod) (Nat.dvd_refl p)
  · rw [hperiod (q + p) (Nat.zero_le _) (by omega), hp (q + d) (by omega) (by omega)]
    congr 1
    omega

end Repetitions

section Shifts

def Occurs (h x : ℕ → α) (l k : ℕ) : Prop := ∀ q < l, h (k + q) = x q

theorem Critical.right_shift (hc : Critical x l i) (hmatch : ∀ q, i ≤ q → q < j → h (k + q) = x q)
    (hj : j < l) (hne : h (k + j) ≠ x j) (hd : 0 < d) (hdj : i + d ≤ j) :
    ¬ Occurs h x l (k + d) := by
  intro hocc
  have hrep : RepeatsAt x l i d := fun q hq hiq hql => by
    rw [← hocc q (by omega), ← hmatch (q + d) hiq (by omega)]
    congr 1
    omega
  have hperiod := (hc d hd hrep).2 (j - d) (Nat.zero_le _) (by omega)
  have hhere := hocc (j - d) (by omega)
  rw [show k + d + (j - d) = k + j by omega] at hhere
  rw [show j - d + d = j by omega] at hperiod
  exact hne (hhere.trans hperiod)

/-- A mismatch in front of it, when all of the rest has matched. -/
theorem left_shift (hleast : ∀ d, 0 < d → RepeatsAt x l i d → p ≤ d)
    (hmatch : ∀ q, i ≤ q → q < l → h (k + q) = x q) (hd : 0 < d) (hdp : d < p) :
    ¬ Occurs h x l (k + d) := by
  intro hocc
  refine absurd (hleast d hd fun q hq hiq hql => ?_) (by omega)
  rw [← hocc q (by omega), ← hmatch (q + d) hiq hql]
  congr 1
  omega

/-- A mismatch at the end, when all but the last period is known to match. -/
theorem Critical.end_shift (hc : Critical x l i) (hperiod : PeriodFrom x l 0 p) (hi : i ≤ p)
    (hmatch : ∀ q, q + p < l → h (k + q) = x q) (hl : 0 < l) (hne : h (k + (l - 1)) ≠ x (l - 1))
    (hd : 0 < d) (hdl : d + p < l) : ¬ Occurs h x l (k + d) := by
  intro hocc
  have hrep : RepeatsAt x l i (d + p) := fun q hq hiq hql => by
    rw [← hocc q (by omega), show q + (d + p) = q + d + p by omega,
      ← hperiod (q + d) (Nat.zero_le _) (by omega), ← hmatch (q + d) (by omega)]
    congr 1
    omega
  have htotal := (hc (d + p) (by omega) hrep).2 (l - 1 - (d + p)) (Nat.zero_le _) (by omega)
  have hone := hperiod (l - 1 - (d + p)) (Nat.zero_le _) (by omega)
  have hhere := hocc (l - 1 - d) (by omega)
  rw [show k + d + (l - 1 - d) = k + (l - 1) by omega] at hhere
  rw [show l - 1 - (d + p) + (d + p) = l - 1 by omega] at htotal
  rw [show l - 1 - (d + p) + p = l - 1 - d by omega] at hone
  exact hne (hhere.trans (hone.symm.trans htotal))

end Shifts

section Search

/-- A search for the greatest suffix: no suffix before `j` is the greatest one, but the one from `i`
may be. The letters from `i` up to the `k - 1` letters behind `j` have the period `p`, and begin
with a word of that length which is greater than all of its own suffixes. -/
structure Candidate (r : α → α → Prop) (x : ℕ → α) (l i j k p : ℕ) : Prop where
  lt : i < j
  dvd : p ∣ j - i
  pos : 0 < k
  le : k ≤ p
  fits : j + k ≤ l + 1
  period : PeriodFrom x (j + k - 1) i p
  least : ∀ t, 0 < t → t < p →
    ∃ q, t + q < p ∧ (∀ s < q, x (i + t + s) = x (i + s)) ∧ r (x (i + t + q)) (x (i + q))
  max : ∀ a < j, a ≠ i → ¬ IsMaxSuffix r x l a

namespace Candidate

theorem start (hl : 0 < l) : Candidate r x l 0 1 1 1 where
  lt := Nat.one_pos
  dvd := Nat.dvd_refl 1
  pos := Nat.one_pos
  le := Nat.le_refl 1
  fits := by omega
  period q _ hq := by omega
  least t ht htp := by omega
  max a ha hne := by omega

theorem period_le (hc : Candidate r x l i j k p) : i + p ≤ j := by
  have hlt := hc.lt
  have := Nat.le_of_dvd (by omega) hc.dvd
  omega

/-- Letters one multiple of the period apart, as far as the period is known. -/
theorem same (hc : Candidate r x l i j k p) {q q' : ℕ} (hq : i ≤ q) (hle : q ≤ q')
    (hlt : q' < j + k - 1) (hmod : p ∣ q' - q) : x q = x q' :=
  hc.period.congr hq hlt hle hmod

theorem period_succ (hc : Candidate r x l i j k p) (heq : x (i + k - 1) = x (j + k - 1)) :
    PeriodFrom x (j + k) i p := by
  intro q hiq hq
  by_cases hlast : q + p < j + k - 1
  · exact hc.period q hiq hlast
  · have hle := hc.period_le
    have hpos := hc.pos
    have hkp := hc.le
    have hmod : p ∣ q - (i + k - 1) := by
      rw [show q - (i + k - 1) = j - i - p by omega]
      exact Nat.dvd_sub hc.dvd (Nat.dvd_refl p)
    rw [show q + p = j + k - 1 by omega, ← heq]
    exact (hc.same (by omega) (by omega) (by omega) hmod).symm

theorem extend (hc : Candidate r x l i j k p) (heq : x (i + k - 1) = x (j + k - 1))
    (hl : j + k ≤ l) (hk : k ≠ p) : Candidate r x l i j (k + 1) p where
  lt := hc.lt
  dvd := hc.dvd
  pos := by omega
  le := by
    have := hc.le
    omega
  fits := by omega
  period := hc.period_succ heq
  least := hc.least
  max := hc.max

/-- A whole period has been repeated: none of its suffixes begins the greatest one. -/
theorem next [IsStrictTotalOrder α r] (hc : Candidate r x l i j k p)
    (heq : x (i + k - 1) = x (j + k - 1)) (hl : j + k ≤ l) (hk : k = p) :
    Candidate r x l i (j + p) 1 p := by
  have hlt := hc.lt
  have hpos := hc.pos
  have hle := hc.period_le
  have hperiod := hc.period_succ heq
  subst hk
  refine ⟨by omega, ?_, Nat.one_pos, hpos, by omega, hperiod, hc.least, fun a ha hne hmax => ?_⟩
  · rw [show j + k - i = j - i + k by omega]
    exact Nat.dvd_add hc.dvd (Nat.dvd_refl k)
  by_cases haj : a < j
  · exact hc.max a haj hne hmax
  by_cases hfirst : a = j
  · -- the suffix from `j` comes before the one that begins a period earlier
    subst hfirst
    have hsame : ∀ s < k, x (a + s) = x (a - k + s) := fun s hs => by
      rw [hperiod (a - k + s) (by omega) (by omega)]
      congr 1
      omega
    refine (hmax.max (a - k) (by omega) (by omega)).not_lt ?_
    by_cases hend : a + k = l
    · exact ⟨k, hsame, by omega, Or.inl hend⟩
    · refine SuffixLt.prepend (e := k) ?_ hsame
      rw [show a - k + k = a by omega]
      exact hmax.max (a + k) (by omega) (by omega)
  · obtain ⟨q, hqp, hsame, hr⟩ := hc.least (a - j) (by omega) (by omega)
    have hcopy : ∀ s < k, x (i + s) = x (j + s) := fun s hs =>
      hperiod.congr (by omega) (by omega) (by omega) (by
        rw [show j + s - (i + s) = j - i by omega]
        exact hc.dvd)
    refine (hmax.max j (by omega) (by omega)).not_lt ⟨q, fun s hs => ?_, by omega,
        Or.inr ⟨by omega, ?_⟩⟩
    · have := hsame s hs
      rw [Nat.add_assoc, hcopy _ (by omega), hcopy _ (by omega)] at this
      rwa [show j + (a - j + s) = a + s by omega] at this
    · rw [Nat.add_assoc, hcopy _ (by omega), hcopy _ (by omega)] at hr
      rwa [show j + (a - j + q) = a + q by omega] at hr

/-- A smaller letter: all that was repeated and the letter make up the new period. -/
theorem greater [IsStrictTotalOrder α r] (hc : Candidate r x l i j k p)
    (hr : r (x (j + k - 1)) (x (i + k - 1))) (hl : j + k ≤ l) :
    Candidate r x l i (j + k) 1 (j + k - i) := by
  have hlt := hc.lt
  have hpos := hc.pos
  have hkp := hc.le
  obtain ⟨m, hm⟩ := hc.dvd
  have hleast : ∀ t, 0 < t → t < j + k - i →
      ∃ q, t + q < j + k - i ∧ (∀ s < q, x (i + t + s) = x (i + s)) ∧
        r (x (i + t + q)) (x (i + q)) := by
    intro t ht htp
    obtain ⟨n, hn⟩ : ∃ n, t = p * n + t % p := ⟨t / p, (Nat.div_add_mod t p).symm⟩
    have hmod := Nat.mod_lt t (show 0 < p by omega)
    generalize t % p = t₀ at hn hmod
    have hback : ∀ s, t + s < j + k - 1 - i → x (i + t + s) = x (i + t₀ + s) := fun s hs =>
      (hc.same (by omega) (by omega) (by omega) ⟨n, by omega⟩).symm
    by_cases ht₀ : t₀ = 0
    · subst ht₀
      have hnm : n ≤ m := by
        by_contra hnot
        have := Nat.mul_le_mul_left p (show m + 1 ≤ n by omega)
        rw [Nat.mul_add, Nat.mul_one] at this
        omega
      have hle := Nat.mul_le_mul_left p hnm
      refine ⟨j + k - 1 - i - t, by omega, fun s hs => by simpa using hback s (by omega), ?_⟩
      rw [show i + t + (j + k - 1 - i - t) = j + k - 1 by omega]
      have hfar : x (i + k - 1) = x (i + (j + k - 1 - i - t)) :=
        hc.same (by omega) (by omega) (by omega) ⟨m - n, by rw [Nat.mul_sub]; omega⟩
      rwa [← hfar]
    · obtain ⟨q, hqp, hsame, hq⟩ := hc.least t₀ (by omega) hmod
      by_cases hin : t + q < j + k - 1 - i
      · refine ⟨q, by omega, fun s hs => (hback s (by omega)).trans (hsame s hs), ?_⟩
        rwa [hback q hin]
      · -- the smaller letter comes first
        obtain ⟨q', hq'⟩ : ∃ q', t + q' = j + k - 1 - i := ⟨j + k - 1 - i - t, by omega⟩
        have hrest : t₀ + q' = k - 1 := by
          have h₁ : (p * n + (t₀ + q')) % p = t₀ + q' := by
            rw [Nat.mul_add_mod, Nat.mod_eq_of_lt (by omega)]
          have h₂ : (p * m + (k - 1)) % p = k - 1 := by
            rw [Nat.mul_add_mod, Nat.mod_eq_of_lt (by omega)]
          rw [← h₁, ← h₂]
          congr 1
          omega
        refine ⟨q', by omega, fun s hs => (hback s (by omega)).trans (hsame s (by omega)), ?_⟩
        rw [show i + t + q' = j + k - 1 by omega]
        rw [show i + k - 1 = i + t₀ + q' by omega] at hr
        by_cases hqq : q' = q
        · subst hqq
          exact IsTrans.trans _ _ _ hr hq
        · rwa [← hsame q' (by omega)]
  refine ⟨by omega, Nat.dvd_refl _, Nat.one_pos, by omega, by omega,
      fun q hq hlt => by omega, hleast,
    fun a ha hne hmax => ?_⟩
  by_cases haj : a < j
  · exact hc.max a haj hne hmax
  · obtain ⟨q, hq, hsame, hlast⟩ := hleast (a - i) (by omega) (by omega)
    rw [show i + (a - i) = a by omega] at hsame hlast
    exact (hmax.max i (by omega) (Ne.symm hne)).not_lt
        ⟨q, hsame, by omega, Or.inr ⟨by omega, hlast⟩⟩

/-- A greater letter: the candidate is no longer one. -/
theorem less [IsStrictTotalOrder α r] (hc : Candidate r x l i j k p)
    (hr : r (x (i + k - 1)) (x (j + k - 1))) (hl : j + k ≤ l) : Candidate r x l j (j + 1) 1 1 := by
  have hlt := hc.lt
  have hpos := hc.pos
  refine ⟨by omega, Nat.one_dvd _, Nat.one_pos, Nat.le_refl 1, by omega, fun q hq hlt => by omega,
    fun t ht htp => by omega, fun a ha hne hmax => ?_⟩
  by_cases hai : a = i
  · subst hai
    refine (hmax.max j (by omega) (by omega)).not_lt
      ⟨k - 1, fun s hs => ?_, by omega, Or.inr ⟨by omega, ?_⟩⟩
    · refine hc.same (by omega) (by omega) (by omega) ?_
      rw [show j + s - (a + s) = j - a by omega]
      exact hc.dvd
    · rwa [show a + (k - 1) = a + k - 1 by omega, show j + (k - 1) = j + k - 1 by omega]
  · exact hc.max a (by omega) hai hmax

/-- When the word is used up the candidate is the greatest suffix. -/
theorem finish [IsStrictTotalOrder α r] (hc : Candidate r x l i j k p) (hl : j + k = l + 1) :
    IsMaxSuffix r x l i ∧ PeriodFrom x l i p ∧ LeastFrom x l i p := by
  have hlt := hc.lt
  have hpos := hc.pos
  have hkp := hc.le
  have hle := hc.period_le
  have hperiod : PeriodFrom x l i p := by
    have := hc.period
    rwa [show j + k - 1 = l by omega] at this
  refine ⟨?_, hperiod, by omega, fun d hd hdp hper => ?_⟩
  · obtain ⟨a, hmax⟩ := exists_maxSuffix (r := r) (x := x) (show 0 < l by omega)
    by_cases hai : a = i
    · exact hai ▸ hmax
    have haj : j ≤ a := by
      by_contra hnot
      exact hc.max a (by omega) hai hmax
    have hal := hmax.lt
    refine absurd ⟨l - a, fun s hs => ?_, by omega, Or.inl (by omega)⟩
      (hmax.max (a - (j - i)) (by omega) (by omega)).not_lt
    refine (hperiod.congr (by omega) (by omega) (by omega) ?_).symm
    rw [show a + s - (a - (j - i) + s) = j - i by omega]
    exact hc.dvd
  · obtain ⟨q, hqp, -, hr⟩ := hc.least d hd hdp
    have hsame := hper (i + q) (by omega) (by omega)
    rw [show i + q + d = i + d + q by omega] at hsame
    rw [← hsame] at hr
    exact irrefl _ hr

end Candidate

end Search

end ReduceOS.CriticalFactorization
