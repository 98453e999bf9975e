import Mathlib.Data.BitVec
import Mathlib.Tactic.IntervalCases
import ReduceOS.CriticalFactorization
import ReduceOS.Strstr

/-!
The two-way search finds the first place where the needle stands. The needle is split at a critical
position, so no round of the search moves over a place where it stands.
-/
namespace ReduceOS.TwoWay

open CriticalFactorization Strstr

section Split

variable {n : Memory} {l i jp k p rounds : ℕ} {r : BitVec 8 → BitVec 8 → Prop}

instance byte_lt_order : IsStrictTotalOrder (BitVec 8) (· < ·) where
  trichotomous _ _ hab hba := BitVec.le_antisymm (BitVec.not_lt.mp hba) (BitVec.not_lt.mp hab)
  irrefl _ := BitVec.lt_irrefl _
  trans _ _ _ := BitVec.lt_trans

instance byte_gt_order : IsStrictTotalOrder (BitVec 8) (flip (· < ·)) where
  trichotomous _ _ hab hba := BitVec.le_antisymm (BitVec.not_lt.mp hab) (BitVec.not_lt.mp hba)
  irrefl _ := BitVec.lt_irrefl _
  trans _ _ _ hab hbc := BitVec.lt_trans hbc hab

/-- The loop ends at the greatest suffix, with its least period. -/
theorem maximalSuffix_spec [IsStrictTotalOrder (BitVec 8) r] {greater : BitVec 8 → BitVec 8 → Bool}
    (hr : ∀ a b, greater a b = true ↔ r b a) (hc : Candidate r n l i (jp + 1) k p)
    (hrounds : 2 * l ≤ rounds + (i + jp + k)) :
    let found := maximalSuffix greater n l rounds i jp k p
    IsMaxSuffix r n l found.1 ∧ PeriodFrom n l found.1 found.2 ∧ LeastFrom n l found.1 found.2 ∧
      0 < found.2 := by
  have hdone : ∀ {i jp k p : ℕ}, Candidate r n l i (jp + 1) k p → ¬ jp + k < l →
      IsMaxSuffix r n l i ∧ PeriodFrom n l i p ∧ LeastFrom n l i p ∧ 0 < p := by
    intro i jp k p hc hend
    have hfits := hc.fits
    have hpos := hc.pos
    have hle := hc.le
    obtain ⟨hmax, hper, hleast⟩ := hc.finish (by omega)
    exact ⟨hmax, hper, hleast, by omega⟩
  induction rounds generalizing i jp k p with
  | zero =>
    have hlt := hc.lt
    exact hdone hc (by omega)
  | succ rounds ih =>
    have hlt := hc.lt
    have hpos := hc.pos
    have hkp := hc.le
    have hle := hc.period_le
    rw [maximalSuffix]
    by_cases hin : jp + k < l
    · have hj : jp + 1 + k - 1 = jp + k := by omega
      rw [if_pos hin]
      by_cases heq : n (i + k - 1) = n (jp + k)
      · rw [if_pos heq]
        by_cases hk : k = p
        · rw [if_pos hk]
          have hnext := hc.next (by rw [hj, heq]) (by omega) hk
          rw [show jp + 1 + p = jp + p + 1 by omega] at hnext
          exact ih hnext (by omega)
        · rw [if_neg hk]
          exact ih (hc.extend (by rw [hj, heq]) (by omega) hk) (by omega)
      · rw [if_neg heq]
        by_cases hgreater : greater (n (i + k - 1)) (n (jp + k)) = true
        · rw [if_pos hgreater]
          have hnext := hc.greater (by rw [hj]; exact (hr _ _).mp hgreater) (by omega)
          rw [show jp + 1 + k = jp + k + 1 by omega] at hnext
          exact ih hnext (by omega)
        · rw [if_neg hgreater]
          have hless : r (n (i + k - 1)) (n (jp + k)) := by
            rcases trichotomous_of r (n (i + k - 1)) (n (jp + k)) with h | h | h
            · exact h
            · exact absurd h heq
            · exact absurd ((hr _ _).mpr h) hgreater
          exact ih (hc.less (by rw [hj]; exact hless) (by omega)) (by omega)
    · rw [if_neg hin]
      exact hdone hc hin

/-- The needle is split at a critical position; the right part has the period that goes with it. -/
theorem splitNeedle_spec (hl : 0 < l) :
    let (split, p) := splitNeedle n l
    Critical n l split ∧ split < l ∧ PeriodFrom n l split p ∧ LeastFrom n l split p ∧ 0 < p := by
  have hfirst := maximalSuffix_spec (r := (· < ·)) (show ∀ a b : BitVec 8, _ from
    fun a b => decide_eq_true_iff (p := b < a)) (Candidate.start (x := n) hl)
    (show 2 * l ≤ suffixRounds l + (0 + 0 + 1) by unfold suffixRounds; omega)
  have hsecond := maximalSuffix_spec (r := flip (· < ·)) (show ∀ a b : BitVec 8, _ from
    fun a b => decide_eq_true_iff (p := a < b)) (Candidate.start (x := n) hl)
    (show 2 * l ≤ suffixRounds l + (0 + 0 + 1) by unfold suffixRounds; omega)
  unfold splitNeedle
  generalize maximalSuffix (fun a b => decide (b < a)) n l (suffixRounds l) 0 0 1 1 = first at *
  generalize maximalSuffix (fun a b => decide (a < b)) n l (suffixRounds l) 0 0 1 1 = second at *
  obtain ⟨ms, p0⟩ := first
  obtain ⟨ip, p⟩ := second
  obtain ⟨hmax, hrest⟩ := hfirst
  obtain ⟨hmax', hrest'⟩ := hsecond
  dsimp only at *
  split_ifs with hlt
  · exact ⟨critical_of_maxSuffix hmax' hmax (by omega), hmax'.lt, hrest'⟩
  · exact ⟨critical_of_maxSuffix hmax hmax' (by omega), hmax.lt, hrest⟩

end Split

section Memchr

variable {s : Memory} {c : BitVec 8} {a i n k q rounds : ℕ} {x : BitVec 64}

theorem toNat_byte (x : BitVec 64) (q : ℕ) :
    (x.extractLsb' (8 * q) 8).toNat = x.toNat / 2 ^ (8 * q) % 256 := by
  rw [BitVec.extractLsb'_toNat, Nat.shiftRight_eq_div_pow]

theorem byte_loadWord (s : Memory) (i : ℕ) (hq : q < 8) :
    (loadWord s i).extractLsb' (8 * q) 8 = s (i + q) := by
  apply BitVec.eq_of_toNat_eq
  rw [toNat_byte]
  have hrange : List.range 8 = [0, 1, 2, 3, 4, 5, 6, 7] := rfl
  unfold loadWord
  rw [hrange, BitVec.toNat_ofNat]
  simp only [List.foldr_cons, List.foldr_nil]
  have h0 := (s (i + 0)).isLt
  have h1 := (s (i + 1)).isLt
  have h2 := (s (i + 2)).isLt
  have h3 := (s (i + 3)).isLt
  have h4 := (s (i + 4)).isLt
  have h5 := (s (i + 5)).isLt
  have h6 := (s (i + 6)).isLt
  have h7 := (s (i + 7)).isLt
  interval_cases q <;> omega

theorem toNat_ones : ones.toNat = 0x0101010101010101 := rfl

/-- All bytes of the word that is compared with are the character. -/
theorem byte_ones_mul :
    ∀ c : BitVec 8, ∀ q < 8, (ones * c.setWidth 64).extractLsb' (8 * q) 8 = c := by
  decide +kernel

/-- The lowest byte that is zero borrows from nothing below it, and its highest bit gets set. -/
theorem hasZero_of_lowest (hq : q < 8) (hzero : x.toNat / 2 ^ (8 * q) % 256 = 0)
    (hbelow : ∀ j < q, x.toNat / 2 ^ (8 * j) % 256 ≠ 0) : hasZero x = true := by
  have hx := x.isLt
  have h0 := hbelow 0
  have h1 := hbelow 1
  have h2 := hbelow 2
  have h3 := hbelow 3
  have h4 := hbelow 4
  have h5 := hbelow 5
  have h6 := hbelow 6
  have hsub : (x - ones).getLsbD (8 * q + 7) = true := by
    rw [← BitVec.testBit_toNat, Nat.testBit_eq_decide_div_mod_eq, BitVec.toNat_sub, toNat_ones,
      decide_eq_true_eq]
    clear hbelow
    interval_cases q <;> omega
  have hnot : (~~~x).getLsbD (8 * q + 7) = true := by
    rw [BitVec.getLsbD_not, ← BitVec.testBit_toNat, Nat.testBit_eq_decide_div_mod_eq]
    have hbit : x.toNat / 2 ^ (8 * q + 7) % 2 = 0 := by
      clear hbelow h0 h1 h2 h3 h4 h5 h6
      interval_cases q <;> omega
    have hin : 8 * q + 7 < 64 := by omega
    simp [hbit, hin]
  have hhigh : highs.getLsbD (8 * q + 7) = true := by
    interval_cases q <;> decide
  unfold hasZero
  rw [bne_iff_ne]
  intro h
  have hbit := congrArg (BitVec.getLsbD · (8 * q + 7)) h
  simp only [BitVec.getLsbD_and, hsub, hnot, hhigh] at hbit
  simp at hbit

theorem hasZero_of_byte (hq : q < 8) (hzero : x.extractLsb' (8 * q) 8 = 0) : hasZero x = true := by
  have hexists : ∃ q, q < 8 ∧ x.toNat / 2 ^ (8 * q) % 256 = 0 :=
    ⟨q, hq, by rw [← toNat_byte, hzero]; rfl⟩
  obtain ⟨hlow, hbyte⟩ := Nat.find_spec hexists
  exact hasZero_of_lowest hlow hbyte fun j hj hj0 => Nat.find_min hexists hj ⟨by omega, hj0⟩

/-- A word that the loop passes over has no such character. -/
theorem ne_of_hasZero (h : hasZero (loadWord s i ^^^ ones * c.setWidth 64) = false) (hq : q < 8) :
    s (i + q) ≠ c := by
  intro heq
  rw [hasZero_of_byte hq ?_] at h
  · cases h
  · rw [BitVec.extractLsb'_xor, byte_loadWord s i hq, byte_ones_mul c q hq, heq, BitVec.xor_self]
    rfl

/-- The first place of a character among the first `n`, or that it is not there. -/
def Finds (s : Memory) (c : BitVec 8) (n : ℕ) : Option ℕ → Prop
  | some i => i < n ∧ s i = c ∧ ∀ q < i, s q ≠ c
  | none => ∀ q < n, s q ≠ c

/-- A loop of `memchr` has gone on from `i` to `j`, with `n` and then `m` characters left. -/
def Passed (s : Memory) (c : BitVec 8) (i n j m : ℕ) : Prop :=
  i ≤ j ∧ i + n = j + m ∧ ∀ q, i ≤ q → q < j → s q ≠ c

theorem Passed.refl : Passed s c i n i n := ⟨Nat.le_refl i, rfl, fun q hq hlt => by omega⟩

theorem Passed.trans {j m l o : ℕ} (h : Passed s c i n j m) (h' : Passed s c j m l o) :
    Passed s c i n l o := by
  obtain ⟨hle, hsum, hne⟩ := h
  obtain ⟨hle', hsum', hne'⟩ := h'
  refine ⟨by omega, by omega, fun q hq hlt => ?_⟩
  by_cases hqj : q < j
  · exact hne q hq hqj
  · exact hne' q (by omega) hlt

theorem Passed.one (h : s i ≠ c) : Passed s c i (n + 1) (i + 1) n :=
  ⟨by omega, by omega, fun q hq hlt => by rwa [show q = i by omega]⟩

theorem memchrHead_spec (a : ℕ) (s : Memory) (c : BitVec 8) (i n : ℕ) :
    Passed s c i n (memchrHead a s c i n).1 (memchrHead a s c i n).2 := by
  induction n generalizing i with
  | zero => exact Passed.refl
  | succ n ih =>
    rw [memchrHead]
    split_ifs with hcond
    · exact (Passed.one hcond.2).trans (ih (i + 1))
    · exact Passed.refl

theorem memchrWords_spec (s : Memory) (c : BitVec 8) (rounds i n : ℕ) :
    Passed s c i n (memchrWords s (ones * c.setWidth 64) rounds i n).1
      (memchrWords s (ones * c.setWidth 64) rounds i n).2 := by
  induction rounds generalizing i n with
  | zero => exact Passed.refl
  | succ rounds ih =>
    rw [memchrWords]
    split_ifs with hcond
    · refine Passed.trans ⟨by omega, by omega, fun q hq hlt => ?_⟩
        (ih (i + alignment) (n - alignment))
      unfold alignment at hlt
      obtain ⟨t, rfl⟩ := Nat.exists_eq_add_of_le hq
      exact ne_of_hasZero hcond.2 (by omega)
    · exact Passed.refl

theorem memchrTail_spec (s : Memory) (c : BitVec 8) (i n : ℕ) :
    Passed s c i n (memchrTail s c i n).1 (memchrTail s c i n).2 ∧
      ((memchrTail s c i n).2 = 0 ∨ s (memchrTail s c i n).1 = c) := by
  induction n generalizing i with
  | zero => exact ⟨Passed.refl, Or.inl rfl⟩
  | succ n ih =>
    rw [memchrTail]
    split_ifs with hcond
    · exact ⟨(Passed.one hcond).trans (ih (i + 1)).1, (ih (i + 1)).2⟩
    · exact ⟨Passed.refl, Or.inr (not_not.mp hcond)⟩

theorem Passed.finds {j m : ℕ} (h : Passed s c 0 n j m) (hend : m = 0 ∨ s j = c) :
    Finds s c n (if m ≠ 0 then some j else none) := by
  obtain ⟨-, hsum, hne⟩ := h
  split_ifs with hm
  · exact ⟨by omega, hend.resolve_left hm, fun q hq => hne q (Nat.zero_le q) hq⟩
  · exact fun q hq => hne q (Nat.zero_le q) (by omega)

/-- `memchr` finds the first place, wherever the string is in memory. -/
theorem memchr_spec (a : ℕ) (s : Memory) (c : BitVec 8) (n : ℕ) : Finds s c n (memchr a s c n) := by
  have hhead := memchrHead_spec a s c 0 n
  unfold memchr
  generalize memchrHead a s c 0 n = front at hhead ⊢
  obtain ⟨i, m⟩ := front
  dsimp only at hhead ⊢
  by_cases hcond : m ≠ 0 ∧ s i ≠ c
  · rw [if_pos hcond]
    have hwords := memchrWords_spec s c m i m
    generalize memchrWords s (ones * c.setWidth 64) m i m = middle at hwords ⊢
    have htail := memchrTail_spec s c middle.1 middle.2
    exact ((hhead.trans hwords).trans htail.1).finds htail.2
  · rw [if_neg hcond]
    refine hhead.finds ?_
    by_cases hm : m = 0
    · exact Or.inl hm
    · exact Or.inr (not_not.mp fun hne => hcond ⟨hm, hne⟩)

end Memchr
section Tables

variable {a b h n : Memory} {i k l m p rounds M N : ℕ} {t : ByteTables}

structure Ends (s : Memory) (N : ℕ) : Prop where
  letters : ∀ q < N, s q ≠ 0
  terminated : s N = 0

theorem memcmpFrom_eq_zero_iff (i m : ℕ) :
    memcmpFrom a b i m = 0 ↔ ∀ q, i ≤ q → q < i + m → a q = b q := by
  induction m generalizing i with
  | zero => exact iff_of_true rfl fun q hq hlt => by omega
  | succ m ih =>
    rw [memcmpFrom]
    split_ifs with hlt hgt
    · exact iff_of_false (by decide) fun h =>
        BitVec.lt_irrefl _ (h i (Nat.le_refl i) (by omega) ▸ hlt)
    · exact iff_of_false (by decide) fun h =>
        BitVec.lt_irrefl _ (h i (Nat.le_refl i) (by omega) ▸ hgt)
    · have heq : a i = b i := BitVec.le_antisymm (BitVec.not_lt.mp hgt) (BitVec.not_lt.mp hlt)
      rw [ih (i + 1)]
      refine ⟨fun h q hq hlt => ?_, fun h q hq hlt => h q (by omega) (by omega)⟩
      by_cases hqi : q = i
      · rwa [hqi]
      · exact h q (by omega) (by omega)

def Known (n : Memory) (l : ℕ) (t : ByteTables) : Prop :=
  ∀ q < l, t.byteset (n q) = true ∧ q < t.shift (n q)

theorem Known.step (ht : Known n l t) :
    Known n (l + 1) { byteset := Function.update t.byteset (n l) true
                      shift := Function.update t.shift (n l) (l + 1) } := by
  intro q hq
  by_cases heq : n q = n l
  · rw [heq]
    exact ⟨by simp, by simpa using hq⟩
  · have hql : q < l := by
      by_contra hnot
      exact heq (by rw [show q = l by omega])
    simpa [Function.update_of_ne heq] using ht q hql

theorem fillTables_spec (rounds : ℕ) (hn : Ends n M) (hh : Ends h N) (hlM : l ≤ M)
    (hlN : l ≤ N) (hrounds : N < rounds + l) (ht : Known n l t) :
    ∃ t', fillTables h n rounds l t = some (min M N, t') ∧ Known n (min M N) t' := by
  induction rounds generalizing l t with
  | zero => omega
  | succ rounds ih =>
    rw [fillTables]
    by_cases hend : l = min M N
    · have hzero : ¬ (n l ≠ 0 ∧ h l ≠ 0) := by
        rintro ⟨hnl, hhl⟩
        rcases Nat.le_total M N with hle | hle
        · exact hnl ((show l = M by omega) ▸ hn.terminated)
        · exact hhl ((show l = N by omega) ▸ hh.terminated)
      rw [if_neg hzero, ← hend]
      exact ⟨t, rfl, ht⟩
    · rw [if_pos ⟨hn.letters l (by omega), hh.letters l (by omega)⟩]
      exact ih (by omega) (by omega) (by omega) ht.step

structure Prepared (n : Memory) (x : Needle) : Prop where
  ends : Ends n x.l
  known : Known n x.l x.tables
  critical : Critical n x.l x.split
  split_lt : x.split < x.l
  p_pos : 0 < x.p
  p_le : x.p ≤ x.l
  least : ∀ d, 0 < d → RepeatsAt n x.l x.split d → x.p ≤ d
  periodic : x.mem0 ≠ 0 → x.mem0 + x.p = x.l ∧ PeriodFrom n x.l 0 x.p ∧ x.split ≤ x.p

theorem prepared_needle (hl : 0 < l) (hn : Ends n l) (ht : Known n l t) :
    Prepared n (needle n l t) ∧ (needle n l t).l = l := by
  have hsplit := splitNeedle_spec (n := n) hl
  unfold needle
  generalize splitNeedle n l = parts at hsplit ⊢
  obtain ⟨split, p⟩ := parts
  obtain ⟨hcrit, hlt, hper, hleast, hpos⟩ := hsplit
  have hfront : memcmp n (fun q => n (p + q)) split = 0 ↔ ∀ q < split, n q = n (q + p) := by
    rw [memcmp, memcmpFrom_eq_zero_iff]
    refine ⟨fun h q hq => ?_, fun h q _ hq => ?_⟩
    · rw [h q (Nat.zero_le q) (by omega), Nat.add_comm]
    · rw [h q (by omega), Nat.add_comm]
  dsimp only
  have hle := hleast.1
  by_cases hcmp : memcmp n (fun q => n (p + q)) split = 0
  · rw [if_neg (not_not.mpr hcmp)]
    obtain ⟨hall, hmin⟩ := hcrit.periodic hleast hper (hfront.mp hcmp)
    refine ⟨⟨hn, ht, hcrit, hlt, hpos, ?_, hmin, fun _ => ⟨?_, hall, ?_⟩⟩, rfl⟩
    · show p ≤ l
      omega
    · show l - p + p = l
      omega
    · exact (hcrit p hpos fun q _ _ hql => hall q (Nat.zero_le q) hql).1.le
  · rw [if_pos hcmp]
    have hsplitPos : 0 < split := by
      by_contra hzero
      exact hcmp (hfront.mpr fun q hq => by omega)
    refine ⟨⟨hn, ht, hcrit, hlt, Nat.succ_pos _, ?_, fun d hd hrep => ?_, fun h =>
        absurd rfl h⟩, rfl⟩
    · show max (split - 1) (l - split) + 1 ≤ l
      omega
    · have := hcrit.aperiodic hleast hpos hper (fun h => hcmp (hfront.mpr h)) hd hrep
      show max (split - 1) (l - split) + 1 ≤ d
      omega

end Tables

section Search

variable {h n : Memory} {x : Needle} {a i k l m mem pos rounds z N : ℕ}

/-- A search from `pos` on may remember that the first letters match. -/
def Remembers (h n : Memory) (x : Needle) (pos mem : ℕ) : Prop :=
  mem ≠ 0 → mem = x.mem0 ∧ ∀ q < mem, h (pos + q) = n q

theorem Remembers.zero : Remembers h n x pos 0 := fun h => absurd rfl h

theorem matchRight_spec (rounds : ℕ) (hn : Ends n l) (hk : k ≤ l) (hrounds : l ≤ rounds + k) :
    let e := matchRight h n rounds k
    k ≤ e ∧ e ≤ l ∧ (∀ q, k ≤ q → q < e → h q = n q) ∧ (e < l → h e ≠ n e) := by
  induction rounds generalizing k with
  | zero =>
    rw [matchRight]
    exact ⟨Nat.le_refl k, hk, fun q hq hlt => by omega, fun hlt => by omega⟩
  | succ rounds ih =>
    rw [matchRight]
    by_cases hgo : n k ≠ 0 ∧ n k = h k
    · rw [if_pos hgo]
      have hkl : k ≠ l := fun heq => hgo.1 (heq ▸ hn.terminated)
      obtain ⟨hle, hel, hmatch, hstop⟩ := ih (k := k + 1) (by omega) (by omega)
      refine ⟨by omega, hel, fun q hq hlt => ?_, hstop⟩
      by_cases hqk : q = k
      · exact hqk ▸ hgo.2.symm
      · exact hmatch q (by omega) hlt
    · rw [if_neg hgo]
      exact ⟨Nat.le_refl k, hk, fun q hq hlt => by omega,
        fun hlt heq => hgo ⟨hn.letters k hlt, heq.symm⟩⟩

theorem matchLeft_spec (h n : Memory) (mem k : ℕ) :
    let e := matchLeft h n mem k
    e ≤ k ∧ (∀ q, e ≤ q → q < k → h q = n q) ∧ (mem < e → h (e - 1) ≠ n (e - 1)) := by
  induction k with
  | zero => exact ⟨Nat.le_refl 0, fun q hq hlt => by omega, fun hlt =>
        absurd hlt (Nat.not_lt_zero _)⟩
  | succ k ih =>
    rw [matchLeft]
    by_cases hgo : mem < k + 1 ∧ n k = h k
    · rw [if_pos hgo]
      obtain ⟨hle, hmatch, hstop⟩ := ih
      refine ⟨by omega, fun q hq hlt => ?_, hstop⟩
      by_cases hqk : q = k
      · exact hqk ▸ hgo.2.symm
      · exact hmatch q hq (by omega)
    · rw [if_neg hgo]
      exact ⟨Nat.le_refl _, fun q hq hlt => by omega, fun hlt heq => hgo ⟨hlt, heq.symm⟩⟩

/-- The end of the haystack moves on, or the needle has no place left. -/
theorem extendEnd_spec (a : ℕ) (hh : Ends h N) (hpos : pos ≤ z) (hz : z ≤ N) :
    match extendEnd a h l pos z with
    | none => N < pos + l
    | some z' => pos + l ≤ z' ∧ z' ≤ N := by
  unfold extendEnd
  by_cases hshort : z - pos < l
  · rw [if_pos hshort]
    have hgrow : l ≤ l ||| 63 := Nat.left_le_or
    have hfound := memchr_spec (a + z) (fun q => h (z + q)) 0 (l ||| 63)
    dsimp only
    generalize memchr (a + z) (fun q => h (z + q)) 0 (l ||| 63) = found at hfound ⊢
    cases found with
    | none =>
      refine ⟨by omega, ?_⟩
      by_contra hover
      refine hfound (N - z) (by omega) ?_
      show h (z + (N - z)) = 0
      rw [show z + (N - z) = N by omega]
      exact hh.terminated
    | some i =>
      obtain ⟨-, hzero, hbefore⟩ := hfound
      have hiN : z + i = N := by
        rcases Nat.lt_trichotomy (z + i) N with hlt | heq | hgt
        · exact absurd hzero (hh.letters _ hlt)
        · exact heq
        · refine absurd ?_ (hbefore (N - z) (by omega))
          show h (z + (N - z)) = 0
          rw [show z + (N - z) = N by omega]
          exact hh.terminated
      dsimp only
      by_cases hend : z + i - pos < l
      · rw [if_pos hend]
        show N < pos + l
        omega
      · rw [if_neg hend]
        show pos + l ≤ z + i ∧ z + i ≤ N
        omega
  · rw [if_neg hshort]
    show pos + l ≤ z ∧ z ≤ N
    omega

def Passes (h n : Memory) (l pos pos' : ℕ) : Prop :=
  pos < pos' ∧ pos' ≤ pos + l ∧ ∀ k, pos ≤ k → k < pos' → ¬ Occurs h n l k

/-- The letter at the end of the place where the needle would stand rules places out. -/
theorem Prepared.bad_letter (hx : Prepared n x) (hk : pos ≤ k)
    (hshift : x.tables.byteset (h (pos + (x.l - 1))) = true →
      k + x.tables.shift (h (pos + (x.l - 1))) < pos + x.l) (hkl : k < pos + x.l) :
    ¬ Occurs h n x.l k := by
  intro hocc
  have hlt := hx.split_lt
  have hletter := hocc (pos + (x.l - 1) - k) (by omega)
  rw [show k + (pos + (x.l - 1) - k) = pos + (x.l - 1) by omega] at hletter
  rw [hletter] at hshift
  have hknown := hx.known (pos + (x.l - 1) - k) (by omega)
  have := hshift hknown.1
  omega

theorem Prepared.remembered (hx : Prepared n x) (hmem : Remembers h n x pos mem) :
    mem < x.l ∧ ∀ q < mem, h (pos + q) = n q := by
  have hpos := hx.p_pos
  have hlt := hx.split_lt
  by_cases hzero : mem = 0
  · exact ⟨by omega, fun q hq => by omega⟩
  · obtain ⟨heq, hmatch⟩ := hmem hzero
    have hper := hx.periodic (heq ▸ hzero)
    exact ⟨by omega, hmatch⟩

theorem searchTurn_spec (hx : Prepared n x) (hmem : Remembers h n x pos mem) :
    match searchTurn h n x pos mem with
    | .found => Occurs h n x.l pos
    | .goOn pos' mem' => Passes h n x.l pos pos' ∧ Remembers h n x pos' mem' := by
  have hlt := hx.split_lt
  have hp := hx.p_pos
  have hple := hx.p_le
  obtain ⟨hmemLt, hknown⟩ := hx.remembered hmem
  unfold searchTurn
  dsimp only
  by_cases hset : x.tables.byteset (h (pos + (x.l - 1))) = true
  · rw [if_pos hset]
    by_cases hshift : x.l - x.tables.shift (h (pos + (x.l - 1))) ≠ 0
    · rw [if_pos hshift]
      by_cases hperiodic : x.mem0 ≠ 0 ∧ mem ≠ 0 ∧ x.l - x.tables.shift (h (pos + (x.l - 1))) < x.p
      · -- the letters before the last period are known, so only that period may be passed over
        rw [if_pos hperiodic]
        obtain ⟨hsum, hper, hsplit⟩ := hx.periodic hperiodic.1
        have hmem0 := (hmem hperiodic.2.1).1
        have hlast : h (pos + (x.l - 1)) ≠ n (x.l - 1) := by
          intro heq
          have := (hx.known (x.l - 1) (by omega)).2
          rw [← heq] at this
          omega
        refine ⟨⟨by omega, by omega, fun k hk hkl hocc => ?_⟩, Remembers.zero⟩
        by_cases hfirst : k = pos
        · exact hlast (hfirst ▸ hocc (x.l - 1) (by omega))
        · obtain ⟨d, rfl⟩ := Nat.exists_eq_add_of_le hk
          exact hx.critical.end_shift hper hsplit (fun q hq => hknown q (by omega)) (by omega) hlast
            (by omega) (by omega) hocc
      · rw [if_neg hperiodic]
        exact ⟨⟨by omega, by omega, fun k hk hkl =>
            hx.bad_letter hk (fun _ => by omega) (by omega)⟩,
          Remembers.zero⟩
    · rw [if_neg hshift]
      have hright := matchRight_spec (h := fun q => h (pos + q)) x.l hx.ends
        (k := max x.split mem) (by omega) (by omega)
      generalize matchRight (fun q => h (pos + q)) n x.l (max x.split mem) = e at hright ⊢
      obtain ⟨hke, hel, hmatch, hstop⟩ := hright
      have hall : ∀ q, x.split ≤ q → q < e → h (pos + q) = n q := fun q hq hqe => by
        by_cases hqm : q < mem
        · exact hknown q hqm
        · exact hmatch q (by omega) hqe
      by_cases hend : n e ≠ 0
      · rw [if_pos hend]
        have hel' : e < x.l := by
          by_contra hnot
          exact hend ((show e = x.l by omega) ▸ hx.ends.terminated)
        refine ⟨⟨by omega, by omega, fun k hk hkl hocc => ?_⟩, Remembers.zero⟩
        by_cases hfirst : k = pos
        · exact hstop hel' (hfirst ▸ hocc e hel')
        · obtain ⟨d, rfl⟩ := Nat.exists_eq_add_of_le hk
          exact hx.critical.right_shift hall hel' (hstop hel') (by omega) (by omega) hocc
      · rw [if_neg hend]
        have hel' : e = x.l := by
          by_contra hnot
          exact hend (hx.ends.letters e (by omega))
        subst hel'
        have hleft := matchLeft_spec (fun q => h (pos + q)) n mem x.split
        generalize matchLeft (fun q => h (pos + q)) n mem x.split = e at hleft ⊢
        obtain ⟨hes, hmatch', hstop'⟩ := hleft
        by_cases hfound : e ≤ mem
        · rw [if_pos hfound]
          intro q hq
          by_cases hqm : q < mem
          · exact hknown q hqm
          · by_cases hqs : q < x.split
            · exact hmatch' q (by omega) hqs
            · exact hall q (by omega) hq
        · rw [if_neg hfound]
          refine ⟨⟨by omega, by omega, fun k hk hkl hocc => ?_⟩, fun hmem0 => ⟨rfl, fun q hq => ?_⟩⟩
          · by_cases hfirst : k = pos
            · exact hstop' (by omega) (hfirst ▸ hocc (e - 1) (by omega))
            · obtain ⟨d, rfl⟩ := Nat.exists_eq_add_of_le hk
              exact left_shift hx.least hall (by omega) (by omega) hocc
          · obtain ⟨hsum, hper, hsplit⟩ := hx.periodic hmem0
            rw [Nat.add_assoc, Nat.add_comm x.p q, hall (q + x.p) (by omega) (by omega)]
            exact (hper q (Nat.zero_le q) (by omega)).symm
  · rw [if_neg hset]
    exact ⟨⟨by omega, by omega, fun k hk hkl => hx.bad_letter hk (fun h => absurd h hset) hkl⟩,
      Remembers.zero⟩

def FirstAt (h n : Memory) (l N : ℕ) : Option ℕ → Prop
  | some k => k + l ≤ N ∧ Occurs h n l k ∧ ∀ j < k, ¬ Occurs h n l j
  | none => ∀ j, j + l ≤ N → ¬ Occurs h n l j

theorem searchLoop_spec (a rounds : ℕ) (hx : Prepared n x) (hh : Ends h N)
    (hmem : Remembers h n x pos mem) (hpos : pos ≤ z) (hz : z ≤ N)
    (hbefore : ∀ j < pos, ¬ Occurs h n x.l j) (hrounds : N < rounds + pos) :
    ∃ r, searchLoop a h n x rounds pos mem z = some r ∧ FirstAt h n x.l N r := by
  induction rounds generalizing pos mem z with
  | zero => omega
  | succ rounds ih =>
    rw [searchLoop]
    have hextend := extendEnd_spec (l := x.l) a hh hpos hz
    generalize extendEnd a h x.l pos z = next at hextend ⊢
    cases next with
    | none =>
      have hend : N < pos + x.l := hextend
      exact ⟨none, rfl, fun j hj => hbefore j (by omega)⟩
    | some z' =>
      obtain ⟨hroom, hz'⟩ := hextend
      have hturn := searchTurn_spec hx hmem
      dsimp only
      generalize searchTurn h n x pos mem = turn at hturn ⊢
      cases turn with
      | found => exact ⟨some pos, rfl, by omega, hturn, hbefore⟩
      | goOn pos' mem' =>
        obtain ⟨⟨hgt, hle, hpassed⟩, hmem'⟩ := hturn
        refine ih hmem' (by omega) hz' (fun j hj => ?_) (by omega)
        by_cases hjp : j < pos
        · exact hbefore j hjp
        · exact hpassed j (by omega) hj

/-- The two-way search finds the first place of the needle. -/
theorem strstrTwoway_spec (a : ℕ) (hl : 0 < l) (hn : Ends n l) (hh : Ends h N)
    (hrounds : N < rounds) :
    ∃ r, strstrTwoway a h n rounds = some r ∧ FirstAt h n l N r := by
  obtain ⟨t, hfill, ht⟩ := fillTables_spec rounds hn hh (Nat.zero_le l) (Nat.zero_le N)
    (by omega) (t := { byteset := fun _ => false, shift := fun _ => 0 }) fun q hq => by omega
  rw [strstrTwoway, hfill]
  show ∃ r, (if n (min l N) ≠ 0 then some none
    else searchLoop a h n (needle n (min l N) t) rounds 0 0 0) = some r ∧ FirstAt h n l N r
  by_cases hshort : N < l
  · rw [if_pos (hn.letters _ (by omega))]
    exact ⟨none, rfl, fun j hj => by omega⟩
  · have hmin : min l N = l := by omega
    rw [hmin] at ht ⊢
    rw [if_neg (not_not.mpr hn.terminated)]
    obtain ⟨hx, hlen⟩ := prepared_needle hl hn ht
    have hloop := searchLoop_spec a rounds hx hh Remembers.zero (Nat.le_refl 0)
      (Nat.zero_le N) (fun j hj => by omega) (by omega)
    rwa [hlen] at hloop

end Search
end ReduceOS.TwoWay
