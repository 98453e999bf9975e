import ReduceOS.FirstDifference
import ReduceOS.Numerals

/-!
`strcasecmp` and `strncasecmp` find the place where two strings differ but for the case of letters,
and there compare the characters as they are. The order that they are for is the one of the
strings in lower case.
-/
namespace ReduceOS.CaseOrder

open FirstDifference
open CString (Chars deref difference)
open Numerals (tolower)

section Source

def strcasecmp : Chars → Chars → ℤ
  | c :: s1, d :: s2 =>
    if c ≠ 0 ∧ d ≠ 0 ∧ tolower c = tolower d then strcasecmp s1 s2
    else difference (c :: s1) (d :: s2)
  | s1, s2 => difference s1 s2

def strncasecmpLoop : ℕ → Chars → Chars → ℤ
  | 0, s1, s2 => difference s1 s2
  | n + 1, s1, s2 =>
    if tolower (deref s1) = tolower (deref s2) then
      if n = 0 ∨ deref s1 = 0 then difference s1 s2 else strncasecmpLoop n s1.tail s2.tail
    else difference s1 s2

def strncasecmp (s1 s2 : Chars) (n : ℕ) : ℤ := if n = 0 then 0 else strncasecmpLoop n s1 s2

end Source

def fold (c : BitVec 8) : ℕ := if 65 ≤ c.toNat ∧ c.toNat ≤ 90 then c.toNat + 32 else c.toNat

def lower (s : Chars) : List ℕ := s.map fold

def IsLetter (m : ℕ) : Prop := 97 ≤ m ∧ m ≤ 122

instance (m : ℕ) : Decidable (IsLetter m) := inferInstanceAs (Decidable (_ ∧ _))

def SignOf (r : ℤ) (x y : List ℕ) : Prop := (r < 0 ↔ x < y) ∧ (0 < r ↔ y < x)

structure Compares (n : ℕ) (a b : Chars) : Prop where
  zero : strncasecmp a b n = 0 ↔ (lower a).take n = (lower b).take n
  bounded : SignOf (strncasecmp a b n) ((lower a).take n) ((lower b).take n)
  whole : SignOf (strcasecmp a b) (lower a) (lower b)
  antisymm : (strncasecmp b a n).sign = -(strncasecmp a b n).sign ∧
    (strcasecmp b a).sign = -(strcasecmp a b).sign
  caseless : ∀ a' b', lower a' = lower a → lower b' = lower b →
    (strncasecmp a' b' n).sign = (strncasecmp a b n).sign ∧
      (strcasecmp a' b').sign = (strcasecmp a b).sign
  agrees : a.length < n → b.length < n → strncasecmp a b n = strcasecmp a b

/-- The functions order three strings without regard to case. -/
structure Orders (n : ℕ) (a b c : Chars) : Prop where
  left : Compares n a b
  right : Compares n b c
  outer : Compares n a c
  trans : strncasecmp a b n ≤ 0 → strncasecmp b c n ≤ 0 → strncasecmp a c n ≤ 0
  trans' : strcasecmp a b ≤ 0 → strcasecmp b c ≤ 0 → strcasecmp a c ≤ 0

/-- Where the strings differ first but for case, the greater character is no letter or the smaller
one comes before all letters; and where the first `n` characters are the same but for case, the
last of them is no letter. -/
structure Tells (n : ℕ) (a b : Chars) : Prop where
  differs : ∀ k, FirstDiffers 0 (lower a) (lower b) k →
    ¬ IsLetter (max ((lower a).getD k 0) ((lower b).getD k 0)) ∨
      min ((lower a).getD k 0) ((lower b).getD k 0) < 65
  last : n ≠ 0 → n ≤ a.length → (lower a).take n = (lower b).take n →
    ¬ IsLetter ((lower a).getD (n - 1) 0)

section Characters

variable {a b : Chars} {c d : BitVec 8} {n k : ℕ}

theorem tolower_eq_iff : tolower c = tolower d ↔ fold c = fold d := by
  have hc := BitVec.toInt_eq_toNat_cond c
  have hd := BitVec.toInt_eq_toNat_cond d
  have hltc := c.isLt
  have hltd := d.isLt
  rw [tolower, tolower, fold, fold]
  split_ifs at hc hd ⊢ <;> omega

theorem fold_eq_zero_iff : fold c = 0 ↔ c = 0 := by
  revert c
  decide

theorem getD_lower (s : Chars) (k : ℕ) : (lower s).getD k 0 = fold (deref (s.drop k)) := by
  induction s generalizing k with
  | nil => simp [lower, deref, fold]
  | cons c s ih =>
    cases k with
    | zero => rfl
    | succ k => exact ih k

theorem lower_pos (h : 0 ∉ a) : ∀ m ∈ lower a, 0 < m := by
  intro m hm
  obtain ⟨c, hc, rfl⟩ := List.mem_map.mp hm
  refine Nat.pos_of_ne_zero fun hzero => ?_
  rw [fold_eq_zero_iff] at hzero
  exact h (hzero ▸ hc)

theorem not_mem_of_lower_eq {a' : Chars} (h : 0 ∉ a) (heq : lower a' = lower a) : 0 ∉ a' := by
  intro hmem
  have hzero : (0 : ℕ) ∈ lower a := heq ▸ List.mem_map.mpr ⟨0, hmem, rfl⟩
  exact Nat.lt_irrefl 0 (lower_pos h 0 hzero)

theorem difference_drop (a b : Chars) (k : ℕ) :
    difference (a.drop k) (b.drop k) = (deref (a.drop k)).toNat - (deref (b.drop k)).toNat := rfl

/-- The first difference is at the beginning, or behind a pair of characters that are the same but
for case. -/
theorem firstDiffers_induction {motive : Chars → Chars → ℕ → Prop}
    (here : ∀ a b, fold (deref a) ≠ fold (deref b) → motive a b 0)
    (behind : ∀ c d a b k, c ≠ 0 → d ≠ 0 → fold c = fold d → motive a b k →
      motive (c :: a) (d :: b) (k + 1))
    (ha : 0 ∉ a) (hb : 0 ∉ b) (h : FirstDiffers 0 (lower a) (lower b) k) : motive a b k := by
  induction a generalizing b k with
  | nil =>
    cases b with
    | nil => exact absurd h not_firstDiffers_nil
    | cons d b =>
      have hd := lower_pos hb (fold d) List.mem_cons_self
      obtain rfl := (firstDiffers_nil_cons hd.ne).mp h
      exact here [] (d :: b) hd.ne
  | cons c a ih =>
    cases b with
    | nil =>
      have hc := lower_pos ha (fold c) List.mem_cons_self
      obtain rfl := (firstDiffers_nil_cons hc.ne).mp h.symm
      exact here (c :: a) [] hc.ne'
    | cons d b =>
      by_cases hcd : fold c = fold d
      · cases k with
        | zero => exact absurd hcd h.2
        | succ k =>
          simp only [List.mem_cons, not_or] at ha hb
          have hrest : FirstDiffers 0 (lower a) (lower b) k := by
            rw [lower, lower, List.map_cons, List.map_cons, hcd] at h
            exact firstDiffers_cons_iff.mp h
          exact behind c d a b k (Ne.symm ha.1) (Ne.symm hb.1) hcd (ih ha.2 hb.2 hrest)
      · obtain rfl := (firstDiffers_cons_of_ne hcd).mp h
        exact here (c :: a) (d :: b) hcd

theorem strcasecmp_of_ne (h : fold (deref a) ≠ fold (deref b)) :
    strcasecmp a b = difference a b := by
  cases a with
  | nil => rfl
  | cons c a =>
    cases b with
    | nil => rfl
    | cons d b => rw [strcasecmp, if_neg fun heq => h (tolower_eq_iff.mp heq.2.2)]

/-- `strcasecmp` stops where the strings differ first. -/
theorem strcasecmp_of_firstDiffers (ha : 0 ∉ a) (hb : 0 ∉ b)
    (h : FirstDiffers 0 (lower a) (lower b) k) :
    strcasecmp a b = difference (a.drop k) (b.drop k) := by
  refine firstDiffers_induction
    (motive := fun a b k => strcasecmp a b = difference (a.drop k) (b.drop k)) ?_ ?_ ha hb h
  · intro a b hne
    exact strcasecmp_of_ne hne
  · intro c d a b k hc hd hcd ih
    rw [strcasecmp, if_pos ⟨hc, hd, tolower_eq_iff.mpr hcd⟩, ih]
    rfl

theorem strcasecmp_of_lower_eq (ha : 0 ∉ a) (hb : 0 ∉ b) (h : lower a = lower b) :
    strcasecmp a b = 0 := by
  induction a generalizing b with
  | nil =>
    cases b with
    | nil => rfl
    | cons d b => exact absurd h.symm (List.cons_ne_nil _ _)
  | cons c a ih =>
    cases b with
    | nil => exact absurd h (List.cons_ne_nil _ _)
    | cons d b =>
      obtain ⟨hcd, hrest⟩ := List.cons.inj h
      simp only [List.mem_cons, not_or] at ha hb
      rw [strcasecmp, if_pos ⟨Ne.symm ha.1, Ne.symm hb.1, tolower_eq_iff.mpr hcd⟩]
      exact ih ha.2 hb.2 hrest

theorem strncasecmpLoop_of_ne (h : fold (deref a) ≠ fold (deref b)) (n : ℕ) :
    strncasecmpLoop n a b = difference a b := by
  cases n with
  | zero => rfl
  | succ n => rw [strncasecmpLoop, if_neg fun heq => h (tolower_eq_iff.mp heq)]

/-- Over characters that are the same but for case the loop goes on, if it may. -/
theorem strncasecmpLoop_cons (hc : c ≠ 0) (hcd : fold c = fold d) (n : ℕ) :
    strncasecmpLoop (n + 1) (c :: a) (d :: b) =
      if n = 0 then difference (c :: a) (d :: b) else strncasecmpLoop n a b := by
  have htolower : tolower (deref (c :: a)) = tolower (deref (d :: b)) := tolower_eq_iff.mpr hcd
  have hstop : n = 0 ∨ deref (c :: a) = 0 ↔ n = 0 := or_iff_left hc
  rw [strncasecmpLoop, if_pos htolower, if_congr hstop rfl rfl]
  rfl

/-- `strncasecmp` stops where the strings differ first, if that is in its reach. -/
theorem strncasecmpLoop_of_firstDiffers (ha : 0 ∉ a) (hb : 0 ∉ b)
    (h : FirstDiffers 0 (lower a) (lower b) k) (hk : k < n) :
    strncasecmpLoop n a b = difference (a.drop k) (b.drop k) := by
  refine firstDiffers_induction (motive := fun a b k => ∀ n, k < n →
    strncasecmpLoop n a b = difference (a.drop k) (b.drop k)) ?_ ?_ ha hb h n hk
  · intro a b hne n _
    exact strncasecmpLoop_of_ne hne n
  · intro c d a b k hc _ hcd ih n hk
    obtain ⟨m, rfl⟩ := Nat.exists_eq_add_one_of_ne_zero (by omega : n ≠ 0)
    rw [strncasecmpLoop_cons hc hcd, if_neg (by omega), ih m (by omega)]
    rfl

/-- Where all that it looks at is the same but for case, it compares the last characters of that,
or the ends of the strings. -/
theorem strncasecmpLoop_of_take_eq (ha : 0 ∉ a)
    (h : (lower a).take (n + 1) = (lower b).take (n + 1)) :
    strncasecmpLoop (n + 1) a b =
      if n < a.length then difference (a.drop n) (b.drop n) else 0 := by
  induction a generalizing b n with
  | nil =>
    cases b with
    | nil => simp [strncasecmpLoop, difference, deref]
    | cons d b => exact absurd h.symm (by simp [lower])
  | cons c a ih =>
    cases b with
    | nil => exact absurd h (by simp [lower])
    | cons d b =>
      rw [lower, lower, List.map_cons, List.map_cons, List.take_succ_cons,
        List.take_succ_cons] at h
      obtain ⟨hcd, hrest⟩ := List.cons.inj h
      simp only [List.mem_cons, not_or] at ha
      rw [strncasecmpLoop_cons (Ne.symm ha.1) hcd]
      cases n with
      | zero => rfl
      | succ n =>
        have hlength : n + 1 < (c :: a).length ↔ n < a.length := by simp
        rw [if_neg (Nat.succ_ne_zero n), ih ha.2 hrest, if_congr hlength rfl rfl]
        rfl

end Characters

section Signs

variable {r r' t : ℤ} {x y z : List ℕ}

theorem SignOf.eq_zero_iff (h : SignOf r x y) : r = 0 ↔ x = y := by
  obtain ⟨hlt, hgt⟩ := h
  constructor
  · rintro rfl
    have hle : ¬ x < y := fun hxy => absurd (hlt.mpr hxy) (Int.lt_irrefl 0)
    have hge : ¬ y < x := fun hyx => absurd (hgt.mpr hyx) (Int.lt_irrefl 0)
    exact le_antisymm (not_lt.mp hge) (not_lt.mp hle)
  · rintro rfl
    have hneg : ¬ r < 0 := fun h => lt_irrefl x (hlt.mp h)
    have hpos : ¬ 0 < r := fun h => lt_irrefl x (hgt.mp h)
    omega

theorem SignOf.nonpos_iff (h : SignOf r x y) : r ≤ 0 ↔ x ≤ y := by
  have hnot : r ≤ 0 ↔ ¬ 0 < r := by omega
  rw [hnot, h.2, not_lt]

theorem SignOf.sign_eq (h : SignOf r x y) (h' : SignOf r' x y) : r.sign = r'.sign := by
  have hneg : r < 0 ↔ r' < 0 := h.1.trans h'.1.symm
  have hpos : 0 < r ↔ 0 < r' := h.2.trans h'.2.symm
  obtain hr | rfl | hr : r < 0 ∨ r = 0 ∨ 0 < r := by omega
  · rw [Int.sign_eq_neg_one_of_neg hr, Int.sign_eq_neg_one_of_neg (hneg.mp hr)]
  · have hzero : r' = 0 := by omega
    rw [hzero]
  · rw [Int.sign_eq_one_of_pos hr, Int.sign_eq_one_of_pos (hpos.mp hr)]

theorem SignOf.swap (h : SignOf r x y) : SignOf (-r) y x := by
  obtain ⟨hlt, hgt⟩ := h
  exact ⟨by rw [← hgt]; omega, by rw [← hlt]; omega⟩

theorem SignOf.trans (hxy : SignOf r x y) (hyz : SignOf r' y z) (hxz : SignOf t x z) (hr : r ≤ 0)
    (hr' : r' ≤ 0) : t ≤ 0 :=
  hxz.nonpos_iff.mpr ((hxy.nonpos_iff.mp hr).trans (hyz.nonpos_iff.mp hr'))

theorem signOf_of_eq (h : x = y) : SignOf 0 x y := by
  subst h
  exact ⟨iff_of_false (Int.lt_irrefl 0) (lt_irrefl x),
    iff_of_false (Int.lt_irrefl 0) (lt_irrefl x)⟩

end Signs

section Pairs

variable {a b a' b' : Chars} {c d : BitVec 8} {n k : ℕ}

/-- Where case does not count, characters are ordered as without it. -/
theorem lt_iff_fold_lt (hne : fold c ≠ fold d)
    (h : ¬ IsLetter (max (fold c) (fold d)) ∨ min (fold c) (fold d) < 65) :
    c.toNat < d.toNat ↔ fold c < fold d := by
  unfold IsLetter at h
  unfold fold at h hne ⊢
  split_ifs at h hne ⊢ <;> omega

/-- The characters at the first difference decide, if case does not count there. -/
theorem signOf_difference (ha : 0 ∉ a) (hb : 0 ∉ b) (hk : FirstDiffers 0 (lower a) (lower b) k)
    (h : ¬ IsLetter (max ((lower a).getD k 0) ((lower b).getD k 0)) ∨
      min ((lower a).getD k 0) ((lower b).getD k 0) < 65) :
    SignOf (difference (a.drop k) (b.drop k)) (lower a) (lower b) := by
  have hx := lower_pos ha
  have hy := lower_pos hb
  have hne := hk.2
  rw [getD_lower, getD_lower] at h hne
  have hlt := lt_iff_fold_lt hne h
  rw [max_comm, min_comm] at h
  have hgt := lt_iff_fold_lt hne.symm h
  rw [difference_drop]
  constructor
  · rw [hk.lt_iff hx hy, getD_lower, getD_lower, ← hlt]
    omega
  · rw [hk.symm.lt_iff hy hx, getD_lower, getD_lower, ← hgt]
    omega

theorem signOf_take {r : ℤ} {x y : List ℕ} (hx : ∀ m ∈ x, 0 < m) (hy : ∀ m ∈ y, 0 < m)
    (hk : FirstDiffers 0 x y k) (hn : k < n) (h : SignOf r x y) :
    SignOf r (x.take n) (y.take n) := by
  have hx' : ∀ m ∈ x.take n, 0 < m := fun m hm => hx m (List.mem_of_mem_take hm)
  have hy' : ∀ m ∈ y.take n, 0 < m := fun m hm => hy m (List.mem_of_mem_take hm)
  have hgetD : ∀ z : List ℕ, (z.take n).getD k 0 = z.getD k 0 := by
    intro z
    simp [List.getD_eq_getElem?_getD, hn]
  have hlt : x.take n < y.take n ↔ x < y := by
    rw [(hk.take hn).lt_iff hx' hy', hk.lt_iff hx hy, hgetD, hgetD]
  have hgt : y.take n < x.take n ↔ y < x := by
    rw [(hk.symm.take hn).lt_iff hy' hx', hk.symm.lt_iff hy hx, hgetD, hgetD]
  exact ⟨h.1.trans hlt.symm, h.2.trans hgt.symm⟩

theorem length_lower (s : Chars) : (lower s).length = s.length := List.length_map _

theorem Tells.whole (h : Tells n a b) (ha : 0 ∉ a) (hb : 0 ∉ b) :
    SignOf (strcasecmp a b) (lower a) (lower b) := by
  by_cases heq : lower a = lower b
  · rw [strcasecmp_of_lower_eq ha hb heq]
    exact signOf_of_eq heq
  · obtain ⟨k, hk⟩ := exists_firstDiffers (lower_pos ha) (lower_pos hb) heq
    rw [strcasecmp_of_firstDiffers ha hb hk]
    exact signOf_difference ha hb hk (h.differs k hk)

theorem getD_eq_of_take_eq {x y : List ℕ} (h : x.take (n + 1) = y.take (n + 1)) :
    x.getD n 0 = y.getD n 0 := by
  have hget := congrArg (·.getD n 0) h
  simpa [List.getD_eq_getElem?_getD] using hget

theorem eq_of_fold_eq (hcd : fold c = fold d) (h : ¬ IsLetter (fold c)) : c.toNat = d.toNat := by
  unfold IsLetter at h
  unfold fold at h hcd
  split_ifs at h hcd <;> omega

theorem Tells.bounded (h : Tells n a b) (ha : 0 ∉ a) (hb : 0 ∉ b) :
    SignOf (strncasecmp a b n) ((lower a).take n) ((lower b).take n) := by
  cases n with
  | zero => exact signOf_of_eq rfl
  | succ n =>
    rw [strncasecmp, if_neg (Nat.succ_ne_zero n)]
    by_cases heq : (lower a).take (n + 1) = (lower b).take (n + 1)
    · have hsame := getD_eq_of_take_eq heq
      rw [strncasecmpLoop_of_take_eq ha heq]
      split_ifs with hlength
      · have hletter := h.last (Nat.succ_ne_zero n) hlength heq
        rw [Nat.add_sub_cancel] at hletter
        rw [getD_lower] at hletter
        rw [getD_lower, getD_lower] at hsame
        rw [difference_drop, eq_of_fold_eq hsame hletter, Int.sub_self]
        exact signOf_of_eq heq
      · exact signOf_of_eq heq
    · have hne : lower a ≠ lower b := fun hsame => heq (congrArg _ hsame)
      obtain ⟨k, hk⟩ := exists_firstDiffers (lower_pos ha) (lower_pos hb) hne
      have hless : k < n + 1 := by
        by_contra hge
        exact heq (hk.take_eq (Nat.le_of_not_lt hge))
      rw [strncasecmpLoop_of_firstDiffers ha hb hk hless]
      exact signOf_take (lower_pos ha) (lower_pos hb) hk hless
        (signOf_difference ha hb hk (h.differs k hk))

theorem Tells.congr (h : Tells n a b) (ha : lower a' = lower a) (hb : lower b' = lower b) :
    Tells n a' b' := by
  have hlength : a'.length = a.length := by rw [← length_lower, ha, length_lower]
  refine ⟨?_, ?_⟩
  · rw [ha, hb]
    exact h.differs
  · rw [ha, hb, hlength]
    exact h.last

theorem Tells.symm (h : Tells n a b) : Tells n b a := by
  refine ⟨fun k hk => ?_, fun hn hlength heq => ?_⟩
  · rw [max_comm, min_comm]
    exact h.differs k hk.symm
  · have hlengths := congrArg List.length heq
    rw [List.length_take, List.length_take, length_lower, length_lower] at hlengths
    obtain ⟨m, rfl⟩ := Nat.exists_eq_add_one_of_ne_zero hn
    rw [Nat.add_sub_cancel, getD_eq_of_take_eq heq]
    exact h.last hn (by omega) heq.symm

theorem strncasecmp_eq_strcasecmp (ha : 0 ∉ a) (hb : 0 ∉ b) (han : a.length < n)
    (hbn : b.length < n) : strncasecmp a b n = strcasecmp a b := by
  have hn : n ≠ 0 := by omega
  rw [strncasecmp, if_neg hn]
  by_cases heq : lower a = lower b
  · obtain ⟨m, rfl⟩ := Nat.exists_eq_add_one_of_ne_zero hn
    rw [strcasecmp_of_lower_eq ha hb heq, strncasecmpLoop_of_take_eq ha (congrArg _ heq),
      if_neg (by omega)]
  · obtain ⟨k, hk⟩ := exists_firstDiffers (lower_pos ha) (lower_pos hb) heq
    have hless : k < n := by
      by_contra hge
      have htake := hk.take_eq (Nat.le_of_not_lt hge)
      rw [List.take_of_length_le (by rw [length_lower]; omega),
        List.take_of_length_le (by rw [length_lower]; omega)] at htake
      exact heq htake
    rw [strcasecmp_of_firstDiffers ha hb hk, strncasecmpLoop_of_firstDiffers ha hb hk hless]

theorem Tells.compares (h : Tells n a b) (ha : 0 ∉ a) (hb : 0 ∉ b) : Compares n a b := by
  have hbounded := h.bounded ha hb
  have hwhole := h.whole ha hb
  refine ⟨hbounded.eq_zero_iff, hbounded, hwhole, ⟨?_, ?_⟩, ?_, ?_⟩
  · rw [← Int.sign_neg]
    exact (h.symm.bounded hb ha).sign_eq hbounded.swap
  · rw [← Int.sign_neg]
    exact (h.symm.whole hb ha).sign_eq hwhole.swap
  · intro a' b' ha' hb'
    have h' := h.congr ha' hb'
    have hbounded' := h'.bounded (not_mem_of_lower_eq ha ha') (not_mem_of_lower_eq hb hb')
    have hwhole' := h'.whole (not_mem_of_lower_eq ha ha') (not_mem_of_lower_eq hb hb')
    rw [ha', hb'] at hbounded' hwhole'
    exact ⟨hbounded'.sign_eq hbounded, hwhole'.sign_eq hwhole⟩
  · exact strncasecmp_eq_strcasecmp ha hb

end Pairs

section Variants

variable {a b : Chars} {c d : BitVec 8} {n k : ℕ}

def capital (c : BitVec 8) : BitVec 8 := if 97 ≤ c.toNat ∧ c.toNat ≤ 122 then c - 32 else c

def small (c : BitVec 8) : BitVec 8 := if 65 ≤ c.toNat ∧ c.toNat ≤ 90 then c + 32 else c

theorem fold_capital (c : BitVec 8) : fold (capital c) = fold c := by
  revert c
  decide

theorem fold_small (c : BitVec 8) : fold (small c) = fold c := by
  revert c
  decide

theorem toNat_small (c : BitVec 8) : (small c).toNat = fold c := by
  revert c
  decide

theorem toNat_capital : ∀ c : BitVec 8, 97 ≤ fold c ∧ fold c ≤ 122 →
    (capital c).toNat + 32 = fold c := by
  decide

/-- A letter in upper case comes before all that does not come before the letters. -/
theorem capital_lt_small (hc : IsLetter (fold c)) (hd : 65 ≤ fold d) :
    (capital c).toNat < (small d).toNat := by
  have hcapital := toNat_capital c hc
  have hother : fold d < 65 ∨ 90 < fold d := by
    unfold fold
    split_ifs <;> omega
  obtain ⟨hlow, hhigh⟩ := hc
  rw [toNat_small]
  omega

theorem lower_map {f : BitVec 8 → BitVec 8} (hf : ∀ c, fold (f c) = fold c) (s : Chars) :
    lower (s.map f) = lower s := by
  rw [lower, lower, List.map_map]
  exact List.map_congr_left fun c _ => hf c

theorem deref_map_drop {f : BitVec 8 → BitVec 8} (hf : f 0 = 0) (s : Chars) (k : ℕ) :
    deref ((s.map f).drop k) = f (deref (s.drop k)) := by
  rw [← List.map_drop]
  cases s.drop k with
  | nil => exact hf.symm
  | cons c s => rfl

/-- Where the signs are right in every case, case does not count where the strings differ. -/
theorem Compares.differs (h : Compares n a b) (ha : 0 ∉ a) (hb : 0 ∉ b)
    (hk : FirstDiffers 0 (lower a) (lower b) k) :
    ¬ IsLetter (max ((lower a).getD k 0) ((lower b).getD k 0)) ∨
      min ((lower a).getD k 0) ((lower b).getD k 0) < 65 := by
  by_contra hnot
  obtain ⟨hletter, hlow⟩ := not_or.mp hnot
  have hletter := not_not.mp hletter
  have hlow := Nat.le_of_not_lt hlow
  have hx := lower_pos ha
  have hy := lower_pos hb
  have hvariant : ∀ f g : BitVec 8 → BitVec 8, (∀ c, fold (f c) = fold c) →
      (∀ c, fold (g c) = fold c) → f 0 = 0 → g 0 = 0 →
      ((f (deref (a.drop k))).toNat - (g (deref (b.drop k))).toNat : ℤ).sign =
        (strcasecmp a b).sign := by
    intro f g hf hg hf0 hg0
    have ha' := lower_map hf a
    have hb' := lower_map hg b
    have hsign := (h.caseless _ _ ha' hb').2
    rw [strcasecmp_of_firstDiffers (not_mem_of_lower_eq ha ha') (not_mem_of_lower_eq hb hb')
      (by rwa [ha', hb']), difference_drop, deref_map_drop hf0, deref_map_drop hg0] at hsign
    exact hsign
  obtain hlt | hgt := Nat.lt_or_gt_of_ne hk.2
  · have hneg := h.whole.1.mpr ((hk.lt_iff hx hy).mpr hlt)
    rw [Nat.max_eq_right hlt.le] at hletter
    rw [Nat.min_eq_left hlt.le] at hlow
    rw [getD_lower] at hletter hlow
    have hchars := capital_lt_small hletter hlow
    have hsign := hvariant small capital fold_small fold_capital rfl rfl
    rw [Int.sign_eq_neg_one_of_neg hneg, Int.sign_eq_one_of_pos (by omega)] at hsign
    exact absurd hsign (by decide)
  · have hpos := h.whole.2.mpr ((hk.symm.lt_iff hy hx).mpr hgt)
    rw [Nat.max_eq_left hgt.le] at hletter
    rw [Nat.min_eq_right hgt.le] at hlow
    rw [getD_lower] at hletter hlow
    have hchars := capital_lt_small hletter hlow
    have hsign := hvariant capital small fold_capital fold_small rfl rfl
    rw [Int.sign_eq_one_of_pos hpos, Int.sign_eq_neg_one_of_neg (by omega)] at hsign
    exact absurd hsign (by decide)

theorem Compares.last (h : Compares n a b) (ha : 0 ∉ a) (hn : n ≠ 0) (hlength : n ≤ a.length)
    (heq : (lower a).take n = (lower b).take n) : ¬ IsLetter ((lower a).getD (n - 1) 0) := by
  obtain ⟨m, rfl⟩ := Nat.exists_eq_add_one_of_ne_zero hn
  intro hletter
  have ha' := lower_map fold_capital a
  have hb' := lower_map fold_small b
  have hsame := getD_eq_of_take_eq heq
  have hsign := (h.caseless _ _ ha' hb').1
  rw [Nat.add_sub_cancel, getD_lower] at hletter
  rw [getD_lower, getD_lower] at hsame
  rw [h.zero.mpr heq, strncasecmp, if_neg hn,
    strncasecmpLoop_of_take_eq (not_mem_of_lower_eq ha ha') (by rwa [ha', hb']),
    if_pos (by rwa [List.length_map]), difference_drop, deref_map_drop rfl, deref_map_drop rfl,
    toNat_small, ← hsame, ← toNat_capital _ hletter] at hsign
  have hneg := Int.sign_eq_zero_iff_zero.mp hsign
  omega

theorem compares_iff (ha : 0 ∉ a) (hb : 0 ∉ b) : Compares n a b ↔ Tells n a b :=
  ⟨fun h => ⟨fun _ hk => h.differs ha hb hk, h.last ha⟩, fun h => h.compares ha hb⟩

end Variants

section Orders

variable {a b c : Chars} {n : ℕ}

/-- The functions order strings without regard to case exactly if they can be told apart where case
does not count. -/
theorem orders_iff (ha : 0 ∉ a) (hb : 0 ∉ b) (hc : 0 ∉ c) (n : ℕ) :
    Orders n a b c ↔ Tells n a b ∧ Tells n b c ∧ Tells n a c := by
  constructor
  · intro h
    exact ⟨(compares_iff ha hb).mp h.left, (compares_iff hb hc).mp h.right,
      (compares_iff ha hc).mp h.outer⟩
  · rintro ⟨hab, hbc, hac⟩
    have left := hab.compares ha hb
    have right := hbc.compares hb hc
    have outer := hac.compares ha hc
    exact ⟨left, right, outer, left.bounded.trans right.bounded outer.bounded,
      left.whole.trans right.whole outer.whole⟩

/-- The place where two strings differ first is all that has to be looked at. -/
theorem tells_of_firstDiffers {k : ℕ} (hk : FirstDiffers 0 (lower a) (lower b) k)
    (h : ¬ IsLetter (max ((lower a).getD k 0) ((lower b).getD k 0)) ∨
      min ((lower a).getD k 0) ((lower b).getD k 0) < 65) (hn : k < n) : Tells n a b := by
  refine ⟨fun l hl => ?_, fun _ _ heq => absurd heq (hk.take hn).ne⟩
  obtain rfl := hk.unique hl
  exact h

/-- `A1`, `a2` and `a3` differ in a digit. -/
theorem orders_digits : Orders 9 [65, 49] [97, 50] [97, 51] := by
  refine (orders_iff (by decide) (by decide) (by decide) 9).mpr ⟨?_, ?_, ?_⟩
  · exact tells_of_firstDiffers (k := 1) ⟨rfl, by decide⟩ (by decide) (by decide)
  · exact tells_of_firstDiffers (k := 1) ⟨rfl, by decide⟩ (by decide) (by decide)
  · exact tells_of_firstDiffers (k := 1) ⟨rfl, by decide⟩ (by decide) (by decide)

/-- Of `a` and `A` the one character that is looked at differs. -/
theorem same_letter_not_equal : ¬ ∀ n a b c, 0 ∉ a → 0 ∉ b → 0 ∉ c → Orders n a b c := by
  intro h
  have horders := h 1 [97] [65] [97] (by decide) (by decide) (by decide)
  exact absurd (horders.left.zero.mpr rfl) (by decide)

end Orders

end ReduceOS.CaseOrder
