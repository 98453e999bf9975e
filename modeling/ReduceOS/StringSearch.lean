import ReduceOS.CString
import ReduceOS.TwoWay

/-!
`strstr` gives the first place where a string has another in it, by whichever of its ways it looks
for it: `CString.strstr` says what it is to find, `Strstr.strstr` is the code.
-/
namespace ReduceOS.StringSearch

open CriticalFactorization CString Strstr TwoWay

section Short

variable {w : ℕ} {a b h n : Memory} {window : Memory → BitVec w}
  {next : BitVec w → BitVec 8 → BitVec w} {back j rounds N : ℕ}

/-- A number holds the `back + 1` characters of a window, and the next one can be rolled in. -/
structure Rolls (back : ℕ) (window : Memory → BitVec w) (next : BitVec w → BitVec 8 → BitVec w) :
    Prop where
  congr : ∀ {a b}, (∀ q < back + 1, a q = b q) → window a = window b
  inj : ∀ {a b}, window a = window b → ∀ q < back + 1, a q = b q
  next : ∀ s : Memory, next (window s) (s (back + 1)) = window fun q => s (q + 1)

theorem rolls_window2b : Rolls 1 window2b fun hw c => hw <<< 8 ||| c.setWidth 16 where
  congr hab := by rw [window2b, window2b, hab 0 (by decide), hab 1 (by decide)]
  inj heq q hq := by
    refine BitVec.eq_of_getLsbD_eq fun i hi => ?_
    have hbit := congrArg (BitVec.getLsbD · (8 * (1 - q) + i)) heq
    interval_cases q <;> interval_cases i <;> simpa [window2b] using hbit
  next s := by
    ext i hi
    interval_cases i <;> simp [window2b]

theorem rolls_window3b : Rolls 2 window3b fun hw c => (hw ||| c.setWidth 32) <<< 8 where
  congr hab := by
    rw [window3b, window3b, hab 0 (by decide), hab 1 (by decide), hab 2 (by decide)]
  inj heq q hq := by
    refine BitVec.eq_of_getLsbD_eq fun i hi => ?_
    have hbit := congrArg (BitVec.getLsbD · (8 * (3 - q) + i)) heq
    interval_cases q <;> interval_cases i <;> simpa [window3b] using hbit
  next s := by
    ext i hi
    interval_cases i <;> simp [window3b]

theorem rolls_window4b : Rolls 3 window4b fun hw c => hw <<< 8 ||| c.setWidth 32 where
  congr hab := by
    rw [window4b, window4b, hab 0 (by decide), hab 1 (by decide), hab 2 (by decide),
      hab 3 (by decide)]
  inj heq q hq := by
    refine BitVec.eq_of_getLsbD_eq fun i hi => ?_
    have hbit := congrArg (BitVec.getLsbD · (8 * (3 - q) + i)) heq
    interval_cases q <;> interval_cases i <;> simpa [window4b] using hbit
  next s := by
    ext i hi
    interval_cases i <;> simp [window4b]

theorem roll_spec (rounds : ℕ) (hw : Rolls back window next) (hh : Ends h N) (hj : j + back ≤ N)
    (hbefore : ∀ k < j, ¬ Occurs h n (back + 1) k) (hrounds : N < rounds + (j + back)) :
    ∃ r, roll next back (window n) h rounds (j + back) (window fun q => h (j + q)) = some r ∧
      FirstAt h n (back + 1) N r := by
  induction rounds generalizing j with
  | zero => omega
  | succ rounds ih =>
    rw [roll]
    by_cases hend : j + back = N
    · have hzero : h (j + back) = 0 := hend ▸ hh.terminated
      rw [if_neg fun hgo => hgo.1 hzero, if_neg (not_not.mpr hzero)]
      exact ⟨none, rfl, fun k hk => hbefore k (by omega)⟩
    · have hletter := hh.letters (j + back) (by omega)
      by_cases heq : (window fun q => h (j + q)) = window n
      · rw [if_neg fun hgo => hgo.2 heq, if_pos hletter, Nat.add_sub_cancel]
        exact ⟨some j, rfl, by omega, hw.inj heq, hbefore⟩
      · rw [if_pos ⟨hletter, heq⟩]
        have hroll := hw.next fun q => h (j + q)
        have hshift : (fun q => h (j + (q + 1))) = fun q => h (j + 1 + q) := by
          funext q
          congr 1
          omega
        rw [show j + back + 1 = j + (back + 1) by omega, hroll, hshift,
          show j + (back + 1) = j + 1 + back by omega]
        refine ih (by omega) (fun k hk hocc => ?_) (by omega)
        by_cases hkj : k < j
        · exact hbefore k hkj hocc
        · exact heq (hw.congr ((show k = j by omega) ▸ hocc))

end Short

section Search

variable {h n s : Memory} {c : BitVec 8} {a i k q rounds M N : ℕ}

theorem strchrFrom_spec (rounds : ℕ) (hs : Ends s N) (hi : i ≤ N) (hbefore : ∀ q < i, s q ≠ c)
    (hrounds : N < rounds + i) :
    ∃ r, strchrFrom s c rounds i = some r ∧ Finds s c N r := by
  induction rounds generalizing i with
  | zero => omega
  | succ rounds ih =>
    rw [strchrFrom]
    by_cases hend : i = N
    · rw [if_neg (not_not.mpr (hend ▸ hs.terminated))]
      exact ⟨none, rfl, hend ▸ hbefore⟩
    · rw [if_pos (hs.letters i (by omega))]
      by_cases heq : s i = c
      · rw [if_pos heq]
        exact ⟨some i, rfl, by omega, heq, hbefore⟩
      · rw [if_neg heq]
        refine ih (by omega) (fun q hq => ?_) (by omega)
        by_cases hqi : q = i
        · exact hqi ▸ heq
        · exact hbefore q (by omega)

theorem le_of_zero (hs : Ends s N) (hq : s q = 0) : N ≤ q := by
  by_contra hlt
  exact hs.letters q (by omega) hq

theorem lt_of_letter (hs : Ends s N) (hle : q ≤ N) (hq : s q ≠ 0) : q < N := by
  by_contra hnot
  exact hq ((show q = N by omega) ▸ hs.terminated)

/-- A needle of one character more than a haystack before it ends. -/
theorem firstAt_none (hlt : N < M) : FirstAt h n M N none := fun j hj => by omega

/-- Whichever way the needle is looked for, once its first character is found. -/
theorem strstrFrom_spec (a rounds : ℕ) (hn : Ends n M) (hh : Ends h N) (hM : 0 < M) (hN : 0 < N)
    (hfirst : h 0 = n 0) (hrounds : N < rounds) :
    ∃ r, strstrFrom a h n rounds = some r ∧ FirstAt h n M N r := by
  have hshort : ∀ {w back} {window : Memory → BitVec w} {next}, Rolls back window next →
      M = back + 1 → back ≤ N →
        ∃ r, roll next back (window n) h rounds back (window h) = some r ∧ FirstAt h n M N r := by
    rintro w back window next hw rfl hback
    simpa using roll_spec (j := 0) (n := n) rounds hw hh (by omega)
      (fun k hk => by omega) (by omega)
  unfold strstrFrom
  split_ifs with hn1 hh1 hn2 hh2 hn3 hh3 hn4
  · have hM1 := le_of_zero hn hn1
    refine ⟨some 0, rfl, by omega, fun q hq => ?_, fun j hj => by omega⟩
    rw [show q = 0 by omega, Nat.add_zero, hfirst]
  · have hM1 := lt_of_letter hn hM hn1
    have hN1 := le_of_zero hh hh1
    exact ⟨none, rfl, firstAt_none (by omega)⟩
  · have hM1 := lt_of_letter hn hM hn1
    have hM2 := le_of_zero hn hn2
    exact hshort rolls_window2b (by omega) hN
  · have hM2 := lt_of_letter hn (lt_of_letter hn hM hn1) hn2
    have hN2 := le_of_zero hh hh2
    exact ⟨none, rfl, firstAt_none (by omega)⟩
  · have hM2 := lt_of_letter hn (lt_of_letter hn hM hn1) hn2
    have hM3 := le_of_zero hn hn3
    exact hshort rolls_window3b (by omega) (lt_of_letter hh hN hh1)
  · have hM3 := lt_of_letter hn (lt_of_letter hn (lt_of_letter hn hM hn1) hn2) hn3
    have hN3 := le_of_zero hh hh3
    exact ⟨none, rfl, firstAt_none (by omega)⟩
  · have hM3 := lt_of_letter hn (lt_of_letter hn (lt_of_letter hn hM hn1) hn2) hn3
    have hM4 := le_of_zero hn hn4
    exact hshort rolls_window4b (by omega) (lt_of_letter hh (lt_of_letter hh hN hh1) hh2)
  · exact strstrTwoway_spec a hM hn hh hrounds

theorem ends_drop (hs : Ends s N) (hi : i ≤ N) : Ends (fun q => s (i + q)) (N - i) where
  letters q hq := hs.letters (i + q) (by omega)
  terminated := by
    show s (i + (N - i)) = 0
    rw [show i + (N - i) = N by omega]
    exact hs.terminated

/-- The search may begin where the first character of the needle is. -/
theorem firstAt_of_drop {r : Option ℕ} (hM : 0 < M) (hi : i ≤ N) (hbefore : ∀ q < i, h q ≠ n 0)
    (hr : FirstAt (fun q => h (i + q)) n M (N - i) r) : FirstAt h n M N (r.map (i + ·)) := by
  have hearly : ∀ j < i, ¬ Occurs h n M j := fun j hj hocc => hbefore j hj (hocc 0 hM)
  have hocc : ∀ d, Occurs h n M (i + d) ↔ Occurs (fun q => h (i + q)) n M d := fun d =>
    forall₂_congr fun q _ => by rw [Nat.add_assoc]
  cases r with
  | none =>
    intro j hj
    by_cases hji : j < i
    · exact hearly j hji
    · obtain ⟨d, rfl⟩ := Nat.exists_eq_add_of_le (Nat.le_of_not_lt hji)
      rw [hocc]
      exact hr d (by omega)
  | some k =>
    obtain ⟨hin, hk, hfirst⟩ := hr
    refine ⟨show i + k + M ≤ N by omega, (hocc k).mpr hk, fun j (hj : j < i + k) => ?_⟩
    by_cases hji : j < i
    · exact hearly j hji
    · obtain ⟨d, rfl⟩ := Nat.exists_eq_add_of_le (Nat.le_of_not_lt hji)
      rw [hocc]
      exact hfirst d (by omega)

theorem strstr_spec (a : ℕ) (hn : Ends n M) (hh : Ends h N) (hrounds : N < rounds) :
    ∃ r, Strstr.strstr a h n rounds = some r ∧ FirstAt h n M N r := by
  unfold Strstr.strstr
  by_cases hempty : n 0 = 0
  · have hM := le_of_zero hn hempty
    rw [if_pos hempty]
    exact ⟨some 0, rfl, by omega, fun q hq => by omega, fun j hj => by omega⟩
  · have hM := lt_of_letter hn (Nat.zero_le M) hempty
    rw [if_neg hempty]
    obtain ⟨found, hchr, hfound⟩ := strchrFrom_spec (c := n 0) rounds hh (Nat.zero_le N)
      (fun q hq => by omega) (by omega)
    rw [hchr, Option.bind_some]
    cases found with
    | none => exact ⟨none, rfl, fun j hj hocc => hfound j (by omega) (hocc 0 hM)⟩
    | some i =>
      obtain ⟨hi, hfirst, hbefore⟩ := hfound
      obtain ⟨r, hr, hat⟩ := strstrFrom_spec (a + i) rounds hn (ends_drop hh hi.le) hM (by omega)
        hfirst (by omega)
      dsimp only
      rw [hr]
      exact ⟨r.map (i + ·), rfl, firstAt_of_drop hM hi.le hbefore hat⟩

end Search

section Strings

variable {h n s : Memory} {hs ns str : Chars} {a rounds : ℕ} {r : Option ℕ}

structure StringIn (s : Memory) (str : Chars) : Prop where
  letters : ∀ q < str.length, str[q]? = some (s q)
  terminated : s str.length = 0
  zero_notMem : 0 ∉ str

theorem StringIn.ends (hs : StringIn s str) : Ends s str.length where
  letters q hq heq := by
    have hletter := hs.letters q hq
    rw [heq] at hletter
    exact hs.zero_notMem (List.mem_of_getElem? hletter)
  terminated := hs.terminated

theorem stringIn_getD (h0 : 0 ∉ str) : StringIn (fun q => str.getD q 0) str where
  letters q hq := by simp [hq]
  terminated := by simp
  zero_notMem := h0

theorem prefix_iff_occurs (hh : ∀ q < hs.length, hs[q]? = some (h q))
    (hn : ∀ q < ns.length, ns[q]? = some (n q)) :
    ns <+: hs ↔ ns.length ≤ hs.length ∧ Occurs h n ns.length 0 := by
  have hletter : ∀ q < ns.length, ns.length ≤ hs.length →
      (hs[q]? = ns[q]? ↔ h (0 + q) = n q) := fun q hq hle => by
    rw [hh q (by omega), hn q hq, Option.some_inj, Nat.zero_add]
  constructor
  · intro hpre
    have hle := hpre.length_le
    refine ⟨hle, fun q hq => (hletter q hq hle).mp ?_⟩
    rw [List.prefix_iff_getElem?.mp hpre q hq, List.getElem?_eq_getElem hq]
  · rintro ⟨hle, hocc⟩
    refine List.prefix_iff_getElem?.mpr fun q hq => ?_
    rw [(hletter q hq hle).mpr (hocc q hq), List.getElem?_eq_getElem hq]

/-- The first place is what `strstr` is documented to give. -/
theorem drop_firstAt (hh : ∀ q < hs.length, hs[q]? = some (h q))
    (hn : ∀ q < ns.length, ns[q]? = some (n q)) (hr : FirstAt h n ns.length hs.length r) :
    r.map (hs.drop ·) = CString.strstr hs ns := by
  induction hs generalizing h r with
  | nil =>
    rw [CString.strstr]
    by_cases hempty : ns = []
    · subst hempty
      rw [if_pos rfl]
      cases r with
      | none => exact absurd (fun q hq => absurd hq (Nat.not_lt_zero q)) (hr 0 (Nat.le_refl 0))
      | some k => simp
    · rw [if_neg hempty]
      cases r with
      | none => rfl
      | some k =>
        have hlen := List.length_pos_iff.mpr hempty
        have hin := hr.1
        rw [List.length_nil] at hin
        omega
  | cons c hs ih =>
    rw [CString.strstr]
    have hpre := prefix_iff_occurs hh hn
    by_cases hhere : ns <+: c :: hs
    · rw [if_pos hhere]
      obtain ⟨hle, hocc⟩ := hpre.mp hhere
      cases r with
      | none => exact absurd hocc (hr 0 (by omega))
      | some k =>
        have hk : k = 0 := by
          by_contra hpos
          exact hr.2.2 0 (by omega) hocc
        rw [hk]
        rfl
    · rw [if_neg hhere]
      have htail : ∀ q < hs.length, hs[q]? = some (h (1 + q)) := fun q hq => by
        have hletter := hh (q + 1) (by simpa using hq)
        rwa [List.getElem?_cons_succ, Nat.add_comm q 1] at hletter
      have hocc : ∀ d, Occurs (fun q => h (1 + q)) n ns.length d ↔ Occurs h n ns.length (d + 1) :=
        fun d => forall₂_congr fun q _ => by rw [show d + 1 + q = 1 + (d + q) by omega]
      cases r with
      | none =>
        refine ih htail (r := none) fun j hj => ?_
        rw [hocc]
        exact hr (j + 1) (by rw [List.length_cons]; omega)
      | some k =>
        obtain ⟨hin, hk, hfirst⟩ := hr
        rw [List.length_cons] at hin
        have hpos : k ≠ 0 := fun hzero => hhere (hpre.mpr ⟨by
          rw [List.length_cons]
          omega, hzero ▸ hk⟩)
        obtain ⟨k, rfl⟩ := Nat.exists_eq_succ_of_ne_zero hpos
        exact ih htail (r := some k)
          ⟨by omega, (hocc k).mpr hk, fun j hj => (hocc j).not.mpr (hfirst (j + 1) (by omega))⟩

/-- For all strings, wherever they are in memory, `strstr` returns what it is documented to. -/
theorem strstr_first (a : ℕ) (hh : StringIn h hs) (hn : StringIn n ns)
    (hrounds : hs.length < rounds) :
    ∃ r, Strstr.strstr a h n rounds = some r ∧ r.map (hs.drop ·) = CString.strstr hs ns := by
  obtain ⟨r, hr, hfirst⟩ := strstr_spec a hn.ends hh.ends hrounds
  exact ⟨r, hr, drop_firstAt hh.letters hn.letters hfirst⟩

/-- `ababc` in `abababc`. -/
theorem strstr_first_ababc :
    ∃ r, Strstr.strstr 5 (fun q => [97, 98, 97, 98, 97, 98, 99].getD q 0)
        (fun q => [97, 98, 97, 98, 99].getD q 0) 8 = some r ∧
      r.map (List.drop · [97, 98, 97, 98, 97, 98, 99]) =
        CString.strstr [97, 98, 97, 98, 97, 98, 99] [97, 98, 97, 98, 99] :=
  strstr_first 5 (stringIn_getD (by decide)) (stringIn_getD (by decide)) (by decide)

end Strings

end ReduceOS.StringSearch
