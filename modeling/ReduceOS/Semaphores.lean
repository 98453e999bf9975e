import ReduceOS.Machine
import Mathlib.Data.Int.Notation
import Mathlib.Tactic.ByContra
import Mathlib.Tactic.SplitIfs
import Mathlib.Algebra.Group.Int.Defs

/-!
Counting semaphores. A wait takes what there is, a signal adds up to the maximum, and both say how
much; the books of these answers are kept beside the value. A maximum of zero passes the guard of
`semaphore_signal` as no maximum and is then added up to all the same, which takes away what there
was.
-/
namespace ReduceOS.Semaphores

open Machine

section Source

/-- `semaphore_t`, without its lock and its name. -/
structure Semaphore where
  value : CInt
  maxValue : CInt

def semaphoreCreate (value maxValue : CInt) : Semaphore := ⟨value, maxValue⟩

/-- `semaphore_wait`: the items taken, and the semaphore after it. -/
def semaphoreWait (s : Semaphore) (items : CInt) : Except Panic (CInt × Semaphore) :=
  if s.value.toInt > 0 then
    let itemsTaken := if s.value.toInt > items.toInt then items else s.value
    .ok (itemsTaken, { s with value := s.value - itemsTaken })
  else .error .badArgument

/-- `semaphore_signal`: the items added, and the semaphore after it. -/
def semaphoreSignal (s : Semaphore) (items : CInt) : Except Panic (CInt × Semaphore) :=
  if s.maxValue ≠ 0 ∧ s.value.toInt ≥ s.maxValue.toInt then .error .badArgument
  else
    let itemsAdded :=
      if (s.value + items).toInt > s.maxValue.toInt then s.maxValue - s.value else items
    .ok (itemsAdded, { s with value := s.value + itemsAdded })

inductive Call
  | wait (items : CInt)
  | signal (items : CInt)

def Call.items : Call → CInt
  | .wait items => items
  | .signal items => items

structure Books where
  sem : Semaphore
  added : ℤ
  taken : ℤ

def Books.step (b : Books) : Call → Except Panic (CInt × Books)
  | .wait items => do
    let (itemsTaken, sem) ← semaphoreWait b.sem items
    .ok (itemsTaken, { b with sem := sem, taken := b.taken + itemsTaken.toInt })
  | .signal items => do
    let (itemsAdded, sem) ← semaphoreSignal b.sem items
    .ok (itemsAdded, { b with sem := sem, added := b.added + itemsAdded.toInt })

end Source

/-- The value is in range: not negative, and not over the maximum where there is one. -/
def Semaphore.InRange (s : Semaphore) : Prop :=
  0 ≤ s.value.toInt ∧ (s.maxValue ≠ 0 → s.value.toInt ≤ s.maxValue.toInt)

structure Books.Balanced (b : Books) (initial : CInt) : Prop where
  conserved : b.sem.value.toInt = initial.toInt + b.added - b.taken
  inRange : b.sem.InRange

def AddsAll (s : Semaphore) : Call → CInt → Prop
  | .wait _, _ => True
  | .signal items, itemsAdded => s.maxValue = 0 → itemsAdded = items

def Books.BalancedThrough (initial : CInt) (b : Books) : List Call → Prop
  | [] => b.Balanced initial
  | call :: calls => b.Balanced initial ∧ ∀ ret b', b.step call = .ok (ret, b') →
      AddsAll b.sem call ret ∧ b'.BalancedThrough initial calls

/-- A signal for which there is room in an `int`; without a maximum, nothing added to nothing. -/
def Semaphore.Fits (s : Semaphore) : Call → Prop
  | .wait _ => True
  | .signal items =>
    if s.maxValue = 0 then s.value = 0 ∧ items = 0 else s.value.toInt + items.toInt < 2 ^ 31

def Books.FitsThrough (b : Books) : List Call → Prop
  | [] => True
  | call :: calls => ∀ ret b', b.step call = .ok (ret, b') →
      b.sem.Fits call ∧ b'.FitsThrough calls

section Steps

variable {x y : CInt} {s s' : Semaphore} {items ret initial : CInt} {b b' : Books} {call : Call}

theorem toInt_bounds (x : CInt) : -2 ^ 31 ≤ x.toInt ∧ x.toInt < 2 ^ 31 :=
  ⟨x.le_toInt, x.toInt_lt⟩

theorem toInt_add_of_lt (hlow : -2 ^ 31 ≤ x.toInt + y.toInt) (h : x.toInt + y.toInt < 2 ^ 31) :
    (x + y).toInt = x.toInt + y.toInt := by
  rw [BitVec.toInt_add, Int.bmod_def]
  omega

theorem toInt_add_neg (h : 2 ^ 31 ≤ x.toInt + y.toInt) : (x + y).toInt < 0 := by
  have hx := toInt_bounds x
  have hy := toInt_bounds y
  rw [BitVec.toInt_add, Int.bmod_def]
  omega

theorem toInt_sub_of_lt (hlow : -2 ^ 31 ≤ x.toInt - y.toInt) (h : x.toInt - y.toInt < 2 ^ 31) :
    (x - y).toInt = x.toInt - y.toInt := by
  rw [BitVec.toInt_sub, Int.bmod_def]
  omega

theorem toInt_eq_zero_iff : x.toInt = 0 ↔ x = 0 := by
  rw [← BitVec.toInt_inj]
  exact Iff.rfl

/-- What a wait returns is between nothing and the value, and the value is less by it. -/
theorem semaphoreWait_cases (hitems : 0 ≤ items.toInt)
    (h : semaphoreWait s items = .ok (ret, s')) :
    s'.maxValue = s.maxValue ∧ 0 ≤ ret.toInt ∧ ret.toInt ≤ s.value.toInt ∧
      s'.value.toInt = s.value.toInt - ret.toInt := by
  have hvalue := toInt_bounds s.value
  unfold semaphoreWait at h
  split_ifs at h with hpos hless
  · obtain ⟨rfl, rfl⟩ := Prod.mk.inj (Except.ok.inj h)
    exact ⟨rfl, hitems, by omega, toInt_sub_of_lt (by omega) (by omega)⟩
  · obtain ⟨rfl, rfl⟩ := Prod.mk.inj (Except.ok.inj h)
    exact ⟨rfl, by omega, Int.le_refl _, toInt_sub_of_lt (by omega) (by omega)⟩

/-- With a maximum, a signal that fits adds what it returns and stays in range. -/
theorem semaphoreSignal_bounded (hrange : s.InRange) (hmax : s.maxValue ≠ 0)
    (hitems : 0 ≤ items.toInt) (hfits : s.value.toInt + items.toInt < 2 ^ 31)
    (h : semaphoreSignal s items = .ok (ret, s')) :
    s'.InRange ∧ s'.value.toInt = s.value.toInt + ret.toInt := by
  obtain ⟨hvalue, hle⟩ := hrange
  have hmaxbounds := toInt_bounds s.maxValue
  have hsum : (s.value + items).toInt = s.value.toInt + items.toInt :=
    toInt_add_of_lt (by omega) hfits
  have hmaxle := hle hmax
  unfold semaphoreSignal at h
  split_ifs at h with hfull hover
  · obtain ⟨rfl, rfl⟩ := Prod.mk.inj (Except.ok.inj h)
    unfold Semaphore.InRange
    have hdiff : (s.maxValue - s.value).toInt = s.maxValue.toInt - s.value.toInt :=
      toInt_sub_of_lt (by omega) (by omega)
    have hnew : (s.value + (s.maxValue - s.value)).toInt = s.maxValue.toInt := by
      rw [toInt_add_of_lt (by omega) (by omega), hdiff]
      omega
    rw [hnew, hdiff]
    exact ⟨⟨by omega, fun _ => Int.le_refl _⟩, by omega⟩
  · obtain ⟨rfl, rfl⟩ := Prod.mk.inj (Except.ok.inj h)
    unfold Semaphore.InRange
    dsimp only
    rw [hsum]
    exact ⟨⟨by omega, fun _ => by omega⟩, rfl⟩

/-- A signal whose sum overflows leaves a negative value. -/
theorem semaphoreSignal_overflow (hmax : 0 ≤ s.maxValue.toInt)
    (hover : 2 ^ 31 ≤ s.value.toInt + items.toInt)
    (h : semaphoreSignal s items = .ok (ret, s')) : s'.value.toInt < 0 := by
  have hsum := toInt_add_neg hover
  unfold semaphoreSignal at h
  rw [if_neg (by omega : ¬ (s.value + items).toInt > s.maxValue.toInt)] at h
  split_ifs at h with hfull
  obtain ⟨rfl, rfl⟩ := Prod.mk.inj (Except.ok.inj h)
  exact hsum

/-- Without a maximum, what is added is what takes the value back to nothing, unless the sum is
not positive. -/
theorem semaphoreSignal_unbounded (hmax : s.maxValue = 0)
    (h : semaphoreSignal s items = .ok (ret, s')) :
    ret = (if (s.value + items).toInt > 0 then -s.value else items) ∧
      s' = { s with value := s.value + ret } := by
  unfold semaphoreSignal at h
  rw [if_neg (fun hfull => hfull.1 hmax)] at h
  obtain ⟨rfl, rfl⟩ := Prod.mk.inj (Except.ok.inj h)
  rw [hmax]
  exact ⟨by simp, rfl⟩

/-- A signal that returns keeps the value in range, with what it returns accounted for, exactly
when it fits. -/
theorem semaphoreSignal_right_iff (hrange : s.InRange) (hitems : 0 ≤ items.toInt)
    (h : semaphoreSignal s items = .ok (ret, s')) :
    (AddsAll s (.signal items) ret ∧ s'.InRange ∧ s'.value.toInt = s.value.toInt + ret.toInt) ↔
      s.Fits (.signal items) := by
  have hvalue := hrange.1
  simp only [AddsAll, Semaphore.Fits]
  by_cases hmax : s.maxValue = 0
  · rw [if_pos hmax]
    obtain ⟨hret, rfl⟩ := semaphoreSignal_unbounded hmax h
    constructor
    · rintro ⟨hall, hin, -⟩
      have hsame := hall hmax
      by_cases hpos : (s.value + items).toInt > 0
      · -- what is added is the value taken away, so it is all items only if both are zero
        rw [if_pos hpos, hsame] at hret
        rw [hret, BitVec.add_right_neg] at hpos
        exact absurd hpos (by decide)
      · have hfits : s.value.toInt + items.toInt < 2 ^ 31 := by
          by_contra hover
          rw [hsame] at hin
          have hneg := toInt_add_neg (x := s.value) (y := items) (by omega)
          have hnonneg := hin.1
          exact absurd hneg (Int.not_lt.mpr hnonneg)
        rw [toInt_add_of_lt (by omega) hfits] at hpos
        exact ⟨toInt_eq_zero_iff.mp (by omega), toInt_eq_zero_iff.mp (by omega)⟩
    · rintro ⟨hv, hi⟩
      rw [hv, hi] at hret
      have hzero : ret = 0 := hret
      have hsame : s.value + ret = s.value := by
        rw [hzero, hv]
        rfl
      rw [hsame, hzero, hi]
      exact ⟨fun _ => rfl, hrange, (Int.add_zero _).symm⟩
  · rw [if_neg hmax]
    constructor
    · rintro ⟨-, hin, -⟩
      by_contra hover
      have hmaxle := hrange.2 hmax
      have hneg := semaphoreSignal_overflow (by omega) (by omega) h
      exact absurd hneg (Int.not_lt.mpr hin.1)
    · intro hfits
      exact ⟨fun hzero => absurd hzero hmax, semaphoreSignal_bounded hrange hmax hitems hfits h⟩

theorem Books.step_balanced_iff (hb : b.Balanced initial) (hitems : 0 ≤ call.items.toInt)
    (h : b.step call = .ok (ret, b')) :
    (AddsAll b.sem call ret ∧ b'.Balanced initial) ↔ b.sem.Fits call := by
  obtain ⟨hconserved, hrange⟩ := hb
  cases call with
  | wait items =>
    simp only [Books.step] at h
    cases hwait : semaphoreWait b.sem items with
    | error p => simp [hwait, bind, Except.bind] at h
    | ok r =>
      obtain ⟨itemsTaken, sem⟩ := r
      rw [hwait] at h
      obtain ⟨rfl, rfl⟩ := Prod.mk.inj (Except.ok.inj h)
      obtain ⟨hmax, hnonneg, hle, hvalue⟩ := semaphoreWait_cases hitems hwait
      refine iff_of_true ⟨trivial, ⟨?_, ?_, fun hne => ?_⟩⟩ trivial
      · change sem.value.toInt = _ + b.added - (b.taken + itemsTaken.toInt)
        omega
      · change 0 ≤ sem.value.toInt
        omega
      · have hbound := hrange.2 (hmax ▸ hne)
        change sem.value.toInt ≤ sem.maxValue.toInt
        rw [hmax]
        omega
  | signal items =>
    simp only [Books.step] at h
    cases hsignal : semaphoreSignal b.sem items with
    | error p => simp [hsignal, bind, Except.bind] at h
    | ok r =>
      obtain ⟨itemsAdded, sem⟩ := r
      rw [hsignal] at h
      obtain ⟨rfl, rfl⟩ := Prod.mk.inj (Except.ok.inj h)
      refine Iff.trans ?_ (semaphoreSignal_right_iff hrange hitems hsignal)
      refine and_congr_right fun _ => ⟨fun hb' => ⟨hb'.inRange, ?_⟩, fun hb' => ⟨?_, hb'.1⟩⟩
      · have hnew : sem.value.toInt = _ + (b.added + itemsAdded.toInt) - b.taken := hb'.conserved
        omega
      · change sem.value.toInt = _ + (b.added + itemsAdded.toInt) - b.taken
        have hnew := hb'.2
        omega

end Steps

section Runs

variable {initial : CInt} {b : Books} {calls : List Call}

/-- From a state in which they balance, the books balance through a run exactly when all its
signals fit. -/
theorem Books.balancedThrough_iff (hb : b.Balanced initial)
    (hitems : ∀ call ∈ calls, 0 ≤ call.items.toInt) :
    b.BalancedThrough initial calls ↔ b.FitsThrough calls := by
  induction calls generalizing b with
  | nil => exact iff_of_true hb trivial
  | cons call calls ih =>
    obtain ⟨hcall, hrest⟩ := List.forall_mem_cons.mp hitems
    constructor
    · rintro ⟨-, hstep⟩ ret b' h
      obtain ⟨hall, hthrough⟩ := hstep ret b' h
      have hb' : b'.Balanced initial := by
        cases calls with
        | nil => exact hthrough
        | cons call' calls => exact hthrough.1
      exact ⟨(Books.step_balanced_iff hb hcall h).mp ⟨hall, hb'⟩, (ih hb' hrest).mp hthrough⟩
    · intro hfits
      refine ⟨hb, fun ret b' h => ?_⟩
      obtain ⟨hfit, hthrough⟩ := hfits ret b' h
      obtain ⟨hall, hb'⟩ := (Books.step_balanced_iff hb hcall h).mpr hfit
      exact ⟨hall, (ih hb' hrest).mpr hthrough⟩

def created (value maxValue : CInt) : Books := ⟨semaphoreCreate value maxValue, 0, 0⟩

/-- For every initial value and maximum and every sequence of calls, the books balance exactly
when they do at first and every signal fits. -/
theorem created_balancedThrough_iff (value maxValue : CInt)
    (hitems : ∀ call ∈ calls, 0 ≤ call.items.toInt) :
    (created value maxValue).BalancedThrough value calls ↔
      (semaphoreCreate value maxValue).InRange ∧ (created value maxValue).FitsThrough calls := by
  have hfirst : (created value maxValue).Balanced value ↔
      (semaphoreCreate value maxValue).InRange := by
    refine ⟨Books.Balanced.inRange, fun hrange => ⟨?_, hrange⟩⟩
    simp [created, semaphoreCreate]
  by_cases hrange : (semaphoreCreate value maxValue).InRange
  · rw [Books.balancedThrough_iff (hfirst.mpr hrange) hitems, and_iff_right hrange]
  · refine iff_of_false (fun hthrough => hrange (hfirst.mp ?_)) fun h => hrange h.1
    cases calls with
    | nil => exact hthrough
    | cons call calls => exact hthrough.1

/-- One item is taken from a semaphore of two and put back. -/
theorem created_balancedThrough_two :
    (created 2 3).BalancedThrough 2 [.wait 1, .signal 1] := by
  refine (created_balancedThrough_iff 2 3 (by decide)).mpr ⟨⟨by decide, by decide⟩, ?_⟩
  rintro ret b' h
  obtain ⟨rfl, rfl⟩ := Prod.mk.inj (Except.ok.inj h)
  refine ⟨trivial, ?_⟩
  rintro ret b' h
  obtain ⟨rfl, rfl⟩ := Prod.mk.inj (Except.ok.inj h)
  exact ⟨by unfold Semaphore.Fits; decide, trivial⟩

/-- Without a maximum, one item added to five leaves none. -/
theorem signal_takes_away :
    (created 5 0).step (.signal 1) = .ok (-5, ⟨⟨0, 0⟩, -5, 0⟩) ∧
      ¬ (created 5 0).BalancedThrough 5 [.signal 1] := by
  refine ⟨rfl, fun h => ?_⟩
  have hadds := (h.2 (-5) ⟨⟨0, 0⟩, -5, 0⟩ rfl).1
  exact absurd (hadds rfl) (by decide)

end Runs

end ReduceOS.Semaphores
