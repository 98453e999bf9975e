import ReduceOS.LocalTime

/-!
The time that the machine keeps, read from the CMOS at boot. The registers are read until two
readings agree. The kernel has its own copies of the functions that count the days of years and
months, which are the same as those of the C library.
-/
namespace ReduceOS.CmosClock

open CivilDate CivilDate.Date LocalTime

structure Cmos where
  statusA : ℕ → BitVec 8
  registers : ℕ → ℕ → BitVec 8

def cmosSecond : ℕ := 0
def cmosMinute : ℕ := 2
def cmosHour : ℕ := 4
def cmosDay : ℕ := 7
def cmosMonth : ℕ := 8
def cmosYear : ℕ := 9

def fromBcd (n : BitVec 16) : ℤ := n.toNat / 16 * 10 + (n &&& 0xF).toNat

def yearsToSeconds (years : ℤ) : BitVec 64 :=
  let years := if years < 2000 then years + 2000 else years
  addYears 64 (years - 1969).toNat years 0 * 86400

def monthsToSeconds (months years : ℤ) : BitVec 64 :=
  let years := if years < 2000 then years + 2000 else years
  BitVec.ofInt 64 (addMonths years (months - 1).toNat 1 0 * 86400)

variable (c : Cmos)

def isCMOSUpdateInProgress (n : ℕ) : Bool := c.statusA n &&& 0x80 != 0

def waitForCMOS : ℕ → ℕ → Option ℕ
  | 0, _ => none
  | fuel + 1, n =>
    if isCMOSUpdateInProgress c n then waitForCMOS fuel (n + 1) else some (n + 1)

def dumpCMOS (n : ℕ) (index : ℕ) : BitVec 16 := (c.registers n index).setWidth 16

def differ (oldValues values : ℕ → BitVec 16) : Bool :=
  oldValues cmosSecond != values cmosSecond || oldValues cmosMinute != values cmosMinute ||
    oldValues cmosHour != values cmosHour || oldValues cmosDay != values cmosDay ||
    oldValues cmosMonth != values cmosMonth || oldValues cmosYear != values cmosYear

/-- The `do` loop after `polls` polls and `dumps` dumps. The `memcpy` of 128 bytes copies the
first 64 values. -/
def readAgain : ℕ → ℕ → ℕ → (ℕ → BitVec 16) → (ℕ → BitVec 16) → Option (ℕ → BitVec 16)
  | 0, _, _, _, _ => none
  | fuel + 1, polls, dumps, oldValues, values =>
    let oldValues index := if index < 64 then values index else oldValues index
    (waitForCMOS c fuel polls).bind fun polls =>
      let values := dumpCMOS c dumps
      if differ oldValues values then readAgain fuel polls (dumps + 1) oldValues values
      else some values

def unixTime (values : ℕ → BitVec 16) : BitVec 64 :=
  yearsToSeconds (fromBcd (values cmosYear) - 1) +
    monthsToSeconds (fromBcd (values cmosMonth)) (fromBcd (values cmosYear)) +
    BitVec.ofInt 64 ((fromBcd (values cmosDay) - 1) * 86400) +
    BitVec.ofInt 64 (fromBcd (values cmosHour) * 3600) +
    BitVec.ofInt 64 (fromBcd (values cmosMinute) * 60) +
    BitVec.ofInt 64 (fromBcd (values cmosSecond)) + 0

/-- `clock_convertCMOSToUnix`, where `oldValues` is what its second array happens to hold. -/
def convertCMOSToUnix (fuel : ℕ) (oldValues : ℕ → BitVec 16) : Option (BitVec 64) :=
  (waitForCMOS c fuel 0).bind fun polls =>
    (readAgain c fuel polls 1 oldValues (dumpCMOS c 0)).map unixTime

def toBcd (n : ℤ) : BitVec 8 := BitVec.ofInt 8 (n / 10 * 16 + n % 10)

structure Holds (c : Cmos) (d : Date) (hour minute second : ℤ) : Prop where
  year : ∀ n, c.registers n cmosYear = toBcd (d.year - 2000)
  month : ∀ n, c.registers n cmosMonth = toBcd d.month
  day : ∀ n, c.registers n cmosDay = toBcd d.day
  hour : ∀ n, c.registers n cmosHour = toBcd hour
  minute : ∀ n, c.registers n cmosMinute = toBcd minute
  second : ∀ n, c.registers n cmosSecond = toBcd second

def Settles (c : Cmos) : Prop := ∀ n, ∃ k, n ≤ k ∧ isCMOSUpdateInProgress c k = false

section Numbers

variable {n : ℤ}

theorem fromBcd_toBcd (hlow : 0 ≤ n) (hhigh : n < 100) :
    fromBcd ((toBcd n).setWidth 16) = n := by
  interval_cases n <;> rfl

theorem yearsToSeconds_eq {year : ℤ} (hlow : 2000 ≤ year) (hhigh : year ≤ 2099) :
    yearsToSeconds (year - 2000 - 1) = BitVec.ofInt 64 (newYear year * 86400) := by
  have hyear : year - 2000 - 1 + 2000 = year - 1 := by omega
  have hn : year - 1 + 1 - ((year - 1 - 1969).toNat : ℤ) = 1970 := by omega
  unfold yearsToSeconds
  rw [if_pos (by omega), hyear]
  dsimp only
  rw [addYears_eq, hn, sub_add_cancel, newYear_1970, sub_zero, BitVec.ofInt_mul]
  simp

theorem monthsToSeconds_eq {d : Date} (hlow : 2000 ≤ d.year) (hhigh : d.year ≤ 2099) :
    monthsToSeconds d.month (d.year - 2000) =
      BitVec.ofInt 64 (daysBeforeMonth d.year d.month * 86400) := by
  have hmonth : getSecondsOfMonths d.month d.year = daysBeforeMonth d.year d.month * 86400 :=
    getSecondsOfMonths_eq d.month_pos (by have := d.month_le; omega)
  unfold monthsToSeconds
  rw [if_pos (by omega), sub_add_cancel, ← hmonth]
  rfl

end Numbers

section Conversion

variable {c : Cmos} {d : Date} {hour minute second : ℤ}

theorem waitForCMOS_returns (fuel n : ℕ) {k : ℕ} (hk : isCMOSUpdateInProgress c k = false)
    (hn : n ≤ k) (hfuel : k < n + fuel) :
    ∃ polls, waitForCMOS c fuel n = some polls ∧ polls ≤ k + 1 := by
  induction fuel generalizing n with
  | zero => omega
  | succ fuel ih =>
    rw [waitForCMOS]
    by_cases hbusy : isCMOSUpdateInProgress c n = true
    · rw [if_pos hbusy]
      have hne : n ≠ k := by
        rintro rfl
        rw [hk] at hbusy
        contradiction
      exact ih (n + 1) (by omega) (by omega)
    · rw [if_neg hbusy]
      exact ⟨n + 1, rfl, by omega⟩

/-- Once the second reading is made it agrees with the first. -/
theorem readAgain_eq (h : Holds c d hour minute second) {fuel polls polls' dumps : ℕ}
    {oldValues : ℕ → BitVec 16} (hwait : waitForCMOS c fuel polls = some polls') :
    readAgain c (fuel + 1) polls dumps oldValues (dumpCMOS c 0) = some (dumpCMOS c dumps) := by
  have hsame : ∀ i v, i < 64 → (∀ n, c.registers n i = v) →
      ((if i < 64 then dumpCMOS c 0 i else oldValues i) != dumpCMOS c dumps i) = false := by
    intro i v hi hv
    simp [hi, dumpCMOS, hv]
  rw [readAgain, hwait]
  refine if_neg ?_
  simp only [differ, hsame _ _ (by decide) h.second, hsame _ _ (by decide) h.minute,
    hsame _ _ (by decide) h.hour, hsame _ _ (by decide) h.day, hsame _ _ (by decide) h.month,
    hsame _ _ (by decide) h.year, Bool.or_self, Bool.false_eq_true, not_false_eq_true]

theorem unixTime_dump (h : Holds c d hour minute second) (hyear : 2000 ≤ d.year)
    (hyear' : d.year ≤ 2099) (hhour : 0 ≤ hour ∧ hour < 24) (hminute : 0 ≤ minute ∧ minute < 60)
    (hsecond : 0 ≤ second ∧ second < 60) (n : ℕ) :
    unixTime (dumpCMOS c n) =
      BitVec.ofInt 64 (d.dayNumber * 86400 + hour * 3600 + minute * 60 + second) := by
  have hm := d.month_pos
  have hm' := d.month_le
  have hk := d.day_pos
  have hk' := d.day_le.trans (daysInMonth_le d.year d.month)
  have hzero (x : BitVec 64) : x + 0 = x := BitVec.add_zero x
  unfold unixTime dumpCMOS
  rw [h.year, h.month, h.day, h.hour, h.minute, h.second, fromBcd_toBcd (by omega) (by omega),
    fromBcd_toBcd (by omega) (by omega), fromBcd_toBcd (by omega) (by omega),
    fromBcd_toBcd (by omega) (by omega), fromBcd_toBcd (by omega) (by omega),
    fromBcd_toBcd (by omega) (by omega), yearsToSeconds_eq hyear hyear',
    monthsToSeconds_eq hyear hyear', hzero, ← BitVec.ofInt_add, ← BitVec.ofInt_add,
    ← BitVec.ofInt_add, ← BitVec.ofInt_add, ← BitVec.ofInt_add, dayNumber, dayOfYear]
  congr 1
  omega

/-- In this century the kernel and the C library count the same seconds up to a date. -/
theorem clocks_agree (h : Holds c d hour minute second) (hc : Settles c) (hyear : 2000 ≤ d.year)
    (hyear' : d.year ≤ 2099) (hhour : 0 ≤ hour ∧ hour < 24) (hminute : 0 ≤ minute ∧ minute < 60)
    (hsecond : 0 ≤ second ∧ second < 60) (oldValues : ℕ → BitVec 16) :
    ∃ enough, ∀ fuel, enough ≤ fuel → ∃ time,
      convertCMOSToUnix c fuel oldValues = some time ∧
        (time.toNat : ℤ) = d.dayNumber * 86400 + hour * 3600 + minute * 60 + second ∧
        ∀ tm, OnDate d tm → tm.hour = hour → tm.min = minute → tm.sec = second →
          mktime tm = time.toNat := by
  obtain ⟨k, -, hk⟩ := hc 0
  obtain ⟨k', hle, hk'⟩ := hc (k + 1)
  refine ⟨k' + 2, fun fuel hfuel => ?_⟩
  obtain ⟨fuel, rfl⟩ : ∃ more, fuel = more + 1 := ⟨fuel - 1, by omega⟩
  obtain ⟨polls, hpolls, hpk⟩ := waitForCMOS_returns (fuel + 1) 0 hk (by omega) (by omega)
  obtain ⟨polls', hpolls', -⟩ := waitForCMOS_returns fuel polls hk' (by omega) (by omega)
  have hlow := newYear_mono hyear
  have hhigh := newYear_mono (y := d.year + 1) (z := 2100) (by omega)
  have h2000 : newYear 2000 = 10957 := by decide
  have h1 := d.newYear_le
  have h2 := d.lt_newYear
  rw [newYear_2100] at hhigh
  have htime : ((BitVec.ofInt 64 (d.dayNumber * 86400 + hour * 3600 + minute * 60 +
      second)).toNat : ℤ) = d.dayNumber * 86400 + hour * 3600 + minute * 60 + second := by
    rw [BitVec.toNat_ofInt]
    omega
  refine ⟨_, ?_, htime, ?_⟩
  · rw [convertCMOSToUnix, hpolls]
    change (readAgain c (fuel + 1) polls 1 oldValues (dumpCMOS c 0)).map unixTime = _
    rw [readAgain_eq h hpolls', Option.map_some,
      unixTime_dump h hyear hyear' hhour hminute hsecond]
  · rintro tm htm rfl rfl rfl
    rw [htime, mktime_after_1970 htm (by omega) (by omega)]

def leapDay : Date := ⟨2024, 2, 29, by decide, by decide, by decide, by decide⟩

def leapDayCmos : Cmos where
  statusA n := if n = 0 then 0xA6 else 0x26
  registers _ index :=
    if index = cmosYear then 0x24
    else if index = cmosMonth then 0x02
    else if index = cmosDay then 0x29
    else if index = cmosHour then 0x12
    else if index = cmosMinute then 0x34
    else 0x56

theorem leapDayCmos_settles : Settles leapDayCmos := by
  intro n
  refine ⟨n + 1, by omega, ?_⟩
  simp [isCMOSUpdateInProgress, leapDayCmos]

theorem clocks_agree_leap_day :
    ∃ enough, ∀ fuel, enough ≤ fuel → ∃ time,
      convertCMOSToUnix leapDayCmos fuel (fun _ => 0) = some time ∧
        (time.toNat : ℤ) = leapDay.dayNumber * 86400 + 12 * 3600 + 34 * 60 + 56 ∧
        ∀ tm, OnDate leapDay tm → tm.hour = 12 → tm.min = 34 → tm.sec = 56 →
          mktime tm = time.toNat :=
  clocks_agree ⟨fun _ => rfl, fun _ => rfl, fun _ => rfl, fun _ => rfl, fun _ => rfl, fun _ => rfl⟩
    leapDayCmos_settles (by decide) (by decide) (by decide) (by decide) (by decide) _

end Conversion

end ReduceOS.CmosClock
