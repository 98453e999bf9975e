import ReduceOS.CivilDate

/-!
The time functions of the C library. `fill_time` goes through the years, the months, the days
and the hours until it has found the ones that a time is in, and `mktime` adds up the seconds
before a date.
-/
namespace ReduceOS.LocalTime

open CivilDate CivilDate.Date

def int (x : ℤ) : ℤ := x.bmod (2 ^ 32)

def isYearLeap (year : ℤ) : Bool :=
  year.tmod 4 == 0 && (year.tmod 100 != 0 || year.tmod 400 == 0)

def getDaysInMonth (month year : ℤ) : ℤ :=
  match month with
  | 1 => 31
  | 2 => if isYearLeap year then 29 else 28
  | 3 => 31
  | 4 => 30
  | 5 => 31
  | 6 => 30
  | 7 => 31
  | 8 => 31
  | 9 => 30
  | 10 => 31
  | 11 => 30
  | 12 => 31
  | _ => 0

def getDayOfWeek (seconds : ℤ) : ℤ := int ((seconds.tdiv 86400 + 4).tmod 7)

/-- The loop of `get_seconds_of_months`: `n` more months from `i` on. -/
def addMonths (year : ℤ) : ℕ → ℤ → ℤ → ℤ
  | 0, _, days => days
  | n + 1, i, days => addMonths year n (i + 1) (days + getDaysInMonth i year)

def getSecondsOfMonths (months year : ℤ) : ℤ := addMonths year (months - 1).toNat 1 0 * 86400

/-- The loop of `get_seconds_of_years`, which goes back `n` years. -/
def addYears (w : ℕ) : ℕ → ℤ → BitVec w → BitVec w
  | 0, _, days => days
  | n + 1, years, days =>
    let days := days + 365
    addYears w n (years - 1) (if isYearLeap years then days + 1 else days)

def getSecondsOfYears (years : ℤ) : BitVec 32 := addYears 32 (years - 1969).toNat years 0 * 86400

structure Tm where
  sec : ℤ
  min : ℤ
  hour : ℤ
  mday : ℤ
  mon : ℤ
  year : ℤ
  wday : ℤ
  yday : ℤ
  isdst : ℤ
  zoneName : String
  zoneOffset : ℤ
deriving DecidableEq

/-- A loop of `fill_time` over `n` years, months, days or hours. The one with number `i` begins
at `seconds` and has `secs i` seconds. -/
def locate (secs : ℤ → ℤ) (timeValue : ℤ) (found : ℤ → ℤ → Option Tm) :
    ℕ → ℤ → ℤ → Option Tm
  | 0, _, _ => none
  | n + 1, i, seconds =>
    if seconds + secs i > timeValue then found i seconds
    else locate secs timeValue found n (i + 1) (seconds + secs i)

def fillTime (time : ℤ) (tzName : String) (tzOffset : ℤ) : Option Tm :=
  let timeValue := time + tzOffset
  let seconds := if timeValue < 0 then -2208988800 else 0
  let startingyear := if timeValue < 0 then 1900 else 1970
  let fillHour (year yearSec month day hour seconds : ℤ) : Option Tm :=
    let remaining := timeValue - seconds
    some
      { year := int (year - 1900)
        mon := int (month - 1)
        mday := int day
        hour := int (hour - 1)
        min := int (remaining.tdiv 60)
        sec := int (remaining.tmod 60)
        wday := getDayOfWeek timeValue
        yday := int ((timeValue - yearSec).tdiv 86400)
        isdst := 0
        zoneName := tzName
        zoneOffset := tzOffset }
  locate (fun year => (if isYearLeap year then 366 else 365) * 86400) timeValue
    (fun year yearSec =>
      locate (fun month => getDaysInMonth month year * 86400) timeValue
        (fun month seconds =>
          locate (fun _ => 60 * 60 * 24) timeValue
            (fun day seconds =>
              locate (fun _ => 60 * 60) timeValue (fillHour year yearSec month day) 24 1 seconds)
            (getDaysInMonth month year).toNat 1 seconds)
        12 1 yearSec)
    (2100 - startingyear).toNat startingyear seconds

def localtime (time : ℤ) : Option Tm := fillTime time "UTC" 0

def gmtime (time : ℤ) : Option Tm := fillTime time "UTC" 0

def mktime (tm : Tm) : ℤ :=
  (getSecondsOfYears (int (tm.year + 1899))).toNat +
    getSecondsOfMonths (int (tm.mon + 1)) (int (tm.year + 1900)) +
    int (int (tm.mday - 1) * 86400) + int (tm.hour * 3600) + int (tm.min * 60) + tm.sec -
    tm.zoneOffset

section Calendar

variable {year month x : ℤ}

theorem int_eq (hlow : -2 ^ 31 ≤ x) (hhigh : x < 2 ^ 31) : int x = x := by
  rw [int, Int.bmod_def]
  omega

theorem isYearLeap_iff : isYearLeap year = true ↔ IsLeap year := by
  simp only [isYearLeap, IsLeap, Bool.and_eq_true, Bool.or_eq_true, beq_iff_eq, bne_iff_ne, ne_eq,
    ← Int.dvd_iff_tmod_eq_zero, ← Int.dvd_iff_emod_eq_zero]

theorem yearSecs_eq :
    (if isYearLeap year then 366 else 365) * 86400 = daysInYear year * 86400 := by
  simp only [isYearLeap_iff, daysInYear]

theorem getDaysInMonth_eq (hlow : 1 ≤ month) (hhigh : month ≤ 12) :
    getDaysInMonth month year = daysInMonth year month := by
  interval_cases month <;> simp [getDaysInMonth, daysInMonth, isYearLeap_iff]

theorem addMonths_eq {n : ℕ} {i days : ℤ} (hi : 1 ≤ i) (hn : i + n ≤ 13) :
    addMonths year n i days = days + (daysBeforeMonth year (i + n) - daysBeforeMonth year i) := by
  induction n generalizing i days with
  | zero => simp [addMonths]
  | succ n ih =>
    rw [addMonths, ih (by omega) (by omega), getDaysInMonth_eq hi (by omega),
      daysBeforeMonth_succ hi]
    have hnext : i + 1 + (n : ℤ) = i + ((n + 1 : ℕ) : ℤ) := by omega
    rw [hnext]
    omega

theorem getSecondsOfMonths_eq (hlow : 1 ≤ month) (hhigh : month ≤ 13) :
    getSecondsOfMonths month year = daysBeforeMonth year month * 86400 := by
  have hn : (1 : ℤ) + (month - 1).toNat = month := by omega
  rw [getSecondsOfMonths, addMonths_eq le_rfl (by omega), hn, daysBeforeMonth_one]
  omega

theorem addYears_eq {w n : ℕ} {days : BitVec w} :
    addYears w n year days =
      days + BitVec.ofInt w (newYear (year + 1) - newYear (year + 1 - n)) := by
  induction n generalizing year days with
  | zero => simp [addYears]
  | succ n ih =>
    have hdays : (if isYearLeap year then days + 365 + 1 else days + 365) =
        days + BitVec.ofInt w (daysInYear year) := by
      simp only [isYearLeap_iff, daysInYear]
      split_ifs
      · rw [BitVec.add_assoc]
        congr 1
        exact (BitVec.ofInt_add 365 1).symm
      · rfl
    have hlast : year + 1 - ((n + 1 : ℕ) : ℤ) = year - 1 + 1 - n := by omega
    rw [addYears, ih, hdays, BitVec.add_assoc, ← BitVec.ofInt_add, hlast,
      sub_add_cancel, newYear_succ year]
    congr 2
    omega

/-- The seconds before the years from 1970 to 2100 fit in an `unsigned int`. -/
theorem getSecondsOfYears_eq (hlow : 1970 ≤ year) (hhigh : year ≤ 2100) :
    ((getSecondsOfYears (year - 1)).toNat : ℤ) = newYear year * 86400 := by
  have hn : year - 1 + 1 - ((year - 1 - 1969).toNat : ℤ) = 1970 := by omega
  have hmono := newYear_mono hhigh
  have hmono' := newYear_mono hlow
  have h1970 : newYear 1970 = 0 := by decide
  have hsum : getSecondsOfYears (year - 1) = BitVec.ofInt 32 (newYear year * 86400) := by
    rw [getSecondsOfYears, addYears_eq, hn, sub_add_cancel, BitVec.ofInt_mul, h1970, sub_zero]
    simp
  have h2100 : newYear 2100 = 47482 := by decide
  have hnonneg : 0 ≤ newYear year * 86400 := by omega
  have hlt : newYear year * 86400 < 2 ^ 32 := by omega
  rw [hsum, BitVec.toNat_ofInt]
  exact (Int.toNat_of_nonneg (Int.emod_nonneg _ (by decide))).trans (Int.emod_eq_of_lt hnonneg hlt)

end Calendar

section Search

variable {secs f : ℤ → ℤ} {t a i seconds : ℤ} {found : ℤ → ℤ → Option Tm} {n : ℕ}

theorem locate_eq (hstep : ∀ j, a ≤ j → j < a + n → f (j + 1) = f j + secs j)
    (hpos : ∀ j, a ≤ j → j < a + n → 0 ≤ secs j) (hi : a ≤ i) (hn : i < a + n)
    (hlow : f i ≤ t) (hhigh : t < f (i + 1)) :
    locate secs t found n a (f a) = found i (f i) := by
  induction n generalizing a with
  | zero => omega
  | succ n ih =>
    rw [locate, ← hstep a le_rfl (by omega)]
    by_cases heq : a = i
    · subst heq
      rw [if_pos hhigh]
    · have hle : f (a + 1) ≤ f i := by
        refine le_of_steps (fun j hj hji => ?_) (by omega)
        have := hpos j (by omega) (by omega)
        rw [hstep j (by omega) (by omega)]
        omega
      rw [if_neg (by omega)]
      exact ih (fun j hj hjn => hstep j (by omega) (by omega))
        (fun j hj hjn => hpos j (by omega) (by omega)) (by omega) (by omega)

/-- A time before the first one is taken to be in it. -/
theorem locate_before (hn : 0 < n) (ht : t < seconds + secs a) :
    locate secs t found n a seconds = found a seconds := by
  obtain ⟨n, rfl⟩ := Nat.exists_eq_add_of_lt hn
  rw [locate.eq_def]
  exact if_pos ht

end Search

section Fields

variable {d : Date} {t : ℤ} {found : ℤ → ℤ → Option Tm}

theorem locate_year {first : ℤ} (hday : d.dayNumber = t / 86400) (hfirst : first ≤ d.year)
    (hlast : d.year < 2100) :
    locate (fun year => (if isYearLeap year then 366 else 365) * 86400) t found
      (2100 - first).toNat first (newYear first * 86400) =
        found d.year (newYear d.year * 86400) := by
  have hlow := d.newYear_le
  have hhigh := d.lt_newYear
  refine locate_eq (f := fun year => newYear year * 86400) (fun j _ _ => ?_) (fun j _ _ => ?_)
    hfirst (by omega) (by omega) (by omega)
  · rw [yearSecs_eq, newYear_succ]
    omega
  · rw [yearSecs_eq]
    have := daysInYear_pos j
    omega

theorem dayNumber_eq (d : Date) :
    d.dayNumber = newYear d.year + daysBeforeMonth d.year d.month + (d.day - 1) := by
  rw [dayNumber, dayOfYear]
  omega

theorem locate_month (hday : d.dayNumber = t / 86400) :
    locate (fun month => getDaysInMonth month d.year * 86400) t found 12 1
      (newYear d.year * 86400) =
        found d.month ((newYear d.year + daysBeforeMonth d.year d.month) * 86400) := by
  have hm := d.month_pos
  have hm' := d.month_le
  have hk := d.day_pos
  have hk' := d.day_le
  rw [dayNumber_eq] at hday
  let start month := (newYear d.year + daysBeforeMonth d.year month) * 86400
  have hjan : newYear d.year * 86400 = start 1 := by
    simp only [start, daysBeforeMonth_one, add_zero]
  rw [hjan]
  refine locate_eq (f := start) (fun j hj hj' => ?_) (fun j hj hj' => ?_) hm (by omega)
    ?_ ?_
  · simp only [start]
    rw [getDaysInMonth_eq hj (by omega), daysBeforeMonth_succ hj]
    omega
  · have := daysInMonth_pos d.year j
    rw [getDaysInMonth_eq hj (by omega)]
    omega
  · simp only [start]
    omega
  · simp only [start]
    rw [daysBeforeMonth_succ hm]
    omega

theorem locate_day (hday : d.dayNumber = t / 86400) :
    locate (fun _ => 60 * 60 * 24) t found (getDaysInMonth d.month d.year).toNat 1
      ((newYear d.year + daysBeforeMonth d.year d.month) * 86400) =
        found d.day (d.dayNumber * 86400) := by
  have hk := d.day_pos
  have hk' := d.day_le
  have heq := dayNumber_eq d
  let start day := (newYear d.year + daysBeforeMonth d.year d.month + (day - 1)) * 86400
  have hfirst : (newYear d.year + daysBeforeMonth d.year d.month) * 86400 = start 1 := by
    simp only [start]
    omega
  have hnumber : d.dayNumber * 86400 = start d.day := by
    simp only [start]
    omega
  rw [hfirst, hnumber, getDaysInMonth_eq d.month_pos d.month_le]
  refine locate_eq (f := start) (fun j _ _ => ?_) (fun j _ _ => by omega) hk (by omega) ?_ ?_
  all_goals
    simp only [start]
    omega

theorem locate_hour (hday : d.dayNumber = t / 86400) :
    locate (fun _ => 60 * 60) t found 24 1 (d.dayNumber * 86400) =
      found (t % 86400 / 3600 + 1) (d.dayNumber * 86400 + t % 86400 / 3600 * 3600) := by
  let start hour := d.dayNumber * 86400 + (hour - 1) * 3600
  have hfirst : d.dayNumber * 86400 = start 1 := by
    simp only [start]
    omega
  have hnow : d.dayNumber * 86400 + t % 86400 / 3600 * 3600 = start (t % 86400 / 3600 + 1) := by
    simp only [start]
    omega
  rw [hnow]
  nth_rewrite 1 [hfirst]
  refine locate_eq (f := start) (fun j _ _ => ?_) (fun j _ _ => by omega) (by omega)
    (by omega) ?_ ?_
  all_goals
    simp only [start]
    omega

def fields (d : Date) (t : ℤ) (tzName : String) : Tm where
  year := d.year - 1900
  mon := d.month - 1
  mday := d.day
  hour := t % 86400 / 3600
  min := t % 3600 / 60
  sec := t % 60
  wday := getDayOfWeek t
  yday := d.dayOfYear
  isdst := 0
  zoneName := tzName
  zoneOffset := 0

theorem fillTime_eq (hday : d.dayNumber = t / 86400)
    (hyear : (if t < 0 then 1900 else 1970) ≤ d.year) (hyear' : d.year < 2100) (tzName : String) :
    fillTime t tzName 0 = some (fields d t tzName) := by
  have hstart : (if t < 0 then -2208988800 else 0) =
      newYear (if t < 0 then 1900 else 1970) * 86400 := by
    split_ifs <;> decide
  have h1900 : 1900 ≤ d.year := by split_ifs at hyear <;> omega
  have hm := d.month_pos
  have hm' := d.month_le
  have hk := d.day_pos
  have hk' := d.day_le.trans (daysInMonth_le d.year d.month)
  have hy := d.dayOfYear_nonneg
  have hy' := d.dayOfYear_lt.trans_le (daysInYear_le d.year)
  have hremaining : t - (d.dayNumber * 86400 + t % 86400 / 3600 * 3600) = t % 3600 := by omega
  have hyday : t - newYear d.year * 86400 = d.dayOfYear * 86400 + t % 86400 := by
    rw [dayNumber] at hday
    omega
  unfold fillTime
  simp only [add_zero, hstart, locate_year hday hyear hyear', locate_month hday, locate_day hday,
    locate_hour hday, hremaining, hyday]
  rw [Int.tdiv_eq_ediv_of_nonneg (by omega), Int.tmod_eq_emod_of_nonneg (by omega),
    Int.tdiv_eq_ediv_of_nonneg (by omega), int_eq (by omega) (by omega),
    int_eq (by omega) (by omega), int_eq (by omega) (by omega), int_eq (by omega) (by omega),
    int_eq (by omega) (by omega), int_eq (by omega) (by omega), int_eq (by omega) (by omega)]
  unfold fields
  congr 2 <;> omega

end Fields

section Conversion

variable {d : Date} {t : ℤ} {tm : Tm}

/-- The structure holds the date and the time of day of `t`, in the Gregorian calendar and UTC. -/
structure CivilTime (t : ℤ) (tm : Tm) : Prop where
  date : ∃ d : Date, d.dayNumber = t / 86400 ∧ tm.year = d.year - 1900 ∧ tm.mon = d.month - 1 ∧
    tm.mday = d.day ∧ tm.yday = d.dayNumber - newYear d.year
  hour : 0 ≤ tm.hour ∧ tm.hour < 24
  min : 0 ≤ tm.min ∧ tm.min < 60
  sec : 0 ≤ tm.sec ∧ tm.sec < 60
  time : tm.hour * 3600 + tm.min * 60 + tm.sec = t % 86400
  wday : tm.wday = weekday (t / 86400)

/-- If the time is converted to a structure, the structure is right and is converted back. -/
def Converts (t : ℤ) : Prop := ∀ tm, gmtime t = some tm → CivilTime t tm ∧ mktime tm = t

/-- The structure holds the date `d` and some time of day. -/
structure OnDate (d : Date) (tm : Tm) : Prop where
  year : tm.year = d.year - 1900
  mon : tm.mon = d.month - 1
  mday : tm.mday = d.day
  hour : 0 ≤ tm.hour ∧ tm.hour < 24
  min : 0 ≤ tm.min ∧ tm.min < 60
  sec : 0 ≤ tm.sec ∧ tm.sec < 60
  utc : tm.zoneOffset = 0

theorem fields_onDate (d : Date) (t : ℤ) (tzName : String) : OnDate d (fields d t tzName) := by
  refine ⟨rfl, rfl, rfl, ⟨?_, ?_⟩, ⟨?_, ?_⟩, ⟨?_, ?_⟩, rfl⟩
  all_goals
    simp only [fields]
    omega

theorem mktime_eq (h : OnDate d tm) (hlow : -2 ^ 31 ≤ d.year - 1900) (hhigh : d.year < 2 ^ 31) :
    mktime tm = (getSecondsOfYears (d.year - 1)).toNat + d.dayOfYear * 86400 + tm.hour * 3600 +
      tm.min * 60 + tm.sec := by
  obtain ⟨hyear, hmon, hmday, hhour, hmin, hsec, hutc⟩ := h
  have hm := d.month_pos
  have hm' := d.month_le
  have hk := d.day_pos
  have hk' := d.day_le.trans (daysInMonth_le d.year d.month)
  have hyears : int (tm.year + 1899) = d.year - 1 := by
    rw [int_eq (by omega) (by omega)]
    omega
  have hyear1900 : int (tm.year + 1900) = d.year := by
    rw [int_eq (by omega) (by omega)]
    omega
  have hmonth : int (tm.mon + 1) = d.month := by
    rw [int_eq (by omega) (by omega)]
    omega
  rw [mktime, hyears, hyear1900, hmonth, getSecondsOfMonths_eq hm (by omega), hmday, hutc,
    int_eq (x := d.day - 1) (by omega) (by omega), int_eq (by omega) (by omega),
    int_eq (by omega) (by omega), int_eq (by omega) (by omega), dayOfYear]
  omega

theorem mktime_after_1970 (h : OnDate d tm) (hlow : 1970 ≤ d.year) (hhigh : d.year < 2100) :
    mktime tm = d.dayNumber * 86400 + tm.hour * 3600 + tm.min * 60 + tm.sec := by
  rw [mktime_eq h (by omega) (by omega), getSecondsOfYears_eq hlow (by omega), dayNumber]
  omega

/-- Years before 1970 count for nothing. -/
theorem mktime_before_1970 (h : OnDate d tm) (hlow : 1900 ≤ d.year) (hhigh : d.year < 1970) :
    mktime tm = d.dayOfYear * 86400 + tm.hour * 3600 + tm.min * 60 + tm.sec := by
  have hn : (d.year - 1 - 1969).toNat = 0 := by omega
  have hzero : getSecondsOfYears (d.year - 1) = 0 := by
    rw [getSecondsOfYears, hn, addYears]
    decide
  rw [mktime_eq h (by omega) (by omega), hzero]
  simp

theorem newYear_1900 : newYear 1900 = -25567 := by decide

theorem newYear_1970 : newYear 1970 = 0 := by decide

theorem newYear_2100 : newYear 2100 = 47482 := by decide

/-- Which years the days of a range of years are in. -/
theorem year_between {y z : ℤ} (hlow : newYear y ≤ d.dayNumber) (hhigh : d.dayNumber < newYear z) :
    y ≤ d.year ∧ d.year < z := by
  have h1 := d.newYear_le
  have h2 := d.lt_newYear
  constructor
  · by_contra hnot
    have := newYear_mono (y := d.year + 1) (z := y) (by omega)
    omega
  · by_contra hnot
    have := newYear_mono (y := z) (z := d.year) (by omega)
    omega

/-- From 1970 to 2099, times are converted to dates and back. -/
theorem times_convert (hlow : 0 ≤ t) (hhigh : t < 4102444800) :
    ∃ tm, gmtime t = some tm ∧ localtime t = some tm ∧ CivilTime t tm ∧ mktime tm = t := by
  obtain ⟨d, hd⟩ := exists_dayNumber (t / 86400)
  obtain ⟨hyear, hyear'⟩ := year_between (d := d) (y := 1970) (z := 2100)
    (by rw [newYear_1970]; omega) (by rw [newYear_2100]; omega)
  have hfill := fillTime_eq hd (by rwa [if_neg (by omega)]) hyear' "UTC"
  refine ⟨fields d t "UTC", hfill, hfill, ⟨⟨d, hd, rfl, rfl, rfl, ?_⟩, ?_, ?_, ?_, ?_, ?_⟩, ?_⟩
  · rw [dayNumber, add_sub_cancel_left]
    rfl
  · exact (fields_onDate d t "UTC").hour
  · exact (fields_onDate d t "UTC").min
  · exact (fields_onDate d t "UTC").sec
  · simp only [fields]
    omega
  · simp only [fields, getDayOfWeek, weekday]
    rw [Int.tdiv_eq_ediv_of_nonneg hlow, Int.tmod_eq_emod_of_nonneg (by omega),
      int_eq (by omega) (by omega)]
  · rw [mktime_after_1970 (fields_onDate d t "UTC") hyear hyear', hd]
    simp only [fields]
    omega

/-- 2000-02-29 -/
theorem times_convert_leap_day :
    ∃ tm, gmtime 951782400 = some tm ∧ localtime 951782400 = some tm ∧
      CivilTime 951782400 tm ∧ mktime tm = 951782400 :=
  times_convert (by decide) (by decide)

/-- A time before 1900 is taken for one of the first hour of that year. -/
theorem gmtime_before_1900 (ht : t < -2208988800) :
    ∃ tm, gmtime t = some tm ∧ tm.year = 0 := by
  have hneg : t < 0 := by omega
  unfold gmtime fillTime
  simp only [add_zero, hneg, if_true]
  have hjan : getDaysInMonth 1 1900 = 31 := rfl
  rw [locate_before (by decide), locate_before (by decide), locate_before (by decide),
    locate_before (by decide)]
  · refine ⟨_, rfl, ?_⟩
    change int (1900 - 1900) = 0
    decide
  all_goals omega

/-- No time before 1970 is converted to a date and back. -/
theorem not_converts (ht : t < 0) : ¬ Converts t := by
  intro hconverts
  obtain ⟨d, hd⟩ := exists_dayNumber (t / 86400)
  by_cases h1900 : -2208988800 ≤ t
  · obtain ⟨hyear, hyear'⟩ := year_between (d := d) (y := 1900) (z := 1970)
      (by rw [newYear_1900]; omega) (by rw [newYear_1970]; omega)
    have hfill := fillTime_eq hd (by rwa [if_pos ht]) (by omega) "UTC"
    have hback := (hconverts _ hfill).2
    have hon := fields_onDate d t "UTC"
    have hnonneg := d.dayOfYear_nonneg
    rw [mktime_before_1970 hon hyear hyear'] at hback
    have := hon.hour.1
    have := hon.min.1
    have := hon.sec.1
    omega
  · obtain ⟨tm, htm, hyear⟩ := gmtime_before_1900 (t := t) (by omega)
    obtain ⟨d', hd', hdate, -⟩ := (hconverts tm htm).1.date
    have h1900' : d'.year = 1900 := by omega
    have hlow := d'.newYear_le
    rw [h1900', newYear_1900] at hlow
    omega

theorem not_converts_day_before : ¬ Converts (-86400) := not_converts (by decide)

/-- The last second of 1969, on a Wednesday. -/
theorem last_second_of_1969 :
    gmtime (-1) = some ⟨59, 59, 23, 31, 11, 69, 4, 364, 0, "UTC", 0⟩ ∧
      mktime ⟨59, 59, 23, 31, 11, 69, 4, 364, 0, "UTC", 0⟩ = 31535999 ∧ weekday (-1) = 3 ∧
      ¬ Converts (-1) := by
  have htm : gmtime (-1) = some ⟨59, 59, 23, 31, 11, 69, 4, 364, 0, "UTC", 0⟩ := by decide
  refine ⟨htm, by decide, by decide, fun hconverts => ?_⟩
  exact absurd (hconverts _ htm).2 (by decide)

end Conversion

end ReduceOS.LocalTime
