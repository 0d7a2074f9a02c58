import Mathlib.Data.Nat.Find
import Mathlib.Order.SuccPred.Basic
import Mathlib.Algebra.Order.SuccPred
import Mathlib.Data.Int.ConditionallyCompleteOrder
import Mathlib.Data.Int.SuccPred
import Mathlib.Data.Nat.SuccPred
import Mathlib.Order.Monotone.Basic

/-!
# The Gregorian calendar

A day is a number, counted from the first of January 1970, or a date. The two go with each other
(`Date.equivDays`), and the later day has the greater number (`Date.toDays_lt_iff`). The same for a second
and a moment with hour, minute and second.

Years and months are found in the same way: a strictly monotone function tells where each begins, and a day
is in one of them only (`StrictMono.eq_of_between`).
-/

namespace Skunk.Time

/-- Where the parts of a scale begin determines in which part something is. -/
theorem StrictMono.eq_of_between {α β : Type*} [LinearOrder α] [SuccOrder α] [NoMaxOrder α] [Preorder β]
    {f : α → β} (hf : StrictMono f) {a b : α} {n : β} (ha : f a ≤ n) (ha' : n < f (Order.succ a))
    (hb : f b ≤ n) (hb' : n < f (Order.succ b)) : a = b := by
  apply le_antisymm
  · apply Order.lt_succ_iff.mp
    exact hf.lt_iff_lt.mp (lt_of_le_of_lt ha hb')
  · apply Order.lt_succ_iff.mp
    exact hf.lt_iff_lt.mp (lt_of_le_of_lt hb ha')

/-! ## Years -/

def isLeap (y : Int) : Bool := y % 4 = 0 && (y % 100 ≠ 0 || y % 400 = 0)

/-- The number of the first day of a year. -/
def yearStart (y : Int) : Int := 365 * (y - 1970) + (y - 1969) / 4 - (y - 1901) / 100 + (y - 1601) / 400

def yearLength (leap : Bool) : Nat := if leap then 366 else 365

theorem yearStart_succ (y : Int) : yearStart (y + 1) = yearStart y + yearLength (isLeap y) := by
  simp only [yearStart, yearLength, isLeap, Bool.and_eq_true, Bool.or_eq_true, decide_eq_true_eq]
  split <;> omega

theorem yearLength_pos (leap : Bool) : 0 < yearLength leap := by
  cases leap <;> decide

theorem yearStart_strictMono : StrictMono yearStart := by
  apply strictMono_int_of_lt_succ
  intro y
  have hpos := yearLength_pos (isLeap y)
  rw [yearStart_succ]
  omega

/-- The year of a day: an estimate, which is a year too late or too early at most. -/
def yearOf (n : Int) : Int :=
  let y := (n + 719528) * 400 / 146097
  if n < yearStart y then y - 1
  else if yearStart (y + 1) ≤ n then y + 1
  else y

theorem yearStart_yearOf_le (n : Int) : yearStart (yearOf n) ≤ n := by
  unfold yearOf
  dsimp only
  split
  · simp only [yearStart]
    omega
  · split <;> omega

theorem lt_yearStart_yearOf (n : Int) : n < yearStart (yearOf n + 1) := by
  unfold yearOf
  dsimp only
  split
  next h => simpa using h
  · split
    · simp only [yearStart]
      omega
    · omega

theorem yearOf_eq {n y : Int} (h : yearStart y ≤ n) (h' : n < yearStart (y + 1)) : yearOf n = y :=
  StrictMono.eq_of_between yearStart_strictMono (yearStart_yearOf_le n) (lt_yearStart_yearOf n) h h'

/-! ## Months -/

/-- The days of a month, from January, which is `0`. -/
def daysIn (leap : Bool) (m : Nat) : Nat :=
  if m = 1 then if leap then 29 else 28
  else if m = 3 ∨ m = 5 ∨ m = 8 ∨ m = 10 then 30
  else 31

/-- The days of the year before a month. -/
def monthStart (leap : Bool) : Nat → Nat
  | 0 => 0
  | m + 1 => monthStart leap m + daysIn leap m

theorem daysIn_pos (leap : Bool) (m : Nat) : 0 < daysIn leap m := by
  unfold daysIn
  repeat' split
  all_goals decide

theorem daysIn_le (leap : Bool) (m : Nat) : daysIn leap m ≤ 31 := by
  unfold daysIn
  repeat' split
  all_goals decide

theorem monthStart_twelve (leap : Bool) : monthStart leap 12 = yearLength leap := by
  cases leap <;> rfl

theorem monthStart_strictMono (leap : Bool) : StrictMono (monthStart leap) := by
  apply strictMono_nat_of_lt_succ
  intro m
  rw [monthStart]
  exact Nat.lt_add_of_pos_right (daysIn_pos leap m)

/-- The month of a day of the year: the last one that has begun. -/
def monthOf (leap : Bool) (yday : Nat) : Nat := Nat.findGreatest (fun m => monthStart leap m ≤ yday) 11

theorem monthOf_lt (leap : Bool) (yday : Nat) : monthOf leap yday < 12 :=
  Nat.lt_succ_of_le (Nat.findGreatest_le 11)

theorem monthStart_monthOf_le (leap : Bool) (yday : Nat) : monthStart leap (monthOf leap yday) ≤ yday := by
  have hfirst : monthStart leap 0 ≤ yday := Nat.zero_le yday
  exact Nat.findGreatest_spec (P := fun m => monthStart leap m ≤ yday) (Nat.zero_le 11) hfirst

theorem lt_monthStart_monthOf {leap : Bool} {yday : Nat} (h : yday < yearLength leap) :
    yday < monthStart leap (monthOf leap yday + 1) := by
  rcases Nat.lt_or_ge (monthOf leap yday) 11 with hlt | hge
  · have hlate := Nat.findGreatest_is_greatest (P := fun m => monthStart leap m ≤ yday)
      (Nat.lt_succ_self (monthOf leap yday)) (Nat.succ_le_of_lt hlt)
    exact Nat.lt_of_not_le hlate
  · have heleven : monthOf leap yday = 11 := by
      have hlt := monthOf_lt leap yday
      omega
    rw [heleven, monthStart_twelve]
    exact h

theorem monthOf_eq {leap : Bool} {yday m : Nat} (h : monthStart leap m ≤ yday)
    (h' : yday < monthStart leap (m + 1)) (hm : m < 12) : monthOf leap yday = m := by
  have hyday : yday < yearLength leap := by
    rw [← monthStart_twelve]
    exact Nat.lt_of_lt_of_le h' ((monthStart_strictMono leap).monotone hm)
  exact StrictMono.eq_of_between (monthStart_strictMono leap) (monthStart_monthOf_le leap yday)
    (lt_monthStart_monthOf hyday) h h'

/-! ## Dates -/

/-- A date; months are counted from zero, and the days of a month from one. -/
@[ext] structure Date where
  year : Int
  month : Nat
  day : Nat
  month_lt : month < 12
  day_pos : 0 < day
  day_le : day ≤ daysIn (isLeap year) month
  deriving DecidableEq

namespace Date

variable (d : Date)

/-- The days of the year before a date. -/
def yday : Nat := monthStart (isLeap d.year) d.month + (d.day - 1)

def toDays : Int := yearStart d.year + d.yday

theorem le_yday : monthStart (isLeap d.year) d.month ≤ d.yday := Nat.le_add_right _ _

theorem yday_lt_next : d.yday < monthStart (isLeap d.year) (d.month + 1) := by
  rw [monthStart, yday]
  have hpos := d.day_pos
  have hle := d.day_le
  omega

theorem yday_lt : d.yday < yearLength (isLeap d.year) := by
  rw [← monthStart_twelve]
  exact Nat.lt_of_lt_of_le d.yday_lt_next ((monthStart_strictMono _).monotone d.month_lt)

theorem toDays_lt_next : d.toDays < yearStart (d.year + 1) := by
  rw [yearStart_succ, toDays]
  have hlt := d.yday_lt
  omega

theorem le_toDays : yearStart d.year ≤ d.toDays := by
  rw [toDays]
  omega

theorem yearOf_toDays : yearOf d.toDays = d.year := yearOf_eq d.le_toDays d.toDays_lt_next

def ofDays (n : Int) : Date where
  year := yearOf n
  month := monthOf (isLeap (yearOf n)) (n - yearStart (yearOf n)).toNat
  day := (n - yearStart (yearOf n)).toNat -
    monthStart (isLeap (yearOf n)) (monthOf (isLeap (yearOf n)) (n - yearStart (yearOf n)).toNat) + 1
  month_lt := monthOf_lt _ _
  day_pos := Nat.succ_pos _
  day_le := by
    have hlt : (n - yearStart (yearOf n)).toNat < yearLength (isLeap (yearOf n)) := by
      have hyear := lt_yearStart_yearOf n
      rw [yearStart_succ] at hyear
      have hfirst := yearStart_yearOf_le n
      omega
    have hle := monthStart_monthOf_le (isLeap (yearOf n)) (n - yearStart (yearOf n)).toNat
    have hmonth := lt_monthStart_monthOf hlt
    rw [monthStart] at hmonth
    omega

@[simp] theorem toDays_ofDays (n : Int) : (ofDays n).toDays = n := by
  have hyear := yearStart_yearOf_le n
  have hmonth := monthStart_monthOf_le (isLeap (yearOf n)) (n - yearStart (yearOf n)).toNat
  simp only [toDays, yday, ofDays]
  omega

@[simp] theorem ofDays_toDays : ofDays d.toDays = d := by
  have hyday : (d.toDays - yearStart d.year).toNat = d.yday := by
    rw [toDays]
    omega
  have hmonth : monthOf (isLeap d.year) d.yday = d.month :=
    monthOf_eq d.le_yday d.yday_lt_next d.month_lt
  have hpos := d.day_pos
  apply Date.ext
  · exact d.yearOf_toDays
  · simp only [ofDays, yearOf_toDays, hyday, hmonth]
  · simp only [ofDays, yearOf_toDays, hyday, hmonth]
    rw [yday]
    omega

/-- Every day has one date. -/
def equivDays : Date ≃ Int where
  toFun := toDays
  invFun := ofDays
  left_inv := ofDays_toDays
  right_inv := toDays_ofDays

/-- The day of the week, from Sunday, which is `0`. -/
def weekday : Nat := ((d.toDays + 4) % 7).toNat

theorem weekday_lt : d.weekday < 7 := by
  rw [weekday]
  omega

variable {d} {e : Date}

theorem toDays_lt_of_year (h : d.year < e.year) : d.toDays < e.toDays := by
  calc d.toDays < yearStart (d.year + 1) := d.toDays_lt_next
    _ ≤ yearStart e.year := yearStart_strictMono.monotone h
    _ ≤ e.toDays := e.le_toDays

theorem yday_lt_of_month (hyear : d.year = e.year) (h : d.month < e.month) : d.yday < e.yday := by
  calc d.yday < monthStart (isLeap d.year) (d.month + 1) := d.yday_lt_next
    _ ≤ monthStart (isLeap d.year) e.month := (monthStart_strictMono _).monotone h
    _ = monthStart (isLeap e.year) e.month := by rw [hyear]
    _ ≤ e.yday := e.le_yday

/-- Dates compare as their years, months and days do. -/
theorem toDays_lt_iff : d.toDays < e.toDays ↔
    d.year < e.year ∨ d.year = e.year ∧ (d.month < e.month ∨ d.month = e.month ∧ d.day < e.day) := by
  rcases lt_trichotomy d.year e.year with hlt | heq | hgt
  · simp [hlt, toDays_lt_of_year hlt]
  · have hdays : d.toDays < e.toDays ↔ d.yday < e.yday := by
      rw [toDays, toDays, heq]
      omega
    rw [hdays]
    rcases lt_trichotomy d.month e.month with hm | hm | hm
    · simp [heq, hm, yday_lt_of_month heq hm]
    · have hpos := d.day_pos
      have hpos' := e.day_pos
      simp only [yday, heq, hm, lt_irrefl, true_and, false_or]
      omega
    · have hle := Nat.le_of_lt (yday_lt_of_month heq.symm hm)
      simp [heq, Nat.not_lt.mpr hle, Nat.not_lt.mpr (Nat.le_of_lt hm), Nat.ne_of_gt hm]
  · have hle := le_of_lt (toDays_lt_of_year hgt)
    simp [not_lt.mpr hle, not_lt.mpr (le_of_lt hgt), ne_of_gt hgt]

end Date

/-! ## Moments -/

/-- A second of a day. -/
@[ext] structure Moment where
  date : Date
  hour : Nat
  minute : Nat
  second : Nat
  hour_lt : hour < 24
  minute_lt : minute < 60
  second_lt : second < 60
  deriving DecidableEq

namespace Moment

variable (m : Moment)

def toSeconds : Int := m.date.toDays * 86400 + (m.hour * 3600 + m.minute * 60 + m.second : Nat)

def ofSeconds (t : Int) : Moment where
  date := .ofDays (t / 86400)
  hour := (t % 86400).toNat / 3600
  minute := (t % 86400).toNat % 3600 / 60
  second := (t % 86400).toNat % 60
  hour_lt := by omega
  minute_lt := by omega
  second_lt := by omega

@[simp] theorem toSeconds_ofSeconds (t : Int) : (ofSeconds t).toSeconds = t := by
  simp only [toSeconds, ofSeconds, Date.toDays_ofDays]
  omega

@[simp] theorem ofSeconds_toSeconds : ofSeconds m.toSeconds = m := by
  have hhour := m.hour_lt
  have hminute := m.minute_lt
  have hsecond := m.second_lt
  have hdays : m.toSeconds / 86400 = m.date.toDays := by
    rw [toSeconds]
    omega
  have hrest : (m.toSeconds % 86400).toNat = m.hour * 3600 + m.minute * 60 + m.second := by
    rw [toSeconds]
    omega
  apply Moment.ext
  · simp only [ofSeconds, hdays, Date.ofDays_toDays]
  · simp only [ofSeconds, hrest]
    omega
  · simp only [ofSeconds, hrest]
    omega
  · simp only [ofSeconds, hrest]
    omega

end Moment

end Skunk.Time
