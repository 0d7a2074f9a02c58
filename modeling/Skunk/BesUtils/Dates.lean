import Skunk.Posix.Time

/-!
# `BESUtil::rfc822_date` and `BESUtil::get_time`

A date for the header of a response, and a time for the lines of a log. Both are texts of the moment, as long
as its year has four digits.
-/

namespace Skunk.BesUtils

open Posix Skunk.Text Skunk.Time

def days : List Text := ["Sun", "Mon", "Tue", "Wed", "Thu", "Fri", "Sat"].map String.toList

def months : List Text :=
  ["Jan", "Feb", "Mar", "Apr", "May", "Jun", "Jul", "Aug", "Sep", "Oct", "Nov", "Dec"].map String.toList

/-- `rfc822_date`; the buffer takes 254 characters. -/
def rfc822Date (t : Int) : Text :=
  let stm := gmtime t
  (days.getD stm.wday [] ++ ", ".toList ++ zeroPadded 2 stm.mday ++ " ".toList ++
    months.getD stm.mon [] ++ " ".toList ++ spacePadded 4 (1900 + stm.year) ++ " ".toList ++
    zeroPadded 2 stm.hour ++ ":".toList ++ zeroPadded 2 stm.min ++ ":".toList ++ zeroPadded 2 stm.sec ++
    " GMT".toList).take 254

/-- `get_time(the_time, use_local_time)`; the local time is that of the system. -/
def getTime (localtime : Int → Tm) (theTime : Int) (useLocalTime : Bool) : Text :=
  let result := if useLocalTime then localtime theTime else gmtime theTime
  match strftime 26 "%FT%T%Z".toList result with
  | some buf => buf
  | none => "date-format-error".toList

/-- The year has four digits, and no leading zero. -/
def PlainYear (t : Int) : Prop :=
  1000 ≤ (Moment.ofSeconds t).date.year ∧ (Moment.ofSeconds t).date.year ≤ 9999

instance (t : Int) : Decidable (PlainYear t) := inferInstanceAs (Decidable (_ ∧ _))

theorem PlainYear.fourDigits {t : Int} (h : PlainYear t) : (Moment.ofSeconds t).date.FourDigits :=
  ⟨by have := h.1; omega, h.2⟩

/-! ## The fields -/

section Fields

variable {t : Int}

theorem year_gmtime (t : Int) : 1900 + (gmtime t).year = (Moment.ofSeconds t).date.year := by
  show 1900 + ((Moment.ofSeconds t).date.year - 1900) = _
  omega

theorem mday_gmtime (t : Int) : zeroPadded 2 (gmtime t).mday = fixed 10 2 (Moment.ofSeconds t).date.day :=
  zeroPadded_eq (Date.day_lt_hundred _) (by decide)

theorem mon_gmtime (t : Int) :
    zeroPadded 2 ((gmtime t).mon + 1) = fixed 10 2 ((Moment.ofSeconds t).date.month + 1) :=
  zeroPadded_eq (Date.month_lt_hundred _) (by decide)

/-- `%H:%M:%S`, and `%T`. -/
theorem clock_gmtime (t : Int) : zeroPadded 2 (gmtime t).hour ++ ':' :: zeroPadded 2 (gmtime t).min ++
    ':' :: zeroPadded 2 (gmtime t).sec = (Moment.ofSeconds t).clock := by
  have hhour := (Moment.ofSeconds t).hour_lt
  have hminute := (Moment.ofSeconds t).minute_lt
  have hsecond := (Moment.ofSeconds t).second_lt
  have hhour' : zeroPadded 2 (gmtime t).hour = fixed 10 2 (Moment.ofSeconds t).hour :=
    zeroPadded_eq (hhour.trans (by decide)) (by decide)
  have hminute' : zeroPadded 2 (gmtime t).min = fixed 10 2 (Moment.ofSeconds t).minute :=
    zeroPadded_eq (hminute.trans (by decide)) (by decide)
  have hsecond' : zeroPadded 2 (gmtime t).sec = fixed 10 2 (Moment.ofSeconds t).second :=
    zeroPadded_eq (hsecond.trans (by decide)) (by decide)
  rw [hhour', hminute', hsecond', Moment.clock]
  simp

theorem decimal_gmtime (h : PlainYear t) :
    decimal (1900 + (gmtime t).year) = fixed 10 4 (Moment.ofSeconds t).date.year.toNat := by
  rw [year_gmtime]
  exact decimal_eq h.1 h.2

end Fields

/-! ## The texts -/

theorem length_httpText (m : Moment) : m.httpText.length = 29 := by
  obtain ⟨a, b, c, hday⟩ := exists_dayName m.date.weekday_lt
  obtain ⟨x, y, z, hmonth⟩ := exists_monthName m.date.month_lt
  rw [Moment.httpText, hday, hmonth]
  simp

theorem wday_gmtime (t : Int) (other : Text) :
    dayNames.getD (gmtime t).wday other = dayNames.getD (Moment.ofSeconds t).date.weekday [] := by
  have hlt : (gmtime t).wday < dayNames.length := (Moment.ofSeconds t).date.weekday_lt
  rw [List.getD_eq_getElem _ _ hlt]
  exact (List.getD_eq_getElem _ _ hlt).symm

theorem monthName_gmtime (t : Int) (other : Text) :
    monthNames.getD (gmtime t).mon other = monthNames.getD (Moment.ofSeconds t).date.month [] := by
  have hlt : (gmtime t).mon < monthNames.length := (Moment.ofSeconds t).date.month_lt
  rw [List.getD_eq_getElem _ _ hlt]
  exact (List.getD_eq_getElem _ _ hlt).symm

/-- The names are those of the C library. -/
theorem days_eq : days = dayNames := rfl

theorem months_eq : months = monthNames := rfl

/-- The date is that of a header field, and has room in the buffer. -/
theorem rfc822Date_eq {t : Int} (h : PlainYear t) : rfc822Date t = (Moment.ofSeconds t).httpText := by
  have hclock := clock_gmtime t
  have htext : days.getD (gmtime t).wday [] ++ ", ".toList ++ zeroPadded 2 (gmtime t).mday ++
      " ".toList ++ months.getD (gmtime t).mon [] ++ " ".toList ++
      spacePadded 4 (1900 + (gmtime t).year) ++ " ".toList ++ zeroPadded 2 (gmtime t).hour ++ ":".toList ++
      zeroPadded 2 (gmtime t).min ++ ":".toList ++ zeroPadded 2 (gmtime t).sec ++ " GMT".toList =
      (Moment.ofSeconds t).httpText := by
    rw [days_eq, months_eq, wday_gmtime, monthName_gmtime, mday_gmtime, year_gmtime,
      spacePadded_eq h.1 h.2, Moment.httpText, ← hclock]
    simp
  rw [rfc822Date, htext, List.take_of_length_le]
  rw [length_httpText]
  decide

theorem getTime_eq (localtime : Int → Tm) {t : Int} (h : PlainYear t) :
    getTime localtime t false = (Moment.ofSeconds t).isoText ++ "GMT".toList := by
  have hexpand : (gmtime t).expand "%FT%T%Z".toList = (Moment.ofSeconds t).isoText ++ "GMT".toList := by
    show (decimal (1900 + (gmtime t).year) ++ '-' :: zeroPadded 2 ((gmtime t).mon + 1) ++
      '-' :: zeroPadded 2 (gmtime t).mday) ++ 'T' :: (zeroPadded 2 (gmtime t).hour ++
      ':' :: zeroPadded 2 (gmtime t).min ++ ':' :: zeroPadded 2 (gmtime t).sec ++ ("GMT".toList ++ [])) = _
    rw [clock_gmtime, decimal_gmtime h, mon_gmtime, mday_gmtime, Moment.isoText, Date.isoText]
    simp
  have hlength : ((Moment.ofSeconds t).isoText ++ "GMT".toList).length < 26 := by
    simp [Moment.isoText]
  rw [getTime]
  simp only [Bool.false_eq_true, if_false, strftime, hexpand, if_pos hlength]

/-- In the lines of a log, the later time is the greater text. -/
theorem getTime_lt_iff (localtime : Int → Tm) {t t' : Int} (h : PlainYear t) (h' : PlainYear t') :
    getTime localtime t false < getTime localtime t' false ↔ t < t' := by
  rw [getTime_eq localtime h, getTime_eq localtime h', append_lt_append_iff (by simp [Moment.isoText]),
    Moment.isoText_lt_iff h.fourDigits h'.fourDigits, Moment.toSeconds_ofSeconds, Moment.toSeconds_ofSeconds]
  simp

theorem getTime_lt_last : getTime gmtime 0 false < getTime gmtime 0xFFFFFFFF false :=
  (getTime_lt_iff gmtime (by decide) (by decide)).mpr (by decide)

end Skunk.BesUtils
