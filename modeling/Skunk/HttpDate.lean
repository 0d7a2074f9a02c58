import Skunk.BesUtils.Dates
import Skunk.Handler

/-!
# The date that the handler formats

`format_http_date` with the `strftime` of the C library. For every time of the years 1000 to 9999 the text is
the date of a header field, which names that time and no other; it is also what `BESUtil::rfc822_date` writes.
-/

namespace Skunk

open Skunk.Posix Skunk.Time Skunk.BesUtils

/-- `strftime` as `format_http_date` calls it, with its buffer of 100 characters. -/
def httpStrftime (t : Int) : Option String :=
  (strftime 100 "%a, %d %b %Y %H:%M:%S GMT".toList (gmtime t)).map String.ofList

/-- A handler that formats dates with the `strftime` of the C library. -/
def HandlerEnv.withDates (env : HandlerEnv) : HandlerEnv := { env with strftime := httpStrftime }

theorem expand_httpFormat {t : Int} (h : PlainYear t) :
    (gmtime t).expand "%a, %d %b %Y %H:%M:%S GMT".toList = (Moment.ofSeconds t).httpText := by
  have hclock := clock_gmtime t
  show dayNames.getD (gmtime t).wday ['?'] ++ ',' :: ' ' :: (zeroPadded 2 (gmtime t).mday ++ ' ' ::
    (monthNames.getD (gmtime t).mon ['?'] ++ ' ' :: (decimal (1900 + (gmtime t).year) ++ ' ' ::
      (zeroPadded 2 (gmtime t).hour ++ ':' :: (zeroPadded 2 (gmtime t).min ++ ':' ::
        (zeroPadded 2 (gmtime t).sec ++ " GMT".toList)))))) = _
  rw [wday_gmtime, monthName_gmtime, mday_gmtime, decimal_gmtime h, Moment.httpText, ← hclock]
  simp

theorem httpStrftime_eq {t : Int} (h : PlainYear t) :
    httpStrftime t = some (String.ofList (Moment.ofSeconds t).httpText) := by
  have hroom : (Moment.ofSeconds t).httpText.length < 100 := by
    rw [length_httpText]
    decide
  rw [httpStrftime, strftime, expand_httpFormat h, if_pos hroom]
  rfl

theorem formatHttpDate_eq (env : HandlerEnv) {t : Int} (h : PlainYear t) :
    formatHttpDate env.withDates t = .ok (String.ofList (Moment.ofSeconds t).httpText) := by
  have hdate : env.withDates.strftime t = some (String.ofList (Moment.ofSeconds t).httpText) :=
    httpStrftime_eq h
  rw [formatHttpDate, hdate]

/-- The date that is formatted is read back as the time, with its day of the week. -/
theorem formatHttpDate_read (env : HandlerEnv) {t : Int} (h : PlainYear t) :
    ∃ date, formatHttpDate env.withDates t = .ok date ∧ date.length = 29 ∧
      (readHttp date.toList).map Moment.toSeconds = some t := by
  refine ⟨_, formatHttpDate_eq env h, ?_, ?_⟩
  · rw [String.length_ofList, length_httpText]
  · rw [String.toList_ofList, readHttp_eq_some_iff.mpr ⟨rfl, h.fourDigits⟩]
    simp

theorem formatHttpDate_read_epoch : ∃ date, formatHttpDate bareEnv.withDates 0 = .ok date ∧
    date.length = 29 ∧ (readHttp date.toList).map Moment.toSeconds = some 0 :=
  formatHttpDate_read bareEnv (by decide)

/-- The two functions for dates write the same. -/
theorem rfc822Date_formatHttpDate (env : HandlerEnv) {t : Int} (h : PlainYear t) :
    formatHttpDate env.withDates t = .ok (String.ofList (rfc822Date t)) := by
  rw [formatHttpDate_eq env h, rfc822Date_eq h]

theorem rfc822Date_formatHttpDate_last :
    formatHttpDate bareEnv.withDates 0xFFFFFFFF = .ok (String.ofList (rfc822Date 0xFFFFFFFF)) :=
  rfc822Date_formatHttpDate bareEnv (by decide)

example : rfc822Date 0xFFFFFFFF = "Sun, 07 Feb 2106 06:28:15 GMT".toList := by decide

end Skunk
