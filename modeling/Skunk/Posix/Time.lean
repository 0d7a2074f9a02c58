import Skunk.Posix.Path
import Skunk.Time.Texts

/-!
# `gmtime_r`, `strftime` and `%4d`

The broken-down time of C, and the texts that are made of it. The years are numbers without bounds here, so
`gmtime_r` does not fail.
-/

namespace Skunk.Posix

open Skunk.Text Skunk.Time

/-- `struct tm`; the year is counted from 1900. -/
structure Tm where
  sec : Nat
  min : Nat
  hour : Nat
  mday : Nat
  mon : Nat
  year : Int
  wday : Nat
  yday : Nat
  zone : Text

def Tm.ofMoment (zone : Text) (m : Moment) : Tm where
  sec := m.second
  min := m.minute
  hour := m.hour
  mday := m.date.day
  mon := m.date.month
  year := m.date.year - 1900
  wday := m.date.weekday
  yday := m.date.yday
  zone := zone

/-- `gmtime_r`. -/
def gmtime (t : Int) : Tm := .ofMoment "GMT".toList (.ofSeconds t)

/-- `%0wd`. -/
def zeroPadded (w n : Nat) : Text :=
  List.replicate (w - (digitsOf 10 n).length) '0' ++ (digitsOf 10 n).map digitChar

/-- `%d`. -/
def decimal (n : Int) : Text := (Numeral.ofInt (by decide : 1 < 10) n).text

/-- `%wd`. -/
def spacePadded (w : Nat) (n : Int) : Text := List.replicate (w - (decimal n).length) ' ' ++ decimal n

/-- What `strftime` writes for a conversion, in the C locale. -/
def Tm.conversion (tm : Tm) : Char → Text
  | 'a' => dayNames.getD tm.wday ['?']
  | 'b' => monthNames.getD tm.mon ['?']
  | 'd' => zeroPadded 2 tm.mday
  | 'Y' => decimal (1900 + tm.year)
  | 'H' => zeroPadded 2 tm.hour
  | 'M' => zeroPadded 2 tm.min
  | 'S' => zeroPadded 2 tm.sec
  | 'F' => decimal (1900 + tm.year) ++ '-' :: zeroPadded 2 (tm.mon + 1) ++ '-' :: zeroPadded 2 tm.mday
  | 'T' => zeroPadded 2 tm.hour ++ ':' :: zeroPadded 2 tm.min ++ ':' :: zeroPadded 2 tm.sec
  | 'Z' => tm.zone
  | c => ['%', c]

def Tm.expand (tm : Tm) : Text → Text
  | '%' :: c :: format => tm.conversion c ++ tm.expand format
  | c :: format => c :: tm.expand format
  | [] => []

/-- `strftime(buf, max, format, tm)`; nothing if the text does not fit with its NUL. -/
def strftime (max : Nat) (format : Text) (tm : Tm) : Option Text :=
  if (tm.expand format).length < max then some (tm.expand format) else none

theorem zeroPadded_eq {w n : Nat} (hn : n < 10 ^ w) (hw : 0 < w) : zeroPadded w n = fixed 10 w n :=
  (fixed_eq_pad (by decide) hn hw).symm

/-- A number with four digits needs no padding. -/
theorem decimal_eq {n : Int} (hlow : 1000 ≤ n) (hhigh : n ≤ 9999) : decimal n = fixed 10 4 n.toNat := by
  obtain ⟨k, rfl⟩ := Int.eq_ofNat_of_zero_le (by omega : 0 ≤ n)
  have hsign : ¬ (k : Int) < 0 := by omega
  have hlength : (digitsOf 10 k).length = 4 := by
    rw [digitsOf, if_neg (by omega), List.length_reverse]
    have hle := (Nat.digits_length_le_iff (by decide : 1 < 10) k (k := 4)).mpr (by omega)
    have hgt := (Nat.digits_length_le_iff (by decide : 1 < 10) k (k := 3)).not.mpr (by omega)
    omega
  rw [Int.toNat_natCast, fixed_eq_pad (by decide) (by omega) (by decide), hlength]
  simp [decimal, Numeral.text, Numeral.ofInt, hsign, Sign.text]

theorem spacePadded_eq {n : Int} (hlow : 1000 ≤ n) (hhigh : n ≤ 9999) :
    spacePadded 4 n = fixed 10 4 n.toNat := by
  simp [spacePadded, decimal_eq hlow hhigh]

end Skunk.Posix
