import Skunk.Text.Fixed
import Skunk.Time.Calendar

/-!
# How moments are written

Two texts for a moment of the years 0 to 9999. `isoText` has the greater units first, so that such texts
compare as the moments do (`isoText_lt_iff`). `httpText` is the date of the header fields of HTTP, which is
read back with its day of the week (`readHttp_eq_some_iff`).
-/

namespace Skunk.Time

open Skunk.Text

/-! ## Greater units first -/

/-- A time of day, as in `23:59:59`. -/
def Moment.clock (m : Moment) : List Char :=
  fixed 10 2 m.hour ++ ':' :: (fixed 10 2 m.minute ++ ':' :: fixed 10 2 m.second)

def Date.isoText (d : Date) : List Char :=
  fixed 10 4 d.year.toNat ++ '-' :: (fixed 10 2 (d.month + 1) ++ '-' :: fixed 10 2 d.day)

def Moment.isoText (m : Moment) : List Char := m.date.isoText ++ 'T' :: m.clock

def Date.FourDigits (d : Date) : Prop := 0 ≤ d.year ∧ d.year ≤ 9999

section Order

variable {d e : Date} {m m' : Moment}

@[simp] theorem Date.length_isoText (d : Date) : d.isoText.length = 10 := by simp [Date.isoText]

@[simp] theorem Moment.length_clock (m : Moment) : m.clock.length = 8 := by simp [Moment.clock]

/-- Whatever separates two parts is the same in both texts. -/
theorem sep_lt_sep_iff {w a b : Nat} {c : Char} {s t : List Char} (ha : a < 10 ^ w) (hb : b < 10 ^ w) :
    fixed 10 w a ++ c :: s < fixed 10 w b ++ c :: t ↔ a < b ∨ a = b ∧ s < t := by
  have heq : fixed 10 w a = fixed 10 w b ↔ a = b := ⟨fixed_inj ha hb, fun h => by rw [h]⟩
  rw [append_lt_append_iff (by simp), fixed_lt_fixed_iff ha hb, heq, List.cons_lt_cons_iff]
  simp

theorem Date.month_lt_hundred (d : Date) : d.month + 1 < 10 ^ 2 := by
  have hmonth := d.month_lt
  omega

theorem Date.day_lt_hundred (d : Date) : d.day < 10 ^ 2 := by
  have hday := d.day_le
  have hmost := daysIn_le (isLeap d.year) d.month
  omega

theorem Date.isoText_lt_iff (hd : d.FourDigits) (he : e.FourDigits) :
    d.isoText < e.isoText ↔ d.toDays < e.toDays := by
  obtain ⟨hd, hd'⟩ := hd
  obtain ⟨he, he'⟩ := he
  rw [Date.isoText, Date.isoText, sep_lt_sep_iff (by omega) (by omega),
    sep_lt_sep_iff d.month_lt_hundred e.month_lt_hundred,
    fixed_lt_fixed_iff d.day_lt_hundred e.day_lt_hundred, Date.toDays_lt_iff]
  omega

theorem Date.isoText_inj (hd : d.FourDigits) (he : e.FourDigits) (h : d.isoText = e.isoText) : d = e := by
  rcases lt_trichotomy d.toDays e.toDays with hlt | heq | hgt
  · have hless := (Date.isoText_lt_iff hd he).mpr hlt
    rw [h] at hless
    exact absurd hless (List.lt_irrefl _)
  · exact Date.equivDays.injective heq
  · have hless := (Date.isoText_lt_iff he hd).mpr hgt
    rw [h] at hless
    exact absurd hless (List.lt_irrefl _)

theorem Moment.clock_lt_iff : m.clock < m'.clock ↔
    m.hour * 3600 + m.minute * 60 + m.second < m'.hour * 3600 + m'.minute * 60 + m'.second := by
  have hhour := m.hour_lt
  have hminute := m.minute_lt
  have hsecond := m.second_lt
  have hhour' := m'.hour_lt
  have hminute' := m'.minute_lt
  have hsecond' := m'.second_lt
  rw [Moment.clock, Moment.clock, sep_lt_sep_iff (by omega) (by omega), sep_lt_sep_iff (by omega) (by omega),
    fixed_lt_fixed_iff (by omega) (by omega)]
  omega

/-- The text of the later moment is the greater one. -/
theorem Moment.isoText_lt_iff (hm : m.date.FourDigits) (hm' : m'.date.FourDigits) :
    m.isoText < m'.isoText ↔ m.toSeconds < m'.toSeconds := by
  have hhour := m.hour_lt
  have hminute := m.minute_lt
  have hsecond := m.second_lt
  have hhour' := m'.hour_lt
  have hminute' := m'.minute_lt
  have hsecond' := m'.second_lt
  have hdays : m.date.isoText = m'.date.isoText ↔ m.date.toDays = m'.date.toDays := by
    constructor
    · intro h
      rw [Date.isoText_inj hm hm' h]
    · intro h
      rw [Date.equivDays.injective h]
  rw [Moment.isoText, Moment.isoText, append_lt_append_iff (by simp), Date.isoText_lt_iff hm hm', hdays,
    List.cons_lt_cons_iff, Moment.clock_lt_iff, Moment.toSeconds, Moment.toSeconds]
  have hsame : ¬ 'T' < 'T' := by decide
  simp only [hsame, true_and, false_or]
  omega

end Order

/-! ## Dates for header fields -/

def dayNames : List (List Char) := ["Sun", "Mon", "Tue", "Wed", "Thu", "Fri", "Sat"].map String.toList

def monthNames : List (List Char) :=
  ["Jan", "Feb", "Mar", "Apr", "May", "Jun", "Jul", "Aug", "Sep", "Oct", "Nov", "Dec"].map String.toList

theorem exists_dayName {i : Nat} (hi : i < 7) : ∃ a b c, dayNames.getD i [] = [a, b, c] := by
  have hlength : ∀ i < 7, (dayNames.getD i []).length = 3 := by decide
  exact List.length_eq_three.mp (hlength i hi)

theorem exists_monthName {i : Nat} (hi : i < 12) : ∃ a b c, monthNames.getD i [] = [a, b, c] := by
  have hlength : ∀ i < 12, (monthNames.getD i []).length = 3 := by decide
  exact List.length_eq_three.mp (hlength i hi)

theorem idxOf_monthName {i : Nat} (hi : i < 12) : monthNames.idxOf (monthNames.getD i []) = i := by
  have hall : ∀ i < 12, monthNames.idxOf (monthNames.getD i []) = i := by decide
  exact hall i hi

/-- The date of a header field, as in `Thu, 01 Jan 1970 00:00:00 GMT`. -/
def Moment.httpText (m : Moment) : List Char :=
  dayNames.getD m.date.weekday [] ++ ',' :: ' ' :: (fixed 10 2 m.date.day ++ ' ' ::
    (monthNames.getD m.date.month [] ++ ' ' :: (fixed 10 4 m.date.year.toNat ++ ' ' ::
      (m.clock ++ " GMT".toList))))

/-- The moment with these fields, if there is one. -/
def Moment.mk? (year month day hour minute second : Nat) : Option Moment :=
  if h : (month < 12 ∧ 0 < day ∧ day ≤ daysIn (isLeap year) month) ∧ hour < 24 ∧ minute < 60 ∧ second < 60 then
    some ⟨⟨year, month, day, h.1.1, h.1.2.1, h.1.2.2⟩, hour, minute, second, h.2.1, h.2.2.1, h.2.2.2⟩
  else none

theorem Moment.mk?_self {m : Moment} (hm : 0 ≤ m.date.year) :
    Moment.mk? m.date.year.toNat m.date.month m.date.day m.hour m.minute m.second = some m := by
  obtain ⟨⟨year, month, day, hmonth, hpos, hle⟩, hour, minute, second, hhour, hminute, hsecond⟩ := m
  obtain ⟨n, rfl⟩ := Int.eq_ofNat_of_zero_le hm
  unfold Moment.mk?
  rw [dif_pos ⟨⟨hmonth, hpos, hle⟩, hhour, hminute, hsecond⟩]
  simp

/-- The digits from a place on. -/
def readAt (s : List Char) (pos w : Nat) : Option Nat := (readFixed 10 w 0 (s.drop pos)).map Prod.fst

/-- The moment of a header field: the fields have their places, and the text must be that of the moment. -/
def readHttp (s : List Char) : Option Moment := do
  let day ← readAt s 5 2
  let year ← readAt s 12 4
  let hour ← readAt s 17 2
  let minute ← readAt s 20 2
  let second ← readAt s 23 2
  let m ← Moment.mk? year (monthNames.idxOf ((s.drop 8).take 3)) day hour minute second
  if m.httpText = s then some m else none

theorem readAt_fixed {s rest : List Char} {pos w n : Nat} (hs : s.drop pos = fixed 10 w n ++ rest)
    (hn : n < 10 ^ w) : readAt s pos w = some n := by
  rw [readAt, hs, readFixed_fixed (by decide) (by decide), Nat.mod_eq_of_lt hn]
  simp

theorem readHttp_httpText {m : Moment} (hm : m.date.FourDigits) : readHttp m.httpText = some m := by
  obtain ⟨hyear, hyear'⟩ := hm
  have hhour := m.hour_lt
  have hminute := m.minute_lt
  have hsecond := m.second_lt
  obtain ⟨a, b, c, hday⟩ := exists_dayName m.date.weekday_lt
  obtain ⟨x, y, z, hmonth⟩ := exists_monthName m.date.month_lt
  -- where the fields are
  have htext : m.httpText = a :: b :: c :: ',' :: ' ' :: (fixed 10 2 m.date.day ++ ' ' :: x :: y :: z ::
      ' ' :: (fixed 10 4 m.date.year.toNat ++ ' ' :: (m.clock ++ " GMT".toList))) := by
    rw [Moment.httpText, hday, hmonth]
    rfl
  have hname : (m.httpText.drop 8).take 3 = monthNames.getD m.date.month [] := by
    rw [htext, hmonth]
    rfl
  have h₅ : readAt m.httpText 5 2 = some m.date.day := readAt_fixed (by rw [htext]; rfl) m.date.day_lt_hundred
  have h₁₂ : readAt m.httpText 12 4 = some m.date.year.toNat := readAt_fixed (by rw [htext]; rfl) (by omega)
  have h₁₇ : readAt m.httpText 17 2 = some m.hour := readAt_fixed (by rw [htext]; rfl) (by omega)
  have h₂₀ : readAt m.httpText 20 2 = some m.minute := readAt_fixed (by rw [htext]; rfl) (by omega)
  have h₂₃ : readAt m.httpText 23 2 = some m.second := readAt_fixed (by rw [htext]; rfl) (by omega)
  rw [readHttp, h₅, h₁₂, h₁₇, h₂₀, h₂₃, hname, idxOf_monthName m.date.month_lt]
  simp [Moment.mk?_self hyear]

theorem readAt_lt {s : List Char} {pos w n : Nat} (h : readAt s pos w = some n) : n < 10 ^ w := by
  obtain ⟨⟨n', rest⟩, hread, rfl⟩ := Option.map_eq_some_iff.mp h
  simpa using readFixed_lt hread

theorem Moment.year_mk? {year month day hour minute second : Nat} {m : Moment}
    (h : Moment.mk? year month day hour minute second = some m) : m.date.year = year := by
  unfold Moment.mk? at h
  split at h
  · cases h
    rfl
  · cases h

/-- What is read is the date of the moment, and nothing else is. -/
theorem readHttp_eq_some_iff {s : List Char} {m : Moment} :
    readHttp s = some m ↔ m.httpText = s ∧ m.date.FourDigits := by
  constructor
  · intro h
    unfold readHttp at h
    simp only [Option.bind_eq_bind, Option.bind_eq_some_iff] at h
    obtain ⟨day, -, year, hyear, hour, -, minute, -, second, -, m', hm', h⟩ := h
    split at h
    next htext =>
      cases h
      have hlt := readAt_lt hyear
      refine ⟨htext, ?_⟩
      rw [Date.FourDigits, Moment.year_mk? hm']
      omega
    · cases h
  · rintro ⟨rfl, hm⟩
    exact readHttp_httpText hm

end Skunk.Time
