import Mathlib.Data.UInt
import Skunk.BesUtils.BesDebug
import Skunk.BesUtils.Www2id
import Skunk.Text.Numeral

/-!
# `BESContextManager`

The contexts of a request, by their names, and the numbers that some of them are read as.

`strtol` skips white space and reads a numeral, and what comes behind it is left (`subject_eq_some_iff`).
Where there is no numeral the number is 0, and one that is too large is the largest there is, with `errno`
set. `get_context_int` and `get_context_uint64` look at `errno` only if the number is 0, and not at what is
left. So they throw for numbers that are far too small and for nothing else, and give a number for any
text: `getContext_denotes_iff` says when it is the right one.
-/

namespace Skunk.BesUtils

open Posix Container Explode Skunk.Text

structure ContextManager where
  contextList : OrdMap Text Text

/-! ## Reading numbers -/

/-- What `strtol` and `strtoull` give: a number, what `endptr` points to, and `errno`, which was 0. -/
structure Conversion (α : Type) where
  val : α
  endptr : Text
  errno : Nat

def erange : Nat := 34

/-- The numeral at the beginning of a C string, in base 10, and what comes behind it. -/
def subject (s : Text) : Option (Numeral 10 × Text) := scan 10 ((cStr s).dropWhile isSpace)

def strtol (s : Text) : Conversion Int :=
  match subject s with
  | none => ⟨0, cStr s, 0⟩
  | some (N, rest) =>
    if N.value > 2 ^ 63 - 1 then ⟨2 ^ 63 - 1, rest, erange⟩
    else if N.value < -2 ^ 63 then ⟨-2 ^ 63, rest, erange⟩
    else ⟨N.value, rest, 0⟩

/-- `strtoull`, which negates without a sign. -/
def strtoull (s : Text) : Conversion UInt64 :=
  match subject s with
  | none => ⟨0, cStr s, 0⟩
  | some (N, rest) =>
    if N.magnitude > 2 ^ 64 - 1 then ⟨.ofNat (2 ^ 64 - 1), rest, erange⟩
    else ⟨if N.sign = .minus then -.ofNat N.magnitude else .ofNat N.magnitude, rest, 0⟩

def intOfLong (val : Int) : Int := Int.bmod val (2 ^ 32)

namespace ContextManager

def setContext (name value : Text) (m : ContextManager) : ContextManager := ⟨m.contextList.set name value⟩

/-- `get_context`, and `found`. -/
def getContext (name : Text) (m : ContextManager) : Text × Bool :=
  match m.contextList.find name with
  | some value => (value, true)
  | none => ([], false)

variable (strerror : Nat → Text)

/-- What is thrown. -/
def readError (name : Text) (errno : Nat) : BesInternalError :=
  ⟨"Error reading an integer value for the context '".toList ++ name ++ "': ".toList ++ strerror errno⟩

/-- `get_context_int`, and `found`. -/
def getContextInt (name : Text) (m : ContextManager) : Except BesInternalError Int × Bool :=
  let (value, found) := m.getContext name
  if !found || value.isEmpty then (.ok 0, found)
  else
    let converted := strtol value
    let val := intOfLong converted.val
    if val = 0 ∧ converted.errno > 0 then (.error (readError strerror name converted.errno), found)
    else (.ok val, found)

/-- `get_context_uint64`, and `found`. -/
def getContextUint64 (name : Text) (m : ContextManager) : Except BesInternalError UInt64 × Bool :=
  let (value, found) := m.getContext name
  if !found || value.isEmpty then (.ok 0, found)
  else
    let converted := strtoull value
    let val := converted.val
    if val = 0 ∧ converted.errno > 0 then (.error (readError strerror name converted.errno), found)
    else (.ok val, found)

end ContextManager

/-! ## Texts that begin with a numeral -/

/-- White space, a numeral, and a rest that does not go on with a digit. -/
structure Begins (value : Text) (N : Numeral 10) (rest : Text) : Prop where
  text : ∃ white, (∀ c ∈ white, isSpace c = true) ∧ value = white ++ (N.text ++ rest)
  noDigit : NoDigit 10 rest

/-- The whole text denotes the number in decimal. White space in front, which `strtol` skips, is allowed. -/
def Denotes (value : Text) (n : Int) : Prop := ∃ N, Begins value N [] ∧ N.value = n

/-- No character of a numeral is white space or the end of a C string. -/
theorem text_not_space {N : Numeral 10} {c : Char} (h : c ∈ N.text) : isSpace c = false ∧ c ≠ '\x00' := by
  have hall : ('+' :: '-' :: digitChars).all (fun c => !isSpace c && c != '\x00') = true := by decide
  have hmem := N.mem_text (by decide) h
  simpa using List.all_eq_true.mp hall c hmem

/-- A C string ends with the text or at the first NUL. -/
theorem exists_eq_cStr_append (s : Text) : ∃ behind, s = cStr s ++ behind ∧ cStr behind = [] ∧
    NoDigit 10 behind := by
  rcases split_at_first '\x00' s with ⟨-, hall⟩ | ⟨front, behind, rfl, -, hfront, -⟩
  · refine ⟨[], ?_, rfl, by simp [NoDigit]⟩
    rw [List.append_nil]
    exact hall.symm
  · refine ⟨'\x00' :: behind, ?_, rfl, ?_⟩
    · unfold cStr
      rw [hfront]
    · intro c hc
      obtain rfl : '\x00' = c := by simpa using hc
      decide

theorem noDigit_cStr {behind : Text} (h : NoDigit 10 behind) : NoDigit 10 (cStr behind) := by
  intro c hc
  cases behind with
  | nil => cases hc
  | cons d ds =>
      by_cases hd : d = '\x00'
      · rw [hd] at hc
        cases hc
      · apply h
        simpa [cStr, hd] using hc

/-- What `strtol` reads is what stands there, up to a NUL. -/
theorem subject_eq_some_iff {value : Text} {N : Numeral 10} {rest : Text} :
    subject value = some (N, rest) ↔ ∃ behind, Begins value N behind ∧ rest = cStr behind := by
  unfold subject
  rw [scan_eq_some_iff (by decide)]
  constructor
  · rintro ⟨hread, hrest⟩
    obtain ⟨behind, hvalue, hend, hbehind⟩ := exists_eq_cStr_append value
    have hsplit := (cStr value).takeWhile_append_dropWhile (p := isSpace)
    -- what is left ends where the C string does, and the value goes on with the NUL and what is behind it
    have hnul : '\x00' ∉ rest := by
      intro hmem
      apply notMem_cStr value
      rw [← hsplit, hread]
      simp [hmem]
    refine ⟨rest ++ behind, ⟨⟨(cStr value).takeWhile isSpace, ?_, ?_⟩, ?_⟩, ?_⟩
    · intro c hc
      exact List.mem_takeWhile_imp hc
    · rw [← List.append_assoc N.text, ← hread, ← List.append_assoc, hsplit]
      exact hvalue
    · -- a numeral at the end of the C string has a NUL behind it, or nothing
      cases rest with
      | nil => exact hbehind
      | cons c cs => exact hrest
    · rw [cStr_append_of_notMem hnul, hend, List.append_nil]
  · rintro ⟨behind, ⟨⟨white, hwhite, rfl⟩, hbehind⟩, rfl⟩
    have hwhite' : '\x00' ∉ white := fun hmem => absurd (hwhite _ hmem) (by decide)
    have htext : '\x00' ∉ N.text := fun hmem => (text_not_space hmem).2 rfl
    refine ⟨?_, noDigit_cStr hbehind⟩
    rw [cStr_append_of_notMem hwhite', cStr_append_of_notMem htext,
      List.dropWhile_append_of_pos hwhite]
    cases hN : N.text with
    | nil => exact absurd hN N.text_ne_nil
    | cons c cs =>
        have hc : c ∈ N.text := by simp [hN]
        exact List.dropWhile_cons_of_neg (by simp [(text_not_space hc).1])

/-! ## What the numbers are -/

theorem subject_of_denotes {value : Text} {n : Int} (h : Denotes value n) :
    ∃ N, subject value = some (N, []) ∧ N.value = n := by
  obtain ⟨N, hbegins, hN⟩ := h
  exact ⟨N, subject_eq_some_iff.mpr ⟨[], hbegins, rfl⟩, hN⟩

/-- A `long` that is denoted is read. -/
theorem strtol_of_denotes {value : Text} {n : Int} (h : Denotes value n)
    (hn : -2 ^ 63 ≤ n ∧ n ≤ 2 ^ 63 - 1) : strtol value = ⟨n, [], 0⟩ := by
  obtain ⟨N, hsubject, rfl⟩ := subject_of_denotes h
  unfold strtol
  rw [hsubject]
  dsimp only
  rw [if_neg (by omega), if_neg (by omega)]

theorem strtoull_of_denotes {value : Text} {n : Int} (h : Denotes value n) (hn : 0 ≤ n ∧ n < 2 ^ 64) :
    strtoull value = ⟨.ofNat n.toNat, [], 0⟩ := by
  obtain ⟨N, hsubject, rfl⟩ := subject_of_denotes h
  unfold strtoull
  rw [hsubject]
  dsimp only
  unfold Numeral.value at hn ⊢
  by_cases hsign : N.sign = .minus
  · -- only zero is not negative then
    rw [if_pos hsign] at hn ⊢
    have hzero : N.magnitude = 0 := by omega
    rw [if_pos hsign, hzero, if_neg (by decide)]
    rfl
  · rw [if_neg hsign] at hn ⊢
    rw [if_neg hsign, if_neg (by omega), Int.toNat_natCast]

/-- `errno` is set for a number that is 0 as an `int` only if there is a numeral below all numbers. -/
theorem strtol_errno_iff (value : Text) : intOfLong (strtol value).val = 0 ∧ (strtol value).errno > 0 ↔
    ∃ N behind, Begins value N behind ∧ N.value < -2 ^ 63 := by
  have hsame : (∃ N behind, Begins value N behind ∧ N.value < -2 ^ 63) ↔
      ∃ N rest, subject value = some (N, rest) ∧ N.value < -2 ^ 63 := by
    simp only [subject_eq_some_iff]
    grind
  rw [hsame]
  unfold strtol
  cases hsubject : subject value with
  | none => simp
  | some read =>
      obtain ⟨N, rest⟩ := read
      have hread : (∃ N' rest', some (N, rest) = some (N', rest') ∧ N'.value < -2 ^ 63) ↔
          N.value < -2 ^ 63 := by simp
      rw [hread]
      dsimp only
      split
      next hlarge =>
        -- the largest `long` is -1 as an `int`
        apply iff_of_false
        · rintro ⟨hzero, -⟩
          cases hzero
        · omega
      · split
        next hsmall => exact iff_of_true ⟨rfl, Nat.succ_pos _⟩ hsmall
        next hlarge =>
          apply iff_of_false
          · simp
          · exact hlarge

/-- `errno` is never set for the number 0. -/
theorem strtoull_errno (value : Text) : ¬ ((strtoull value).val = 0 ∧ (strtoull value).errno > 0) := by
  unfold strtoull
  split
  · simp
  · split
    · rintro ⟨hzero, -⟩
      cases hzero
    · simp

/-! ## What the contexts are read as -/

/-- A number that is given is the one that the value denotes. -/
def Faithful {α : Type} (value : Text) (toInteger : α → Int) (result : Except BesInternalError α) : Prop :=
  ∀ n, result = .ok n → Denotes value (toInteger n)

namespace ContextManager

variable {strerror : Nat → Text} {m : ContextManager} {name value : Text}

/-- `errno` is looked at only where the number is 0. -/
theorem getContextInt_found (hfound : m.contextList.find name = some value) (hvalue : value ≠ []) :
    (m.getContextInt strerror name).1 =
      if intOfLong (strtol value).val = 0 ∧ (strtol value).errno > 0 then
        .error (readError strerror name (strtol value).errno)
      else .ok (intOfLong (strtol value).val) := by
  simp only [getContextInt, getContext, hfound]
  rw [if_neg (by simpa using hvalue)]
  split <;> rfl

theorem getContextUint64_found (hfound : m.contextList.find name = some value) (hvalue : value ≠ []) :
    (m.getContextUint64 strerror name).1 = .ok (strtoull value).val := by
  simp only [getContextUint64, getContext, hfound]
  rw [if_neg (by simpa using hvalue), if_neg (strtoull_errno value)]

theorem intOfLong_range (val : Int) : -2 ^ 31 ≤ intOfLong val ∧ intOfLong val < 2 ^ 31 := by
  unfold intOfLong
  rw [Int.bmod_def]
  split <;> omega

theorem intOfLong_eq {val : Int} (h : -2 ^ 31 ≤ val ∧ val < 2 ^ 31) : intOfLong val = val := by
  unfold intOfLong
  rw [Int.bmod_def]
  split <;> omega

/-- A number that is denoted and is an `int` is what one gets. -/
theorem getContextInt_denotes (hfound : m.contextList.find name = some value) (hvalue : value ≠ []) {n : Int}
    (h : Denotes value n) (hn : -2 ^ 31 ≤ n ∧ n < 2 ^ 31) :
    (m.getContextInt strerror name).1 = .ok n := by
  rw [getContextInt_found hfound hvalue, strtol_of_denotes h (by omega), if_neg (by simp), intOfLong_eq hn]

theorem getContextUint64_denotes (hfound : m.contextList.find name = some value) (hvalue : value ≠ [])
    {n : Int} (h : Denotes value n) (hn : 0 ≤ n ∧ n < 2 ^ 64) :
    (m.getContextUint64 strerror name).1 = .ok (.ofNat n.toNat) := by
  rw [getContextUint64_found hfound hvalue, strtoull_of_denotes h hn]

/-- Where an `int` is given, it is the one the value denotes exactly in these two cases. -/
theorem getContextInt_faithful_iff (hfound : m.contextList.find name = some value) (hvalue : value ≠ []) :
    Faithful value id (m.getContextInt strerror name).1 ↔
      (∃ n, Denotes value n ∧ -2 ^ 31 ≤ n ∧ n < 2 ^ 31) ∨
        ∃ N behind, Begins value N behind ∧ N.value < -2 ^ 63 := by
  constructor
  · intro hfaithful
    rw [← strtol_errno_iff]
    by_cases herror : intOfLong (strtol value).val = 0 ∧ (strtol value).errno > 0
    · exact .inr herror
    · left
      rw [getContextInt_found hfound hvalue, if_neg herror] at hfaithful
      exact ⟨_, hfaithful _ rfl, intOfLong_range _⟩
  · rintro (⟨n, h, hn⟩ | hsmall)
    · intro n' hn'
      rw [getContextInt_denotes hfound hvalue h hn] at hn'
      cases hn'
      exact h
    · intro n hn
      rw [getContextInt_found hfound hvalue, if_pos ((strtol_errno_iff value).mpr hsmall)] at hn
      cases hn

theorem getContextUint64_faithful_iff (hfound : m.contextList.find name = some value) (hvalue : value ≠ []) :
    Faithful value (fun n : UInt64 => (n.toNat : Int)) (m.getContextUint64 strerror name).1 ↔
      ∃ n, Denotes value n ∧ 0 ≤ n ∧ n < 2 ^ 64 := by
  constructor
  · intro hfaithful
    rw [getContextUint64_found hfound hvalue] at hfaithful
    have hdenotes : Denotes value ((strtoull value).val.toNat : Int) := hfaithful _ rfl
    have hlt := (strtoull value).val.toNat_lt
    exact ⟨_, hdenotes, by omega, by omega⟩
  · rintro ⟨n, h, hn⟩ n' hn'
    rw [getContextUint64_denotes hfound hvalue h hn] at hn'
    cases hn'
    have hsame : ((UInt64.ofNat n.toNat).toNat : Int) = n := by
      rw [UInt64.toNat_ofNat_of_lt' (by simp only [UInt64.size]; omega)]
      omega
    show Denotes value ((UInt64.ofNat n.toNat).toNat : Int)
    rw [hsame]
    exact h

/-- A number that is given for a value is the one it denotes exactly if it denotes one in the range of the
type, or, for an `int`, if it begins with a numeral that is below every `long`. -/
theorem getContext_denotes_iff (strerror : Nat → Text) (hfound : m.contextList.find name = some value)
    (hvalue : value ≠ []) :
    (Faithful value id (m.getContextInt strerror name).1 ↔
        (∃ n, Denotes value n ∧ -2 ^ 31 ≤ n ∧ n < 2 ^ 31) ∨
          ∃ N behind, Begins value N behind ∧ N.value < -2 ^ 63) ∧
      (Faithful value (fun n : UInt64 => (n.toNat : Int)) (m.getContextUint64 strerror name).1 ↔
        ∃ n, Denotes value n ∧ 0 ≤ n ∧ n < 2 ^ 64) :=
  ⟨getContextInt_faithful_iff hfound hvalue, getContextUint64_faithful_iff hfound hvalue⟩

def withValue (value : Text) : ContextManager := setContext ['n'] value ⟨.empty⟩

/-- A number with white space in front. -/
theorem getContext_denotes_iff_number :
    (Faithful " 42".toList id ((withValue " 42".toList).getContextInt (fun _ => []) ['n']).1 ↔
        (∃ n, Denotes " 42".toList n ∧ -2 ^ 31 ≤ n ∧ n < 2 ^ 31) ∨
          ∃ N behind, Begins " 42".toList N behind ∧ N.value < -2 ^ 63) ∧
      (Faithful " 42".toList (fun n : UInt64 => (n.toNat : Int))
          ((withValue " 42".toList).getContextUint64 (fun _ => []) ['n']).1 ↔
        ∃ n, Denotes " 42".toList n ∧ 0 ≤ n ∧ n < 2 ^ 64) :=
  getContext_denotes_iff (fun _ => []) rfl (by decide)

/-- What is no number at all is read as 0. -/
theorem getContextInt_garbage :
    ¬ ∀ (strerror : Nat → Text) (m : ContextManager) (name value : Text),
      m.contextList.find name = some value → value ≠ [] →
        Faithful value id (m.getContextInt strerror name).1 ∧
          Faithful value (fun n : UInt64 => (n.toNat : Int)) (m.getContextUint64 strerror name).1 := by
  intro hall
  obtain ⟨hint, -⟩ := hall (fun _ => []) (withValue "abc".toList) ['n'] "abc".toList rfl (by decide)
  obtain ⟨N, hsubject, -⟩ := subject_of_denotes (hint 0 rfl)
  cases hsubject

end ContextManager

end Skunk.BesUtils
