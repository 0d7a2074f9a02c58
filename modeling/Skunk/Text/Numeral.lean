import Mathlib.Data.Nat.Digits.Lemmas
import Mathlib.Data.List.GetD
import Mathlib.Data.List.Nodup

/-!
# Numerals

A numeral in a base has a sign and at least one digit, the most significant one first. `Numeral.text` is
how it is written, `Numeral.value` the number it stands for.

`scan` reads a sign and as many digits as there are. It is characterised by what it reads:

    scan_eq_some_iff : scan base s = some (N, rest) ↔ s = N.text ++ rest ∧ NoDigit base rest

`ofInt` is the numeral of a number that is written without a plus sign and without a leading zero.
-/

namespace Skunk.Text

/-! ## Digits -/

/-- The digits of the bases up to 36. -/
def digitChars : List Char := "0123456789abcdefghijklmnopqrstuvwxyz".toList

theorem nodup_digitChars : digitChars.Nodup := by decide

def digitChar (d : Nat) : Char := digitChars.getD d ' '

def digitValue (base : Nat) (c : Char) : Option Nat :=
  let d := digitChars.idxOf c
  if d < base then some d else none

theorem digitValue_digitChar {base d : Nat} (hbase : base ≤ 36) (hd : d < base) :
    digitValue base (digitChar d) = some d := by
  have hlength : d < digitChars.length := Nat.lt_of_lt_of_le hd hbase
  have hindex : digitChars.idxOf (digitChar d) = d := by
    rw [digitChar, List.getD_eq_getElem _ _ hlength]
    exact List.Nodup.idxOf_getElem nodup_digitChars d hlength
  unfold digitValue
  rw [hindex]
  exact if_pos hd

theorem digitValue_lt {base d : Nat} {c : Char} (h : digitValue base c = some d) :
    digitChars.idxOf c = d ∧ d < base := by
  unfold digitValue at h
  dsimp only at h
  split at h
  next hlt =>
    cases h
    exact ⟨rfl, hlt⟩
  · cases h

theorem digitChar_of_digitValue {base d : Nat} {c : Char} (hbase : base ≤ 36)
    (h : digitValue base c = some d) : digitChar d = c := by
  obtain ⟨rfl, hlt⟩ := digitValue_lt h
  have hlength : digitChars.idxOf c < digitChars.length := Nat.lt_of_lt_of_le hlt hbase
  rw [digitChar, List.getD_eq_getElem _ _ hlength, List.getElem_idxOf]

/-- No sign and nothing else that is not a digit is written for one. -/
theorem digitChar_mem {d : Nat} (hd : d < 36) : digitChar d ∈ digitChars := by
  have hlength : d < digitChars.length := hd
  rw [digitChar, List.getD_eq_getElem _ _ hlength]
  exact List.getElem_mem hlength

/-! ## Numerals -/

inductive Sign
  | none
  | plus
  | minus
  deriving DecidableEq, Repr

def Sign.text : Sign → List Char
  | .none => []
  | .plus => ['+']
  | .minus => ['-']

/-- A sign and digits of a base. -/
@[ext] structure Numeral (base : Nat) where
  sign : Sign
  digits : List Nat
  digits_ne_nil : digits ≠ []
  lt_base : ∀ d ∈ digits, d < base

namespace Numeral

variable {base : Nat} (N : Numeral base)

def text : List Char := N.sign.text ++ N.digits.map digitChar

/-- The number that the digits stand for. -/
def magnitude : Nat := Nat.ofDigits base N.digits.reverse

def value : Int := if N.sign = .minus then - (N.magnitude : Int) else N.magnitude

/-- No plus sign, a minus sign for negative numbers only, and no zero in front of other digits. -/
structure Canonical : Prop where
  not_plus : N.sign ≠ .plus
  minus : N.sign = .minus → N.value < 0
  no_zero : N.digits.head? = some 0 → N.digits = [0]

theorem text_ne_nil : N.text ≠ [] := by
  intro hnil
  have hmap := (List.append_eq_nil_iff.mp hnil).2
  exact N.digits_ne_nil (List.map_eq_nil_iff.mp hmap)

theorem mem_text (hbase : base ≤ 36) {c : Char} (h : c ∈ N.text) : c ∈ '+' :: '-' :: digitChars := by
  rcases List.mem_append.mp h with hsign | hdigit
  · obtain ⟨sign, digits, hne, hlt⟩ := N
    cases sign <;> simp_all [Sign.text]
  · obtain ⟨d, hd, rfl⟩ := List.mem_map.mp hdigit
    have hmem := digitChar_mem (Nat.lt_of_lt_of_le (N.lt_base d hd) hbase)
    exact List.mem_cons_of_mem _ (List.mem_cons_of_mem _ hmem)

theorem magnitude_lt (hbase : 1 < base) : N.magnitude < base ^ N.digits.length := by
  have hlt := Nat.ofDigits_lt_base_pow_length hbase (l := N.digits.reverse)
    (fun d hd => N.lt_base d (List.mem_reverse.mp hd))
  rwa [List.length_reverse] at hlt

end Numeral

/-! ## Reading -/

/-- The digits in front, and what comes behind them. -/
def scanDigits (base : Nat) : List Char → List Nat × List Char
  | [] => ([], [])
  | c :: cs =>
    match digitValue base c with
    | some d => (d :: (scanDigits base cs).1, (scanDigits base cs).2)
    | none => ([], c :: cs)

/-- The sign in front, and what comes behind it. -/
def scanSign : List Char → Sign × List Char
  | '-' :: cs => (.minus, cs)
  | '+' :: cs => (.plus, cs)
  | cs => (.none, cs)

/-- The text does not go on with a digit. -/
def NoDigit (base : Nat) (rest : List Char) : Prop := ∀ c ∈ rest.head?, digitValue base c = none

variable {base : Nat}

theorem scanDigits_lt (s : List Char) : ∀ d ∈ (scanDigits base s).1, d < base := by
  induction s with
  | nil => simp [scanDigits]
  | cons c cs ih =>
      rw [scanDigits]
      cases hc : digitValue base c with
      | none => simp
      | some d => simpa using ⟨(digitValue_lt hc).2, ih⟩

/-- A numeral in front, and what comes behind it. -/
def scan (base : Nat) (s : List Char) : Option (Numeral base × List Char) :=
  let signed := scanSign s
  let read := scanDigits base signed.2
  if h : read.1 = [] then none
  else some (⟨signed.1, read.1, h, scanDigits_lt signed.2⟩, read.2)

theorem scanDigits_append (hbase : base ≤ 36) {ds : List Nat} (hds : ∀ d ∈ ds, d < base) {rest : List Char}
    (hrest : NoDigit base rest) : scanDigits base (ds.map digitChar ++ rest) = (ds, rest) := by
  induction ds with
  | nil =>
      cases rest with
      | nil => rfl
      | cons c cs =>
          have hc := hrest c rfl
          simp [scanDigits, hc]
  | cons d ds ih =>
      obtain ⟨hd, hds⟩ := List.forall_mem_cons.mp hds
      simp [scanDigits, digitValue_digitChar hbase hd, ih hds]

theorem scanDigits_eq (hbase : base ≤ 36) (s : List Char) :
    s = (scanDigits base s).1.map digitChar ++ (scanDigits base s).2 ∧
      NoDigit base (scanDigits base s).2 := by
  induction s with
  | nil => simp [scanDigits, NoDigit]
  | cons c cs ih =>
      rw [scanDigits]
      cases hc : digitValue base c with
      | none => simpa [NoDigit] using hc
      | some d =>
          obtain ⟨hcs, hrest⟩ := ih
          refine ⟨?_, hrest⟩
          rw [List.map_cons, digitChar_of_digitValue hbase hc, List.cons_append, ← hcs]

theorem scanSign_eq (s : List Char) : s = (scanSign s).1.text ++ (scanSign s).2 := by
  unfold scanSign
  split <;> rfl

theorem scanSign_text (hbase : base ≤ 36) (N : Numeral base) (rest : List Char) :
    scanSign (N.text ++ rest) = (N.sign, N.digits.map digitChar ++ rest) := by
  obtain ⟨sign, digits, hne, hlt⟩ := N
  cases sign with
  | plus => rfl
  | minus => rfl
  | none =>
      cases digits with
      | nil => exact absurd rfl hne
      | cons d ds =>
          -- the digit that it begins with is no sign
          have hmem := digitChar_mem (Nat.lt_of_lt_of_le (hlt d List.mem_cons_self) hbase)
          have hminus : digitChar d ≠ '-' := fun h => absurd (h ▸ hmem) (by decide)
          have hplus : digitChar d ≠ '+' := fun h => absurd (h ▸ hmem) (by decide)
          show scanSign (digitChar d :: (ds.map digitChar ++ rest)) = _
          simp [scanSign, hminus, hplus]

/-- What is read is what stands there. -/
theorem scan_eq_some_iff (hbase : base ≤ 36) {s rest : List Char} {N : Numeral base} :
    scan base s = some (N, rest) ↔ s = N.text ++ rest ∧ NoDigit base rest := by
  constructor
  · intro h
    unfold scan at h
    dsimp only at h
    split at h
    · cases h
    next hne =>
      cases h
      obtain ⟨hdigits, hrest⟩ := scanDigits_eq hbase (scanSign s).2
      refine ⟨?_, hrest⟩
      rw [Numeral.text, List.append_assoc, ← hdigits]
      exact scanSign_eq s
  · rintro ⟨rfl, hrest⟩
    have hread := scanDigits_append hbase N.lt_base hrest
    unfold scan
    simp only [scanSign_text hbase, hread, dif_neg N.digits_ne_nil]

/-! ## The numeral of a number -/

/-- The digits of a number, the most significant one first. -/
def digitsOf (base n : Nat) : List Nat := if n = 0 then [0] else (Nat.digits base n).reverse

theorem digitsOf_ne_nil (n : Nat) : digitsOf base n ≠ [] := by
  unfold digitsOf
  split
  · exact List.cons_ne_nil _ _
  next hn => simpa [Nat.digits_eq_nil_iff_eq_zero] using hn

theorem digitsOf_lt (hbase : 1 < base) (n : Nat) : ∀ d ∈ digitsOf base n, d < base := by
  intro d hd
  unfold digitsOf at hd
  split at hd
  · rw [List.mem_singleton] at hd
    omega
  · exact Nat.digits_lt_base hbase (List.mem_reverse.mp hd)

/-- One digit at the end, and in front of it those of the quotient, if there are any. -/
theorem digitsOf_eq (hbase : 1 < base) (n : Nat) :
    digitsOf base n = (if 0 < n / base then digitsOf base (n / base) else []) ++ [n % base] := by
  unfold digitsOf
  by_cases hn : n = 0
  · simp [hn]
  · rw [if_neg hn, Nat.digits_def' hbase (Nat.pos_of_ne_zero hn), List.reverse_cons]
    by_cases hquot : n / base = 0
    · simp [hquot]
    · rw [if_pos (Nat.pos_of_ne_zero hquot), if_neg hquot]

/-- The numeral of a number. -/
def Numeral.ofInt (hbase : 1 < base) (n : Int) : Numeral base where
  sign := if n < 0 then .minus else .none
  digits := digitsOf base n.natAbs
  digits_ne_nil := digitsOf_ne_nil _
  lt_base := digitsOf_lt hbase _

theorem Numeral.magnitude_ofInt (hbase : 1 < base) (n : Int) : (ofInt hbase n).magnitude = n.natAbs := by
  show Nat.ofDigits base (digitsOf base n.natAbs).reverse = n.natAbs
  unfold digitsOf
  split
  next hzero => simp [hzero]
  · rw [List.reverse_reverse, Nat.ofDigits_digits]

theorem Numeral.value_ofInt (hbase : 1 < base) (n : Int) : (ofInt hbase n).value = n := by
  rw [value, magnitude_ofInt]
  by_cases hn : n < 0
  · have hsign : (ofInt hbase n).sign = .minus := if_pos hn
    rw [if_pos hsign]
    omega
  · have hsign : (ofInt hbase n).sign = .none := if_neg hn
    rw [hsign, if_neg (by decide)]
    omega

theorem Numeral.canonical_ofInt (hbase : 1 < base) (n : Int) : (ofInt hbase n).Canonical := by
  constructor
  · show (if n < 0 then Sign.minus else Sign.none) ≠ .plus
    split <;> simp
  · intro hminus
    rw [value_ofInt]
    by_contra hnot
    simp [ofInt, hnot] at hminus
  · show (digitsOf base n.natAbs).head? = some 0 → digitsOf base n.natAbs = [0]
    intro hzero
    unfold digitsOf at hzero ⊢
    split
    · rfl
    next hn =>
      rw [if_neg hn, List.head?_reverse, List.getLast?_eq_some_getLast (Nat.digits_ne_nil_iff_ne_zero.mpr hn),
        Option.some.injEq] at hzero
      exact absurd hzero (Nat.getLast_digit_ne_zero base hn)

end Skunk.Text
