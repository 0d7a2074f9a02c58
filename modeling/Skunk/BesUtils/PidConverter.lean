import Mathlib.Logic.Function.Basic
import Skunk.Posix.Path
import Skunk.Text.Numeral

/-!
# `BESUtil::fastpidconverter`

The digits of a number are written from the first to the last: the recursion writes those of the quotient
and hands back the place behind them, and the last digit is put there, where the NUL was.

For the numbers from 0 on this is the numeral of the number (`fastpidconverter_nat`), and a negative number
is a minus sign and the numeral of its absolute value. But the least `long` has no absolute value, and what
`labs` gives for it is negative: see `fastpidconverter_iff`.
-/

namespace Skunk.BesUtils

open Skunk.Posix Skunk.Text

/-! ## The buffer -/

/-- The characters in memory, by their addresses. -/
abbrev Memory : Type := Nat → Char

namespace Memory

/-- `*p = c`. -/
def set (mem : Memory) (p : Nat) (c : Char) : Memory := Function.update mem p c

/-- One character after the other. -/
def write (mem : Memory) (p : Nat) : Text → Memory
  | [] => mem
  | c :: cs => write (mem.set p c) (p + 1) cs

variable (mem : Memory) (p : Nat)

@[simp] theorem set_set (c d : Char) : (mem.set p c).set p d = mem.set p d := by
  simp [set]

theorem write_append (s t : Text) : mem.write p (s ++ t) = (mem.write p s).write (p + s.length) t := by
  induction s generalizing mem p with
  | nil => rfl
  | cons c cs ih =>
      show (mem.set p c).write (p + 1) (cs ++ t) = ((mem.set p c).write (p + 1) cs).write _ t
      rw [ih, List.length_cons, Nat.add_right_comm, Nat.add_assoc]

/-- The last character is written over, and another one is put behind it. -/
theorem set_set_write (s : Text) (c d e : Char) :
    ((mem.write p (s ++ [c])).set (p + s.length) d).set (p + s.length + 1) e =
      mem.write p (s ++ [d] ++ [e]) := by
  have hlast : (mem.write p (s ++ [c])).set (p + s.length) d = mem.write p (s ++ [d]) := by
    rw [write_append, write_append]
    exact set_set _ _ c d
  rw [hlast, write_append mem p (s ++ [d]) [e], List.length_append]
  rfl

variable {p}

/-- What is not written to stays. -/
theorem write_outside {s : Text} {q : Nat} (h : q < p ∨ p + s.length ≤ q) : mem.write p s q = mem q := by
  induction s generalizing mem p with
  | nil => rfl
  | cons c cs ih =>
      rw [List.length_cons] at h
      have hne : q ≠ p := by omega
      rw [write, ih (mem.set p c) (by omega)]
      exact Function.update_of_ne hne c mem

theorem write_inside {s : Text} {i : Nat} {c : Char} (h : s[i]? = some c) : mem.write p s (p + i) = c := by
  induction s generalizing mem p i with
  | nil => cases h
  | cons d ds ih =>
      rw [write]
      cases i with
      | zero =>
          rw [List.getElem?_cons_zero, Option.some.injEq] at h
          show (mem.set p d).write (p + 1) ds p = c
          rw [write_outside _ (.inl p.lt_succ_self), ← h]
          exact Function.update_self p d mem
      | succ i =>
          rw [List.getElem?_cons_succ] at h
          rw [← Nat.add_assoc, Nat.add_right_comm]
          exact ih _ h

end Memory

/-! ## The conversion -/

/-- `labs`. The least `long` stays negative. -/
def labs (val : Int) : Int := Int.bmod val.natAbs (2 ^ 64)

structure LdivT where
  quot : Int
  rem : Int
  deriving DecidableEq, Repr

/-- `ldiv`, which rounds towards zero. -/
def ldiv (numer denom : Int) : LdivT := ⟨numer.tdiv denom, numer.tmod denom⟩

/-- An index that the table of the digits does not have. -/
structure OutOfTable where
  index : Int
  deriving DecidableEq, Repr

def tableEntry (index : Int) : Except OutOfTable Char :=
  if 0 ≤ index ∧ index < 36 then .ok (digitChar index.toNat) else .error ⟨index⟩

theorem labs_le (val : Int) : labs val ≤ val.natAbs := by
  unfold labs
  rw [Int.bmod_def]
  split <;> omega

/-- Every other `long` has an absolute value. -/
theorem labs_eq {val : Int} (hval : -2 ^ 63 < val ∧ val < 2 ^ 63) : labs val = val.natAbs := by
  unfold labs
  rw [Int.bmod_def]
  split <;> omega

@[simp] theorem ldiv_natCast (n b : Nat) : ldiv n b = ⟨(n / b : Nat), (n % b : Nat)⟩ := rfl

/-- A negative number has no positive quotient, and a remainder that is not positive. -/
theorem ldiv_neg (n b : Nat) : ldiv (-n) b = ⟨-(n / b : Nat), -(n % b : Nat)⟩ := by
  unfold ldiv
  rw [Int.neg_tdiv, Int.neg_tmod]
  rfl

theorem quot_lt {val base : Int} (hbase : 2 ≤ base) (hquot : 0 < (ldiv (labs val) base).quot) :
    (ldiv (labs val) base).quot.natAbs < val.natAbs := by
  have hle := labs_le val
  obtain ⟨b, rfl⟩ := Int.eq_ofNat_of_zero_le (show 0 ≤ base by omega)
  obtain ⟨n, hn | hn⟩ := (labs val).eq_nat_or_neg
  · rw [hn, ldiv_natCast] at hquot ⊢
    have hpos : 0 < n / b := Int.natCast_pos.mp hquot
    have hlt : n / b < n := Nat.div_lt_self (Nat.pos_of_div_pos hpos) (by omega)
    dsimp only
    omega
  · rw [hn, ldiv_neg] at hquot
    dsimp only at hquot
    generalize n / b = quot at hquot
    omega

/-- The sign of a negative number is put there. -/
def putSign (val : Int) (mem : Memory) (buf : Nat) : Memory × Nat :=
  if val < 0 then (mem.set buf '-', buf + 1) else (mem, buf)

/-- `fastpidconverter`: what is in memory afterwards, and the pointer that is returned. -/
def fastpidconverter (val : Int) (mem : Memory) (buf : Nat) (base : Int) :
    Except OutOfTable (Memory × Nat) :=
  if _hbase : base > 36 ∨ base < 2 then .ok (mem.set buf '\x00', buf)
  else
    let signed := putSign val mem buf
    let r := ldiv (labs val) base
    let front := if _hquot : r.quot > 0 then fastpidconverter r.quot signed.1 signed.2 base else .ok signed
    front.bind fun (mem, buf) => (tableEntry r.rem).map fun digit =>
      ((mem.set buf digit).set (buf + 1) '\x00', buf + 1)
termination_by val.natAbs
decreasing_by exact quot_lt (by omega) _hquot

/-! ## Numbers that have an absolute value -/

section

variable {b : Nat} (hb : 2 ≤ b) (hb' : b ≤ 36) (mem : Memory) (buf : Nat)

theorem tableEntry_natCast {d : Nat} (hd : d < 36) : tableEntry d = .ok (digitChar d) := by
  unfold tableEntry
  rw [if_pos (by omega), Int.toNat_natCast]

include hb hb'

/-- One call: the sign, the quotient if there is one, and the last digit. -/
theorem fastpidconverter_eq {val : Int} {n : Nat} (hn : labs val = n) :
    fastpidconverter val mem buf b =
      (if 0 < n / b then fastpidconverter (n / b : Nat) (putSign val mem buf).1 (putSign val mem buf).2 b
        else .ok (putSign val mem buf)).bind fun front =>
          .ok ((front.1.set front.2 (digitChar (n % b))).set (front.2 + 1) '\x00', front.2 + 1) := by
  have hmod : n % b < 36 := Nat.lt_of_lt_of_le (Nat.mod_lt n (by omega)) hb'
  rw [fastpidconverter, dif_neg (by omega)]
  simp only [hn, ldiv_natCast, tableEntry_natCast hmod]
  by_cases hquot : 0 < n / b
  · rw [dif_pos (Int.natCast_pos.mpr hquot), if_pos hquot]
    rfl
  · rw [dif_neg (fun hpos => hquot (Int.natCast_pos.mp hpos)), if_neg hquot]
    rfl

/-- The digits of a number, and the NUL behind them. -/
theorem fastpidconverter_nat {n : Nat} (hn : n < 2 ^ 63) :
    fastpidconverter n mem buf b =
      .ok (mem.write buf ((digitsOf b n).map digitChar ++ ['\x00']), buf + (digitsOf b n).length) := by
  induction n using Nat.strong_induction_on generalizing mem buf with
  | _ n ih =>
      have hlabs : labs n = n := by
        rw [labs_eq (by omega), Int.natAbs_natCast]
      have hsign : putSign n mem buf = (mem, buf) := if_neg (by omega)
      rw [fastpidconverter_eq hb hb' mem buf hlabs, hsign, digitsOf_eq (by omega) n]
      by_cases hquot : 0 < n / b
      · have hlt : n / b < n := Nat.div_lt_self (Nat.pos_of_div_pos hquot) (by omega)
        rw [if_pos hquot, if_pos hquot, ih (n / b) hlt mem buf (by omega), List.map_append,
          List.length_append]
        -- the NUL of the quotient is where the last digit goes
        have hwritten := mem.set_set_write buf ((digitsOf b (n / b)).map digitChar) '\x00'
          (digitChar (n % b)) '\x00'
        rw [List.length_map] at hwritten
        show Except.ok (((mem.write _ _).set _ _).set _ _, _) = _
        rw [hwritten]
        rfl
      · rw [if_neg hquot, if_neg hquot]
        rfl

/-- With a minus sign in front it is the numeral of the absolute value. -/
theorem fastpidconverter_ofInt {val : Int} (hval : -2 ^ 63 < val ∧ val < 2 ^ 63) :
    fastpidconverter val mem buf b =
      .ok (mem.write buf ((Numeral.ofInt hb val).text ++ ['\x00']),
        buf + (Numeral.ofInt hb val).text.length) := by
  have hnat := fun mem buf => fastpidconverter_nat hb hb' mem buf (n := val.natAbs) (by omega)
  by_cases hneg : val < 0
  · -- behind the sign it is the call for the absolute value
    have hsame : fastpidconverter val mem buf b =
        fastpidconverter val.natAbs (mem.set buf '-') (buf + 1) b := by
      have hlabs : labs val.natAbs = val.natAbs := by
        rw [labs_eq (by omega), Int.natAbs_natCast]
      have hsign : putSign val.natAbs (mem.set buf '-') (buf + 1) = putSign val mem buf := by
        unfold putSign
        rw [if_neg (by omega), if_pos hneg]
      rw [fastpidconverter_eq hb hb' mem buf (labs_eq hval), fastpidconverter_eq hb hb' _ _ hlabs, hsign]
    have htext : (Numeral.ofInt hb val).text = '-' :: (digitsOf b val.natAbs).map digitChar := by
      simp [Numeral.text, Numeral.ofInt, hneg, Sign.text]
    rw [hsame, hnat, htext, List.length_cons, List.length_map, Nat.add_right_comm, Nat.add_assoc]
    rfl
  · have hsame : (val.natAbs : Int) = val := by omega
    have htext : (Numeral.ofInt hb val).text = (digitsOf b val.natAbs).map digitChar := by
      simp [Numeral.text, Numeral.ofInt, hneg, Sign.text]
    have hval' := hnat mem buf
    rw [hsame] at hval'
    rw [hval', htext, List.length_map]

end

/-! ## The least number -/

/-- What `fastpidconverter` is for: the numeral of the number and a NUL, which is pointed to. -/
structure Converted (base : Nat) (val : Int) (mem : Memory) (buf : Nat) (mem' : Memory) (buf' : Nat) :
    Prop where
  numeral : ∃ N : Numeral base, N.Canonical ∧ N.value = val ∧ buf' = buf + N.text.length ∧
    ∀ i c, (N.text ++ ['\x00'])[i]? = some c → mem' (buf + i) = c
  others (p : Nat) : p < buf ∨ buf' < p → mem' p = mem p

theorem Converted.of_write {b : Nat} {val : Int} {N : Numeral b} (hcanonical : N.Canonical)
    (hvalue : N.value = val) (mem : Memory) (buf : Nat) :
    Converted b val mem buf (mem.write buf (N.text ++ ['\x00'])) (buf + N.text.length) where
  numeral := ⟨N, hcanonical, hvalue, rfl, fun _ _ h => mem.write_inside h⟩
  others p hp := by
    apply mem.write_outside
    rw [List.length_append, List.length_singleton]
    omega

/-- The least number has a sign and one digit, or an index is negative. -/
theorem fastpidconverter_least {b : Nat} (hb : 2 ≤ b) (hb' : b ≤ 36) (mem : Memory) (buf : Nat) :
    (∃ e, fastpidconverter (-2 ^ 63) mem buf b = .error e) ∨
      ∃ mem', fastpidconverter (-2 ^ 63) mem buf b = .ok (mem', buf + 2) := by
  have hlabs : labs (-2 ^ 63) = -((2 ^ 63 : Nat) : Int) := rfl
  have hquot : ¬ -((2 ^ 63 / b : Nat) : Int) > 0 := by
    generalize 2 ^ 63 / b = quot
    omega
  rw [fastpidconverter, dif_neg (by omega)]
  simp only [hlabs, ldiv_neg, dif_neg hquot]
  generalize 2 ^ 63 % b = rem
  cases rem with
  | zero => exact .inr ⟨_, rfl⟩
  | succ rem =>
      left
      have hentry : tableEntry (-((rem + 1 : Nat) : Int)) = .error ⟨-((rem + 1 : Nat) : Int)⟩ := by
        unfold tableEntry
        rw [if_neg (by omega)]
      rw [hentry]
      exact ⟨_, rfl⟩

/-- Two characters are too few for the least number. -/
theorem Converted.not_least {b : Nat} (hb : 2 ≤ b) (hb' : b ≤ 36) {mem mem' : Memory} {buf : Nat} :
    ¬ Converted b (-2 ^ 63) mem buf mem' (buf + 2) := by
  rintro ⟨⟨N, -, hvalue, hlength, -⟩, -⟩
  have hdigits : N.digits.length ≤ 2 := by
    rw [Numeral.text, List.length_append, List.length_map] at hlength
    omega
  have hlt : N.magnitude < 36 ^ 2 := by
    calc N.magnitude < b ^ N.digits.length := N.magnitude_lt hb
      _ ≤ b ^ 2 := Nat.pow_le_pow_right (by omega) hdigits
      _ ≤ 36 ^ 2 := Nat.pow_le_pow_left hb' 2
  unfold Numeral.value at hvalue
  split at hvalue <;> omega

/-- Each number but the least one is converted. -/
theorem fastpidconverter_iff {base val : Int} (hbase : 2 ≤ base ∧ base ≤ 36)
    (hval : -2 ^ 63 ≤ val ∧ val < 2 ^ 63) (mem : Memory) (buf : Nat) :
    (∃ mem' buf', fastpidconverter val mem buf base = .ok (mem', buf') ∧
        Converted base.toNat val mem buf mem' buf') ↔ val ≠ -2 ^ 63 := by
  obtain ⟨b, rfl⟩ := Int.eq_ofNat_of_zero_le (show 0 ≤ base by omega)
  have hb : 2 ≤ b := by omega
  have hb' : b ≤ 36 := by omega
  rw [Int.toNat_natCast]
  constructor
  · rintro ⟨mem', buf', hresult, hconverted⟩ rfl
    rcases fastpidconverter_least hb hb' mem buf with ⟨e, hleast⟩ | ⟨mem'', hleast⟩
    · rw [hleast] at hresult
      cases hresult
    · rw [hleast] at hresult
      cases hresult
      exact hconverted.not_least hb hb'
  · intro hne
    exact ⟨_, _, fastpidconverter_ofInt hb hb' mem buf (by omega),
      .of_write (Numeral.canonical_ofInt hb val) (Numeral.value_ofInt hb val) mem buf⟩

/-- A negative number in base 16. -/
theorem fastpidconverter_iff_hex :
    (∃ mem' buf', fastpidconverter (-255) (fun _ => ' ') 0 16 = .ok (mem', buf') ∧
        Converted (16 : Int).toNat (-255) (fun _ => ' ') 0 mem' buf') ↔ (-255 : Int) ≠ -2 ^ 63 :=
  fastpidconverter_iff (by decide) (by decide) _ _

/-- In base 10 the last digit of the least number is looked for in front of the table. -/
theorem leastLong_outOfTable :
    fastpidconverter (-2 ^ 63) (fun _ => ' ') 0 10 = .error ⟨-8⟩ ∧
      ¬ ∃ mem' buf', fastpidconverter (-2 ^ 63) (fun _ => ' ') 0 10 = .ok (mem', buf') ∧
        Converted (10 : Int).toNat (-2 ^ 63) (fun _ => ' ') 0 mem' buf' := by
  have herror : fastpidconverter (-2 ^ 63) (fun _ => ' ') 0 10 = .error ⟨-8⟩ := by
    have hr : ldiv (labs (-2 ^ 63)) 10 = ⟨-922337203685477580, -8⟩ := rfl
    rw [fastpidconverter, dif_neg (by decide)]
    simp only [hr]
    rfl
  refine ⟨herror, ?_⟩
  rintro ⟨mem', buf', hresult, -⟩
  rw [herror] at hresult
  cases hresult

end Skunk.BesUtils
