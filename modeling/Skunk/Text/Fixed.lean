import Mathlib.Data.List.Lex
import Skunk.Text.Numeral

/-!
# Numbers of a fixed width

`fixed base w n` has the last `w` digits of a number, with zeros in front if there are fewer. Such texts are
read back without looking for their end (`readFixed_fixed`), and they compare as the numbers do
(`fixed_lt_fixed_iff`), which is why the texts of dates can be sorted.
-/

namespace Skunk.Text

variable {base : Nat}

def fixed (base : Nat) : Nat → Nat → List Char
  | 0, _ => []
  | w + 1, n => digitChar (n / base ^ w % base) :: fixed base w n

@[simp] theorem length_fixed (w n : Nat) : (fixed base w n).length = w := by
  induction w with
  | zero => rfl
  | succ w ih => simp [fixed, ih]

/-- The same digits, from the other end. -/
theorem fixed_succ (w n : Nat) : fixed base (w + 1) n = fixed base w (n / base) ++ [digitChar (n % base)] := by
  induction w with
  | zero => simp [fixed]
  | succ w ih =>
      rw [fixed, ih, fixed, List.cons_append]
      congr 2
      rw [Nat.div_div_eq_div_mul, Nat.pow_succ']

theorem fixed_zero (w : Nat) : fixed base w 0 = List.replicate w '0' := by
  induction w with
  | zero => rfl
  | succ w ih =>
      rw [fixed, ih, Nat.zero_div, Nat.zero_mod, List.replicate_succ]
      rfl

/-- What is written with leading zeros. -/
theorem fixed_eq_pad (hbase : 1 < base) {w n : Nat} (hn : n < base ^ w) (hw : 0 < w) :
    fixed base w n = List.replicate (w - (digitsOf base n).length) '0' ++ (digitsOf base n).map digitChar := by
  induction w generalizing n with
  | zero => exact absurd hw (Nat.lt_irrefl 0)
  | succ w ih =>
      rw [fixed_succ, digitsOf_eq hbase n]
      rcases Nat.eq_zero_or_pos (n / base) with hzero | hpos
      · simp [hzero, fixed_zero]
      · have hquot : n / base < base ^ w := by
          apply Nat.div_lt_of_lt_mul
          rwa [← Nat.pow_succ']
        have hw' : 0 < w := by
          apply Nat.pos_of_ne_zero
          rintro rfl
          rw [Nat.pow_zero] at hquot
          omega
        rw [ih hquot hw', if_pos hpos]
        simp [List.append_assoc]

/-! ## Reading -/

/-- So many digits are read, behind those that have been read before. -/
def readFixed (base : Nat) : Nat → Nat → List Char → Option (Nat × List Char)
  | 0, acc, s => some (acc, s)
  | w + 1, acc, c :: s => (digitValue base c).bind fun d => readFixed base w (acc * base + d) s
  | _ + 1, _, [] => none

theorem readFixed_fixed (hpos : 0 < base) (hbase : base ≤ 36) (w acc n : Nat) (rest : List Char) :
    readFixed base w acc (fixed base w n ++ rest) = some (acc * base ^ w + n % base ^ w, rest) := by
  induction w generalizing acc with
  | zero => simp [readFixed, fixed, Nat.mod_one]
  | succ w ih =>
      have hdigit : digitValue base (digitChar (n / base ^ w % base)) = some (n / base ^ w % base) :=
        digitValue_digitChar hbase (Nat.mod_lt _ hpos)
      rw [fixed, List.cons_append, readFixed, hdigit, Option.bind_some, ih]
      congr 2
      rw [Nat.mod_pow_succ, Nat.pow_succ]
      ring

theorem readFixed_lt {w acc n : Nat} {s rest : List Char} (h : readFixed base w acc s = some (n, rest)) :
    n < (acc + 1) * base ^ w := by
  induction w generalizing acc s with
  | zero =>
      obtain ⟨rfl, -⟩ := Prod.mk.inj (Option.some.inj h)
      simp
  | succ w ih =>
      cases s with
      | nil => cases h
      | cons c s =>
          obtain ⟨d, hd, hrest⟩ := Option.bind_eq_some_iff.mp h
          have hdigit := (digitValue_lt hd).2
          calc n < (acc * base + d + 1) * base ^ w := ih hrest
            _ ≤ ((acc + 1) * base) * base ^ w := by
                apply Nat.mul_le_mul_right
                rw [Nat.succ_mul]
                omega
            _ = (acc + 1) * base ^ (w + 1) := by
                rw [Nat.pow_succ']
                ring

/-! ## Order -/

theorem digitChar_lt_iff {d e : Nat} (hd : d < 10) (he : e < 10) : digitChar d < digitChar e ↔ d < e := by
  have hall : ∀ d < 10, ∀ e < 10, (digitChar d < digitChar e ↔ d < e) := by decide
  exact hall d hd e he

/-- The digits in front decide, and behind equal ones the rest. -/
theorem place_lt_iff {k a b r s : Nat} (hr : r < k) (hs : s < k) :
    r + k * a < s + k * b ↔ a < b ∨ a = b ∧ r < s := by
  rcases Nat.lt_trichotomy a b with hlt | rfl | hgt
  · have hstep : k * a + k ≤ k * b := by
      rw [← Nat.mul_succ]
      exact Nat.mul_le_mul_left k hlt
    simp only [hlt, true_or, iff_true]
    omega
  · simp
  · have hstep : k * b + k ≤ k * a := by
      rw [← Nat.mul_succ]
      exact Nat.mul_le_mul_left k hgt
    simp only [Nat.not_lt_of_gt hgt, Nat.ne_of_gt hgt, false_and, or_self, iff_false]
    omega

theorem fixed_lt_fixed_iff {w m n : Nat} (hm : m < 10 ^ w) (hn : n < 10 ^ w) :
    fixed 10 w m < fixed 10 w n ↔ m < n := by
  have hall : fixed 10 w m < fixed 10 w n ↔ m % 10 ^ w < n % 10 ^ w := by
    clear hm hn
    induction w with
    | zero => simp [fixed, Nat.mod_one]
    | succ w ih =>
        have hdigit : ∀ k, k / 10 ^ w % 10 < 10 := fun k => Nat.mod_lt _ (by decide)
        have hrest : ∀ k, k % 10 ^ w < 10 ^ w := fun k => Nat.mod_lt _ (by positivity)
        have heq : digitChar (m / 10 ^ w % 10) = digitChar (n / 10 ^ w % 10) ↔
            m / 10 ^ w % 10 = n / 10 ^ w % 10 := by
          refine ⟨fun h => ?_, fun h => by rw [h]⟩
          have hval := digitValue_digitChar (by decide) (hdigit m)
          rw [h, digitValue_digitChar (by decide) (hdigit n)] at hval
          exact (Option.some.inj hval).symm
        rw [fixed, fixed, List.cons_lt_cons_iff, digitChar_lt_iff (hdigit m) (hdigit n), heq, ih,
          Nat.mod_pow_succ, Nat.mod_pow_succ, place_lt_iff (hrest m) (hrest n)]
  rwa [Nat.mod_eq_of_lt hm, Nat.mod_eq_of_lt hn] at hall

theorem fixed_inj {w m n : Nat} (hm : m < 10 ^ w) (hn : n < 10 ^ w) (h : fixed 10 w m = fixed 10 w n) :
    m = n := by
  have hread := @readFixed_fixed 10 (by decide) (by decide) w 0 m []
  rw [h, readFixed_fixed (by decide) (by decide)] at hread
  simpa [Nat.mod_eq_of_lt hm, Nat.mod_eq_of_lt hn, eq_comm] using hread

/-- Texts of one length in front decide, and behind equal ones the rest. -/
theorem append_lt_append_iff {s t u v : List Char} (h : s.length = t.length) :
    s ++ u < t ++ v ↔ s < t ∨ s = t ∧ u < v := by
  induction s generalizing t with
  | nil =>
      obtain rfl := List.length_eq_zero_iff.mp h.symm
      simp
  | cons c s ih =>
      cases t with
      | nil => cases h
      | cons d t =>
          rw [List.cons_append, List.cons_append, List.cons_lt_cons_iff, List.cons_lt_cons_iff,
            ih (Nat.succ.inj h), List.cons.injEq]
          tauto

end Skunk.Text
