import Mathlib.Algebra.Group.Nat.Even
import Mathlib.Data.List.DropRight
import Skunk.BesUtils.Explode
import Skunk.Text.Search

/-!
# `BESUtil::unescape`

`unescape` copies what stands between backslashes, and behind each backslash one character that it does
not look at. If nothing stands behind it, the position that it goes on from is one too far, and `substr`
throws. So a string comes out as it should if its end is not a backslash without a partner
(`unescape_reads`), and an escaped string always does.
-/

namespace Skunk.BesUtils.Unescape

open Skunk.Posix Skunk.Text Skunk.BesUtils.Explode

/-- The exceptions of the string functions. -/
inductive StringError
  | outOfRange
  deriving DecidableEq, Repr

def unescapeLoop (s : Text) (index : Nat) (newStr : Text) : Except StringError Text :=
  match _h : findChar '\\' s index with
  | none =>
    if s.length < index then .error .outOfRange
    else .ok (newStr ++ substr s index (s.length - index))
  | some bs => unescapeLoop s (bs + 2) (newStr ++ substr s index (bs - index) ++ [charAt s (bs + 1)])
termination_by s.length - index
decreasing_by
  have := findChar_bounds _h
  omega

def unescape (s : Text) : Except StringError Text := unescapeLoop s 0 []

/-- What it is for: a backslash is dropped, and the character behind it is kept, whatever it is. -/
def unescaped : Text → Text
  | [] => []
  | [c] => if c = '\\' then [] else [c]
  | c :: d :: s => if c = '\\' then d :: unescaped s else c :: unescaped (d :: s)

/-- A backslash that starts an escape stands at the end. -/
def EndsOpen : Text → Prop
  | [] => False
  | [c] => c = '\\'
  | c :: d :: s => if c = '\\' then EndsOpen s else EndsOpen (d :: s)

/-! ## What the loop does -/

theorem unescaped_cons_of_ne {c : Char} (hc : c ≠ '\\') (s : Text) :
    unescaped (c :: s) = c :: unescaped s := by
  cases s with
  | nil => exact if_neg hc
  | cons d s => exact if_neg hc

theorem endsOpen_cons_of_ne {c : Char} (hc : c ≠ '\\') (s : Text) :
    EndsOpen (c :: s) ↔ EndsOpen s := by
  cases s with
  | nil => exact iff_of_false hc id
  | cons d s => exact (if_neg hc).to_iff

theorem unescaped_append {plain : Text} (h : '\\' ∉ plain) (s : Text) :
    unescaped (plain ++ s) = plain ++ unescaped s := by
  induction plain with
  | nil => rfl
  | cons c plain ih =>
      rw [List.mem_cons, not_or] at h
      rw [List.cons_append, unescaped_cons_of_ne (Ne.symm h.1), ih h.2, List.cons_append]

theorem endsOpen_append {plain : Text} (h : '\\' ∉ plain) (s : Text) :
    EndsOpen (plain ++ s) ↔ EndsOpen s := by
  induction plain with
  | nil => rfl
  | cons c plain ih =>
      rw [List.mem_cons, not_or] at h
      rw [List.cons_append, endsOpen_cons_of_ne (Ne.symm h.1), ih h.2]

theorem unescapeLoop_none {s : Text} {index : Nat} (h : findChar '\\' s index = none) (newStr : Text) :
    unescapeLoop s index newStr = if s.length < index then .error .outOfRange
      else .ok (newStr ++ substr s index (s.length - index)) := by
  rw [unescapeLoop]
  split
  · rfl
  next hsome => rw [h] at hsome; cases hsome

theorem unescapeLoop_some {s : Text} {index bs : Nat} (h : findChar '\\' s index = some bs)
    (newStr : Text) : unescapeLoop s index newStr =
      unescapeLoop s (bs + 2) (newStr ++ substr s index (bs - index) ++ [charAt s (bs + 1)]) := by
  rw [unescapeLoop]
  split
  next hnone => rw [h] at hnone; cases hnone
  next hsome =>
    rw [h] at hsome
    cases hsome
    rfl

/-- Behind a backslash at the end there is nothing to go on from. -/
theorem unescapeLoop_end (s newStr : Text) :
    unescapeLoop s (s.length + 1) newStr = .error .outOfRange := by
  have hnone : findChar '\\' s (s.length + 1) = none := by
    rw [findChar, List.drop_of_length_le (Nat.le_succ _)]
    rfl
  rw [unescapeLoop_none hnone, if_pos (Nat.lt_succ_self _)]

/-- From a place in the string, the loop throws if the rest ends open, and else puts at the end what the
rest is unescaped. -/
theorem unescapeLoop_append (front rest newStr : Text) :
    (EndsOpen rest → unescapeLoop (front ++ rest) front.length newStr = .error .outOfRange) ∧
      (¬ EndsOpen rest →
        unescapeLoop (front ++ rest) front.length newStr = .ok (newStr ++ unescaped rest)) := by
  -- one turn of the loop goes to the next backslash and over the character behind it
  induction hn : rest.length using Nat.strong_induction_on generalizing front rest newStr with
  | _ n ih =>
      obtain ⟨hnot, -⟩ | ⟨plain, behind, rfl, hplain, -, -⟩ := split_at_first '\\' rest
      · have hopen := endsOpen_append hnot []
        have hall := unescaped_append hnot []
        rw [List.append_nil] at hopen hall
        have hfind : findChar '\\' (front ++ rest) front.length = none := by
          have hskip := findChar_delim hnot (.inl rfl) front
          rwa [List.append_nil, if_pos rfl] at hskip
        have hcount : (front ++ rest).length - front.length = rest.length := by simp
        have hsubstr := substr_append front rest []
        rw [List.append_nil] at hsubstr
        refine ⟨fun h => (hopen.mp h).elim, fun _ => ?_⟩
        rw [unescapeLoop_none hfind, if_neg (by simp), hcount, hsubstr, hall, unescaped, List.append_nil]
      · have hfind : findChar '\\' (front ++ (plain ++ '\\' :: behind)) front.length =
            some (front.length + plain.length) := by
          rw [findChar_delim hplain (.inr ⟨behind, rfl⟩), if_neg (List.cons_ne_nil _ _)]
        rw [endsOpen_append hplain, unescaped_append hplain, unescapeLoop_some hfind,
          Nat.add_sub_cancel_left, substr_append]
        cases behind with
        | nil =>
            -- the loop goes on one place behind the end, where `substr` throws
            have hend : front.length + plain.length + 2 = (front ++ (plain ++ ['\\'])).length + 1 := by
              simp only [List.length_append, List.length_singleton]
              omega
            rw [hend, unescapeLoop_end]
            exact ⟨fun _ => rfl, fun h => absurd rfl h⟩
        | cons d behind =>
            have hsplit : front ++ (plain ++ '\\' :: d :: behind) =
                (front ++ plain ++ ['\\', d]) ++ behind := by simp
            have hindex : front.length + plain.length + 2 = (front ++ plain ++ ['\\', d]).length := by
              simp only [List.length_append, List.length_cons, List.length_nil]
            have hd : charAt (front ++ (plain ++ '\\' :: d :: behind)) (front.length + plain.length + 1) =
                d := by
              have hat := charAt_append_cons (front ++ plain ++ ['\\']) behind d
              simpa [Nat.add_assoc] using hat
            have hopen : EndsOpen ('\\' :: d :: behind) ↔ EndsOpen behind := (if_pos rfl).to_iff
            have hread : unescaped ('\\' :: d :: behind) = d :: unescaped behind := if_pos rfl
            rw [List.length_append, List.length_cons, List.length_cons] at hn
            obtain ⟨hthrow, hok⟩ := ih behind.length (by omega) (front ++ plain ++ ['\\', d]) behind
              (newStr ++ plain ++ [d]) rfl
            rw [hd, hopen, hread, hsplit, hindex]
            refine ⟨hthrow, fun h => ?_⟩
            rw [hok h]
            simp

theorem unescape_eq (s : Text) :
    (EndsOpen s → unescape s = .error .outOfRange) ∧ (¬ EndsOpen s → unescape s = .ok (unescaped s)) :=
  unescapeLoop_append [] s []

/-! ## The backslashes at the end -/

/-- With one more in front of them, the last ones that fit are the same, unless all fit. -/
theorem rtakeWhile_cons_of_not {p : Char → Bool} {c : Char} {s : Text} (h : ¬ ∀ d ∈ c :: s, p d = true) :
    (c :: s).rtakeWhile p = s.rtakeWhile p := by
  have hsplit : (c :: s).rtakeWhile p = ((s.reverse ++ [c]).takeWhile p).reverse := by
    rw [List.rtakeWhile, List.reverse_cons]
  rw [hsplit]
  by_cases hall : ∀ d ∈ s, p d = true
  · have hc : p c ≠ true := fun hc => h (List.forall_mem_cons.mpr ⟨hc, hall⟩)
    rw [List.takeWhile_append_of_pos (by simpa using hall), List.rtakeWhile_eq_self_iff.mpr hall]
    simp [hc]
  · -- the run ends before it comes to the front
    have hshort : (s.reverse.takeWhile p).length ≠ s.reverse.length := by
      intro hlength
      apply hall
      have hself := (List.takeWhile_prefix p).eq_of_length hlength
      rw [List.takeWhile_eq_self_iff] at hself
      simpa using hself
    rw [List.takeWhile_append, if_neg hshort, List.rtakeWhile]

/-- A string ends open if an odd number of backslashes stands at its end. -/
theorem endsOpen_iff (s : Text) : EndsOpen s ↔ ¬ Even (s.rtakeWhile (· = '\\')).length := by
  induction s using unescaped.induct with
  | case1 => simp [EndsOpen]
  | case2 => simp [EndsOpen, List.rtakeWhile]
  | case3 c hc => simp [EndsOpen, List.rtakeWhile, hc]
  | case4 d s ih =>
      have hopen : EndsOpen ('\\' :: d :: s) ↔ EndsOpen s := (if_pos rfl).to_iff
      rw [hopen, ih]
      by_cases hall : ∀ c ∈ d :: s, decide (c = '\\') = true
      · -- the two at the front do not change the parity
        have hs := (List.forall_mem_cons.mp hall).2
        have hall' : ∀ c ∈ '\\' :: d :: s, decide (c = '\\') = true := by simpa using hall
        rw [List.rtakeWhile_eq_self_iff.mpr hs, List.rtakeWhile_eq_self_iff.mpr hall', List.length_cons,
          List.length_cons, Nat.even_add_one, Nat.even_add_one, not_not]
      · have hall' : ¬ ∀ c ∈ '\\' :: d :: s, decide (c = '\\') = true := by simpa using hall
        rw [rtakeWhile_cons_of_not hall', rtakeWhile_cons_of_not hall]
  | case5 c d s hc ih =>
      have hnot : ¬ ∀ x ∈ c :: d :: s, decide (x = '\\') = true :=
        fun hall => hc (of_decide_eq_true (hall c List.mem_cons_self))
      rw [endsOpen_cons_of_ne hc, ih, rtakeWhile_cons_of_not hnot]

/-- A text with a backslash in front of the characters that are marked. -/
def escape (marked : List (Char × Bool)) : Text :=
  marked.flatMap fun m => if m.2 then ['\\', m.1] else [m.1]

/-- A text comes back if every backslash in it was marked. -/
theorem unescape_escape {marked : List (Char × Bool)} (h : ∀ m ∈ marked, m.1 = '\\' → m.2 = true) :
    ¬ EndsOpen (escape marked) ∧ unescaped (escape marked) = marked.map Prod.fst := by
  induction marked with
  | nil => exact ⟨id, rfl⟩
  | cons m marked ih =>
      obtain ⟨hm, hmarked⟩ := List.forall_mem_cons.mp h
      obtain ⟨hopen, hread⟩ := ih hmarked
      obtain ⟨c, flag⟩ := m
      cases flag with
      | true =>
          have hescape : escape ((c, true) :: marked) = '\\' :: c :: escape marked := rfl
          have hpair : EndsOpen ('\\' :: c :: escape marked) ↔ EndsOpen (escape marked) :=
            (if_pos rfl).to_iff
          have hfirst : unescaped ('\\' :: c :: escape marked) = c :: unescaped (escape marked) :=
            if_pos rfl
          rw [hescape, hpair, hfirst, hread]
          exact ⟨hopen, rfl⟩
      | false =>
          have hc : c ≠ '\\' := by
            intro hc
            exact Bool.false_ne_true (hm hc)
          have hescape : escape ((c, false) :: marked) = c :: escape marked := rfl
          rw [hescape, endsOpen_cons_of_ne hc, unescaped_cons_of_ne hc, hread]
          exact ⟨hopen, rfl⟩

/-- `unescape` reads a string as it is meant to be read exactly if the backslashes at its end are even in
number, and gives back what was escaped. -/
theorem unescape_reads (s : Text) :
    (unescape s = .ok (unescaped s) ↔ Even (s.rtakeWhile (· = '\\')).length) ∧
      ∀ marked : List (Char × Bool), (∀ m ∈ marked, m.1 = '\\' → m.2 = true) →
        unescape (escape marked) = .ok (marked.map Prod.fst) := by
  constructor
  · obtain ⟨hthrow, hok⟩ := unescape_eq s
    rw [← not_iff_not, ← endsOpen_iff]
    constructor
    · intro h
      by_contra hclosed
      exact h (hok hclosed)
    · intro hopen h
      rw [hthrow hopen] at h
      cases h
  · intro marked h
    obtain ⟨hclosed, hread⟩ := unescape_escape h
    rw [(unescape_eq _).2 hclosed, hread]

/-- A backslash at the end is one too many. -/
theorem unescape_backslash : ¬ ∀ s, unescape s = .ok (unescaped s) := by
  intro hall
  have hthrow := (unescape_eq ['a', '\\']).1 ((endsOpen_cons_of_ne (by decide) _).mpr rfl)
  rw [hall] at hthrow
  cases hthrow

end Skunk.BesUtils.Unescape
