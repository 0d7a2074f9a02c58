import Skunk.BesUtils.Paths
import Skunk.Text.Cuts

/-!
# `BESUtil::replace_all`

The loop of `replace_all` on the string that it changes: it puts the replacement where the text was found
and goes on behind it. `replaceAllLoop_cut` says what it comes to: what stood between the occurrences
stands between the replacements. So it is `replaceAll`.

An empty text is found again behind each replacement, and the loop never ends (`replaceAllLoop_nil`).
-/

namespace Skunk.BesUtils.Paths

open Skunk.Posix Skunk.Text

/-- `s.find(pattern, pos)`. -/
def findSubFrom (pattern s : Text) (pos : Nat) : Option Nat :=
  if pos ≤ s.length then (findSub pattern (s.drop pos)).map (pos + ·) else none

/-- The loop of `replace_all`, for as many rounds as it is given. -/
def replaceAllLoop (findThis replaceWithThis : Text) :
    Nat → Text → Option Nat → UInt32 → Option (Text × UInt32)
  | _, s, none, replaceCount => some (s, replaceCount)
  | 0, _, some _, _ => none
  | rounds + 1, s, some pos, replaceCount =>
    let s := s.take pos ++ (replaceWithThis ++ s.drop (pos + findThis.length))
    let pos := findSubFrom findThis s (pos + replaceWithThis.length)
    replaceAllLoop findThis replaceWithThis rounds s pos (replaceCount + 1)

/-- `replace_all` ends with the string and the count. -/
def Returns (s findThis replaceWithThis : Text) (result : Text × UInt32) : Prop :=
  ∃ rounds, replaceAllLoop findThis replaceWithThis rounds s (findSubFrom findThis s 0) 0 = some result

/-- The occurrences are replaced, each once, and counted. -/
def Replaced (s findThis replaceWithThis : Text) (result : Text × UInt32) : Prop :=
  ∃ pieces, Cut findThis s pieces ∧ result.1 = replaceWithThis.intercalate pieces ∧
    result.2.toNat + 1 = pieces.length

variable {s findThis replaceWithThis : Text}

theorem findSubFrom_append (front rest : Text) :
    findSubFrom findThis (front ++ rest) front.length = (findSub findThis rest).map (front.length + ·) := by
  rw [findSubFrom, if_pos (by simp), List.drop_left]

/-! ## A text to find -/

/-- `s.replace` where the text stands. -/
theorem replace_append (front rest : Text) :
    (front ++ (findThis ++ rest)).take front.length ++ (replaceWithThis ++
      (front ++ (findThis ++ rest)).drop (front.length + findThis.length)) =
        front ++ replaceWithThis ++ rest := by
  rw [List.take_left, ← List.drop_drop, List.drop_left, List.drop_left, List.append_assoc]

/-- There is one replacement more than for the pieces behind the first one. -/
theorem ofNat_pieces {pieces : List Text} (hne : pieces ≠ []) (piece : Text) :
    UInt32.ofNat ((piece :: pieces).length - 1) = UInt32.ofNat (pieces.length - 1) + 1 := by
  have hpos := List.length_pos_iff.mpr hne
  rw [← UInt32.ofNat_one, ← UInt32.ofNat_add, List.length_cons]
  congr 1
  omega

/-- From where the loop has come to, the pieces that are left are put together with the replacement. -/
theorem replaceAllLoop_cut {rest : Text} {pieces : List Text} (h : Cut findThis rest pieces)
    (front : Text) (replaceCount : UInt32) :
    ∃ rounds, replaceAllLoop findThis replaceWithThis rounds (front ++ rest)
        (findSubFrom findThis (front ++ rest) front.length) replaceCount =
      some (front ++ replaceWithThis.intercalate pieces,
        replaceCount + UInt32.ofNat (pieces.length - 1)) := by
  induction h generalizing front replaceCount with
  | last hnone =>
      refine ⟨0, ?_⟩
      rw [findSubFrom_append, findSub_eq_none_iff.mpr hnone, List.intercalate_singleton]
      simp [replaceAllLoop]
  | @more piece rest pieces hfirst hrest ih =>
      -- the next round goes on behind the replacement, with all that is in front of it passed
      obtain ⟨rounds, hrounds⟩ := ih (front ++ piece ++ replaceWithThis) (replaceCount + 1)
      refine ⟨rounds + 1, ?_⟩
      rw [findSubFrom_append, findSub_front hfirst, Option.map_some, ← List.append_assoc front piece,
        ← List.length_append]
      show replaceAllLoop findThis replaceWithThis rounds (_ ++ _)
        (findSubFrom findThis (_ ++ _) ((front ++ piece).length + replaceWithThis.length)) _ = _
      rw [replace_append, ← List.length_append, hrounds, ofNat_pieces hrest.ne_nil,
        List.intercalate_cons_of_ne_nil hrest.ne_nil, UInt32.add_assoc, UInt32.add_comm 1]
      simp only [List.append_assoc]

/-- More rounds make no difference. -/
theorem replaceAllLoop_mono {rounds more : Nat} {pos : Option Nat} {replaceCount : UInt32}
    {result : Text × UInt32}
    (h : replaceAllLoop findThis replaceWithThis rounds s pos replaceCount = some result)
    (hmore : rounds ≤ more) :
    replaceAllLoop findThis replaceWithThis more s pos replaceCount = some result := by
  induction rounds generalizing more s pos replaceCount with
  | zero =>
      cases pos with
      | none =>
          rw [replaceAllLoop] at h ⊢
          exact h
      | some pos => cases h
  | succ rounds ih =>
      cases pos with
      | none =>
          rw [replaceAllLoop] at h ⊢
          exact h
      | some pos =>
          obtain ⟨k, rfl⟩ : ∃ k, more = k + 1 := ⟨more - 1, by omega⟩
          rw [replaceAllLoop] at h ⊢
          exact ih h (Nat.le_of_succ_le_succ hmore)

theorem Returns.unique {result result' : Text × UInt32} (h : Returns s findThis replaceWithThis result)
    (h' : Returns s findThis replaceWithThis result') : result = result' := by
  obtain ⟨rounds, hrounds⟩ := h
  obtain ⟨rounds', hrounds'⟩ := h'
  have hmax := replaceAllLoop_mono hrounds (Nat.le_max_left rounds rounds')
  rw [replaceAllLoop_mono hrounds' (Nat.le_max_right rounds rounds')] at hmax
  exact (Option.some.inj hmax).symm

theorem returns_of_cut {pieces : List Text} (h : Cut findThis s pieces) :
    Returns s findThis replaceWithThis
      (replaceWithThis.intercalate pieces, UInt32.ofNat (pieces.length - 1)) := by
  obtain ⟨rounds, hrounds⟩ := replaceAllLoop_cut h [] 0
  refine ⟨rounds, ?_⟩
  simpa using hrounds

/-- The recursion on what is left of the string comes to the same. -/
theorem replaceAllFrom_cut (hne : findThis ≠ []) {pieces : List Text} (h : Cut findThis s pieces) :
    replaceAllFrom findThis replaceWithThis hne s =
      (replaceWithThis.intercalate pieces, UInt32.ofNat (pieces.length - 1)) := by
  induction h with
  | last hnone =>
      rw [replaceAllFrom_none (findSub_eq_none_iff.mpr hnone), List.intercalate_singleton]
      rfl
  | @more front rest pieces hfirst hrest ih =>
      rw [replaceAllFrom_some (findSub_front hfirst), ← List.drop_drop, List.drop_left, List.drop_left,
        List.take_left, ih, ofNat_pieces hrest.ne_nil, List.intercalate_cons_of_ne_nil hrest.ne_nil,
        List.append_assoc]

/-- What the loop ends with is what the recursion gives, and nothing else is. -/
theorem returns_iff_replaceAll (hne : findThis ≠ []) (s replaceWithThis : Text) (result : Text × UInt32) :
    Returns s findThis replaceWithThis result ↔ result = replaceAll s findThis replaceWithThis hne := by
  obtain ⟨pieces, hcut⟩ := exists_cut hne s
  have hreturns : Returns s findThis replaceWithThis _ := returns_of_cut hcut
  rw [replaceAll, replaceAllFrom_cut hne hcut]
  constructor
  · intro h
    exact h.unique hreturns
  · rintro rfl
    exact hreturns

/-! ## Nothing to find -/

theorem findSubFrom_nil {pos : Nat} (hpos : pos ≤ s.length) : findSubFrom [] s pos = some pos := by
  rw [findSubFrom, if_pos hpos]
  cases s.drop pos <;> rfl

/-- The place is never behind the end of the string, and nothing is found there. -/
theorem replaceAllLoop_nil (rounds : Nat) {pos : Nat} (hpos : pos ≤ s.length) (replaceCount : UInt32) :
    replaceAllLoop [] replaceWithThis rounds s (some pos) replaceCount = none := by
  induction rounds generalizing s pos replaceCount with
  | zero => rfl
  | succ rounds ih =>
      have hnext : pos + replaceWithThis.length ≤
          (s.take pos ++ (replaceWithThis ++ s.drop (pos + ([] : Text).length))).length := by
        simp only [List.length_append, List.length_take, List.length_drop, List.length_nil]
        omega
      rw [replaceAllLoop, findSubFrom_nil hnext]
      exact ih hnext _

/-! ## What it is for -/

theorem replaced_of_cut {pieces : List Text} (h : Cut findThis s pieces) (hfew : pieces.length ≤ 2 ^ 32) :
    Replaced s findThis replaceWithThis
      (replaceWithThis.intercalate pieces, UInt32.ofNat (pieces.length - 1)) := by
  have hpos := List.length_pos_iff.mpr h.ne_nil
  refine ⟨pieces, h, rfl, ?_⟩
  rw [UInt32.toNat_ofNat_of_lt' (by simp only [UInt32.size]; omega)]
  omega

/-- `replace_all` ends, and does what it is for where there is a text to find, if there is one and it does
not occur more often than can be counted. -/
theorem replaceAll_iff (s findThis replaceWithThis : Text) :
    (∃ result, Returns s findThis replaceWithThis result ∧
        (findThis ≠ [] → Replaced s findThis replaceWithThis result)) ↔
      findThis ≠ [] ∧ ∃ pieces, Cut findThis s pieces ∧ pieces.length ≤ 2 ^ 32 := by
  constructor
  · rintro ⟨result, hreturns, hreplaced⟩
    have hne : findThis ≠ [] := by
      rintro rfl
      obtain ⟨rounds, hrounds⟩ := hreturns
      rw [findSubFrom_nil (Nat.zero_le _), replaceAllLoop_nil rounds (Nat.zero_le _)] at hrounds
      cases hrounds
    obtain ⟨pieces, hcut, -, hcount⟩ := hreplaced hne
    have hlt := result.2.toNat_lt
    exact ⟨hne, pieces, hcut, by omega⟩
  · rintro ⟨hne, pieces, hcut, hfew⟩
    exact ⟨_, returns_of_cut hcut, fun _ => replaced_of_cut hcut hfew⟩

/-- With nothing to find it does not end. -/
theorem replaceAll_empty_never :
    ¬ ∀ s findThis replaceWithThis : Text, ∃ result, Returns s findThis replaceWithThis result ∧
      (findThis ≠ [] → Replaced s findThis replaceWithThis result) := by
  intro hall
  obtain ⟨result, ⟨rounds, hrounds⟩, -⟩ := hall "ab".toList [] []
  rw [findSubFrom_nil (Nat.zero_le _), replaceAllLoop_nil rounds (Nat.zero_le _)] at hrounds
  cases hrounds

end Skunk.BesUtils.Paths
