import Mathlib.Data.List.Basic
import Skunk.Text.Search

/-!
# Lines

`lines` cuts a list behind each separator. What stands behind the last one is a line too, unless it is
empty.

A list is often written as entries, one after the other, each of them ended by a separator or not. Then
`lines_write_iff` says when the lines are the entries: no entry has a separator in it, and all of them are
ended, except perhaps the last.
-/

namespace Skunk.Text

variable {α : Type}

section

variable [DecidableEq α] (sep : α)

/-- The parts that a separator ends, and what is left, if there is any. -/
def lines (s : List α) : List (List α) :=
  let parts := s.splitOn sep
  if parts.getLast? = some [] then parts.dropLast else parts

variable {sep}

@[simp] theorem lines_nil : lines sep [] = [] := by
  simp [lines]

theorem lines_of_notMem {s : List α} (h : sep ∉ s) (hne : s ≠ []) : lines sep s = [s] := by
  simp [lines, List.splitOn_eq_singleton h, hne]

theorem lines_append_cons {front : List α} (h : sep ∉ front) (s : List α) :
    lines sep (front ++ sep :: s) = front :: lines sep s := by
  have hne := List.splitOn_ne_nil sep s
  unfold lines
  rw [List.splitOn_append_cons_self, List.splitOn_eq_singleton h, List.singleton_append]
  dsimp only
  rw [List.getLast?_cons_of_ne_nil hne, List.dropLast_cons_of_ne_nil hne]
  split <;> rfl

/-- A list has no lines, or one that is not ended, or one that is. -/
theorem lines_cases (sep : α) (s : List α) : s = [] ∨ (sep ∉ s ∧ s ≠ [] ∧ lines sep s = [s]) ∨
    ∃ front rest, sep ∉ front ∧ s = front ++ sep :: rest ∧ lines sep s = front :: lines sep rest := by
  rcases split_at_first sep s with ⟨hfree, -⟩ | ⟨front, rest, rfl, hfree, -, -⟩
  · by_cases hne : s = []
    · exact .inl hne
    · exact .inr (.inl ⟨hfree, hne, lines_of_notMem hfree hne⟩)
  · exact .inr (.inr ⟨front, rest, hfree, rfl, lines_append_cons hfree rest⟩)

theorem notMem_of_mem_lines {s l : List α} (h : l ∈ lines sep s) : sep ∉ l := by
  induction hn : s.length using Nat.strong_induction_on generalizing s with
  | _ n ih =>
      rcases lines_cases sep s with rfl | ⟨hfree, -, hlines⟩ | ⟨front, rest, hfree, rfl, hlines⟩
      · simp at h
      · rw [hlines, List.mem_singleton] at h
        rw [h]
        exact hfree
      · rw [hlines, List.mem_cons] at h
        rcases h with rfl | h
        · exact hfree
        · apply ih rest.length _ h rfl
          rw [List.length_append, List.length_cons] at hn
          omega

end

/-! ## Entries -/

/-- An entry, and whether it is ended. -/
structure LineEntry (α : Type) where
  line : List α
  ended : Bool
  line_ne_nil : line ≠ []

/-- What is written for it. -/
def LineEntry.write (sep : α) (e : LineEntry α) : List α := e.line ++ if e.ended then [sep] else []

variable {sep : α}

theorem LineEntry.write_of_ended {e : LineEntry α} (h : e.ended = true) (s : List α) :
    e.write sep ++ s = e.line ++ sep :: s := by
  rw [write, if_pos h, List.append_assoc]
  rfl

theorem LineEntry.write_of_not_ended {e : LineEntry α} (h : ¬ e.ended = true) (s : List α) :
    e.write sep ++ s = e.line ++ s := by
  rw [write, if_neg h, List.append_nil]

variable [DecidableEq α]

/-- An entry that is not ended runs into the next one. -/
theorem lines_append_ne {line s : List α} {others : List (List α)} (hline : sep ∉ line) (hs : s ≠ [])
    (hhead : s.head? ≠ some sep) (hothers : others ≠ []) : lines sep (line ++ s) ≠ line :: others := by
  intro heq
  rcases lines_cases sep s with rfl | ⟨hfree, -, -⟩ | ⟨front, rest, hfree, rfl, -⟩
  · exact hs rfl
  · -- one line
    have hone : lines sep (line ++ s) = [line ++ s] := by
      apply lines_of_notMem
      · simp [hline, hfree]
      · simp [hs]
    rw [hone, List.cons.injEq] at heq
    exact hothers heq.2.symm
  · -- the first line goes on to the separator of the second one
    have hfirst : lines sep (line ++ (front ++ sep :: rest)) = (line ++ front) :: lines sep rest := by
      rw [← List.append_assoc]
      apply lines_append_cons
      simp [hline, hfree]
    rw [hfirst, List.cons.injEq, List.append_right_eq_self] at heq
    apply hhead
    rw [heq.1]
    rfl

theorem lines_write {es : List (LineEntry α)} (hfree : ∀ e ∈ es, sep ∉ e.line)
    (hended : ∀ e ∈ es.dropLast, e.ended = true) :
    lines sep (es.flatMap (LineEntry.write sep)) = es.map LineEntry.line := by
  induction es with
  | nil => exact lines_nil
  | cons e es ih =>
      obtain ⟨he, hfree⟩ := List.forall_mem_cons.mp hfree
      rw [List.flatMap_cons, List.map_cons]
      by_cases hlast : e.ended = true
      · have hrest : ∀ e' ∈ es.dropLast, e'.ended = true := by
          intro e' he'
          apply hended
          cases es with
          | nil => cases he'
          | cons _ _ => exact List.mem_cons_of_mem _ he'
        rw [LineEntry.write_of_ended hlast, lines_append_cons he, ih hfree hrest]
      · -- so there are no more
        cases es with
        | nil =>
            rw [LineEntry.write_of_not_ended hlast, List.flatMap_nil, List.append_nil,
              lines_of_notMem he e.line_ne_nil]
            rfl
        | cons _ _ => exact absurd (hended e List.mem_cons_self) hlast

theorem ended_of_lines {es : List (LineEntry α)} (hfree : ∀ e ∈ es, sep ∉ e.line)
    (hlines : lines sep (es.flatMap (LineEntry.write sep)) = es.map LineEntry.line) :
    ∀ e ∈ es.dropLast, e.ended = true := by
  induction es with
  | nil => simp
  | cons e es ih =>
      obtain ⟨he, hfree⟩ := List.forall_mem_cons.mp hfree
      rw [List.flatMap_cons, List.map_cons] at hlines
      cases es with
      | nil => simp
      | cons next es =>
          by_cases hended : e.ended = true
          · rw [LineEntry.write_of_ended hended, lines_append_cons he, List.cons.injEq] at hlines
            exact List.forall_mem_cons.mpr ⟨hended, ih hfree hlines.2⟩
          · rw [LineEntry.write_of_not_ended hended] at hlines
            obtain ⟨c, cs, hnext⟩ := List.exists_cons_of_ne_nil next.line_ne_nil
            have hc : c ≠ sep := by
              rintro rfl
              exact hfree next List.mem_cons_self (by simp [hnext])
            exact absurd hlines (lines_append_ne he (by simp [LineEntry.write, hnext])
              (by simpa [LineEntry.write, hnext] using hc) (List.cons_ne_nil _ _))

/-- The lines are the entries if and only if there are no separators in these and all of them but the last
are ended. -/
theorem lines_write_iff (es : List (LineEntry α)) :
    lines sep (es.flatMap (LineEntry.write sep)) = es.map LineEntry.line ↔
      (∀ e ∈ es, sep ∉ e.line) ∧ ∀ e ∈ es.dropLast, e.ended = true := by
  constructor
  · intro hlines
    have hfree : ∀ e ∈ es, sep ∉ e.line := by
      intro e he
      have hmem : e.line ∈ es.map LineEntry.line := List.mem_map_of_mem he
      rw [← hlines] at hmem
      exact notMem_of_mem_lines hmem
    exact ⟨hfree, ended_of_lines hfree hlines⟩
  · rintro ⟨hfree, hended⟩
    exact lines_write hfree hended

end Skunk.Text
