import Mathlib.Data.List.Infix
import Mathlib.Data.List.TakeWhile

/-!
# Searching and replacing

`findSub` is the first place where a pattern stands in a list. `replaceFrom` replaces a pattern by one
element for as long as it finds it, and goes on searching at the place of the replacement, as a loop

    while ((i = in.find(pattern, i)) != npos) in.replace(i, pattern.size(), element);

does. So what a replacement and the elements behind it make up together is searched again.
`replaceFrom_cons` says what it does element by element; `replaceFrom_eq_self_iff` that it shortens a
list unless the pattern is not in it.
-/

namespace Skunk.Text

variable {α : Type} [DecidableEq α]

/-- A list up to the first `c`, and what comes behind it. -/
theorem split_at_first (c : α) (s : List α) : (c ∉ s ∧ s.takeWhile (· ≠ c) = s) ∨
    ∃ front behind, s = front ++ c :: behind ∧ c ∉ front ∧ s.takeWhile (· ≠ c) = front ∧
      s.dropWhile (· ≠ c) = c :: behind := by
  have hfree : c ∉ s.takeWhile (· ≠ c) := by
    intro hmem
    simpa using List.mem_takeWhile_imp hmem
  have hsplit := s.takeWhile_append_dropWhile (p := (· ≠ c))
  cases hbehind : s.dropWhile (· ≠ c) with
  | nil =>
      rw [hbehind, List.append_nil] at hsplit
      rw [hsplit] at hfree
      exact .inl ⟨hfree, hsplit⟩
  | cons d behind =>
      have hd : d = c := by
        have hhead := List.head?_dropWhile_not (· ≠ c) s
        rw [hbehind] at hhead
        simpa using hhead
      rw [hbehind, hd] at hsplit
      exact .inr ⟨_, behind, hsplit.symm, hfree, rfl, by rw [hd]⟩

/-- `find`. -/
def findSub (pattern : List α) : List α → Option Nat
  | [] => if pattern = [] then some 0 else none
  | c :: cs => if pattern <+: c :: cs then some 0 else (findSub pattern cs).map (· + 1)

theorem findSub_le {pattern s : List α} {k : Nat} (h : findSub pattern s = some k) :
    k + pattern.length ≤ s.length := by
  induction s generalizing k with
  | nil =>
      rw [findSub] at h
      split at h
      next hnil =>
        cases h
        simp [hnil]
      · cases h
  | cons c cs ih =>
      rw [findSub] at h
      split at h
      next hfits =>
        cases h
        simpa using hfits.length_le
      · obtain ⟨j, hj, rfl⟩ := Option.map_eq_some_iff.mp h
        have := ih hj
        rw [List.length_cons]
        omega

theorem findSub_of_fits {pattern : List α} {c : α} {cs : List α} (h : pattern <+: c :: cs) :
    findSub pattern (c :: cs) = some 0 := if_pos h

theorem findSub_of_not {pattern : List α} {c : α} {cs : List α} (h : ¬ pattern <+: c :: cs) :
    findSub pattern (c :: cs) = (findSub pattern cs).map (· + 1) := if_neg h

/-- A pattern that is replaced by one element. -/
structure Replacement (α : Type) where
  pattern : List α
  element : α
  long : 1 < pattern.length

/-- The loop that replaces a pattern, from the place it has come to. -/
def replaceFrom (r : Replacement α) (rest : List α) : List α :=
  match _h : findSub r.pattern rest with
  | none => rest
  | some k => rest.take k ++ replaceFrom r (r.element :: rest.drop (k + r.pattern.length))
termination_by rest.length
decreasing_by
  have := findSub_le _h
  have := r.long
  rw [List.length_cons, List.length_drop]
  omega

variable {r : Replacement α}

@[simp] theorem replaceFrom_nil : replaceFrom r [] = [] := by
  have hne : r.pattern ≠ [] := by
    rintro h
    have := r.long
    rw [h] at this
    cases this
  rw [replaceFrom, findSub, if_neg hne]

theorem replaceFrom_none {s : List α} (h : findSub r.pattern s = none) : replaceFrom r s = s := by
  rw [replaceFrom]
  split
  · rfl
  next hsome => rw [h] at hsome; cases hsome

theorem replaceFrom_some {s : List α} {pos : Nat} (h : findSub r.pattern s = some pos) :
    replaceFrom r s = s.take pos ++ replaceFrom r (r.element :: s.drop (pos + r.pattern.length)) := by
  rw [replaceFrom]
  split
  next hnone => rw [h] at hnone; cases hnone
  next hsome =>
    rw [h] at hsome
    cases hsome
    rfl

/-- At each place either the pattern is there, or one goes on to the next. -/
theorem replaceFrom_cons (c : α) (cs : List α) : replaceFrom r (c :: cs) =
    if r.pattern <+: c :: cs then replaceFrom r (r.element :: (c :: cs).drop r.pattern.length)
    else c :: replaceFrom r cs := by
  by_cases hfits : r.pattern <+: c :: cs
  · rw [if_pos hfits, replaceFrom_some (findSub_of_fits hfits), List.take_zero, List.nil_append, Nat.zero_add]
  · have hnext := findSub_of_not hfits
    rw [if_neg hfits]
    cases hcs : findSub r.pattern cs with
    | none =>
        rw [hcs] at hnext
        rw [replaceFrom_none hnext, replaceFrom_none hcs]
    | some pos =>
        rw [hcs] at hnext
        rw [replaceFrom_some hnext, replaceFrom_some hcs, List.take_succ_cons, List.cons_append,
          Nat.add_right_comm, List.drop_succ_cons]

/-- A list only gets shorter, and does so if the pattern is in it. -/
theorem replaceFrom_eq_or_lt (s : List α) : ¬ r.pattern <:+: s ∧ replaceFrom r s = s ∨
    r.pattern <:+: s ∧ (replaceFrom r s).length < s.length := by
  induction hn : s.length using Nat.strong_induction_on generalizing s with
  | _ n ih =>
      have hlong := r.long
      cases s with
      | nil =>
          left
          refine ⟨?_, replaceFrom_nil⟩
          rw [List.infix_nil]
          rintro h
          rw [h] at hlong
          cases hlong
      | cons c cs =>
          rw [List.length_cons] at hn
          rw [replaceFrom_cons]
          by_cases hfits : r.pattern <+: c :: cs
          · right
            refine ⟨hfits.isInfix, ?_⟩
            rw [if_pos hfits]
            have hle := hfits.length_le
            rw [List.length_cons] at hle
            -- the list is shorter after the replacement, and it is searched from its element on
            have hlt : (r.element :: (c :: cs).drop r.pattern.length).length < n := by
              rw [List.length_cons, List.length_drop, List.length_cons]
              omega
            rcases ih _ hlt _ rfl with ⟨-, heq⟩ | ⟨-, hshort⟩
            · rw [heq]
              exact hlt
            · exact hshort.trans hlt
          · rw [if_neg hfits]
            rcases ih cs.length (by omega) cs rfl with ⟨hnot, heq⟩ | ⟨hsub, hshort⟩
            · left
              rw [List.infix_cons_iff, not_or]
              exact ⟨⟨hfits, hnot⟩, by rw [heq]⟩
            · right
              refine ⟨List.infix_cons_iff.mpr (.inr hsub), ?_⟩
              rw [List.length_cons]
              omega

theorem replaceFrom_length_le (s : List α) : (replaceFrom r s).length ≤ s.length := by
  rcases replaceFrom_eq_or_lt (r := r) s with ⟨-, h⟩ | ⟨-, h⟩
  · rw [h]
  · exact h.le

theorem replaceFrom_eq_self_iff (s : List α) : replaceFrom r s = s ↔ ¬ r.pattern <:+: s := by
  rcases replaceFrom_eq_or_lt (r := r) s with ⟨hnot, h⟩ | ⟨hsub, h⟩
  · exact ⟨fun _ => hnot, fun _ => h⟩
  · constructor
    · intro heq
      rw [heq] at h
      omega
    · intro hnot
      exact absurd hsub hnot

end Skunk.Text
