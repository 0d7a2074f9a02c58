import Skunk.Text.Search

/-!
# Cutting at the occurrences of a pattern

`Cut pattern s pieces` says that `pieces` are what stands between the occurrences of the pattern in `s`, if
one goes from the left and goes on behind each occurrence. So the pieces with the pattern between them are
`s` again (`Cut.intercalate`), and with something else between them they are `s` with its occurrences
replaced.

There is one such cut if there is something to find (`exists_cut`, `Cut.unique`).
-/

namespace Skunk.Text

variable {α : Type}

/-- The pieces between the occurrences. A piece ends where the pattern begins for the first time. -/
inductive Cut (pattern : List α) : List α → List (List α) → Prop
  | last {s : List α} (hnone : ¬ pattern <:+: s) : Cut pattern s [s]
  | more {front rest : List α} {pieces : List (List α)}
      (hfirst : ∀ j < front.length, ¬ pattern <+: (front ++ (pattern ++ rest)).drop j)
      (hrest : Cut pattern rest pieces) : Cut pattern (front ++ (pattern ++ rest)) (front :: pieces)

variable {pattern s : List α} {pieces : List (List α)}

theorem Cut.ne_nil (h : Cut pattern s pieces) : pieces ≠ [] := by
  cases h <;> exact List.cons_ne_nil _ _

theorem Cut.intercalate (h : Cut pattern s pieces) : pattern.intercalate pieces = s := by
  induction h with
  | last hnone => exact List.intercalate_singleton
  | more hfirst hrest ih => rw [List.intercalate_cons_of_ne_nil hrest.ne_nil, ih, List.append_assoc]

/-! ## The first occurrence -/

variable [DecidableEq α]

theorem findSub_eq_none_iff : findSub pattern s = none ↔ ¬ pattern <:+: s := by
  induction s with
  | nil => simp [findSub]
  | cons c cs ih =>
      by_cases hfits : pattern <+: c :: cs
      · simp [findSub_of_fits hfits, hfits.isInfix]
      · rw [findSub_of_not hfits, Option.map_eq_none_iff, ih, List.infix_cons_iff]
        simp [hfits]

/-- Where a pattern begins for the first time it is found. -/
theorem findSub_of_first {k : Nat} (hfits : pattern <+: s.drop k)
    (hfirst : ∀ j < k, ¬ pattern <+: s.drop j) (hk : k ≤ s.length) : findSub pattern s = some k := by
  induction s generalizing k with
  | nil =>
      obtain rfl : k = 0 := by simpa using hk
      rw [List.drop_nil, List.prefix_nil] at hfits
      simp [findSub, hfits]
  | cons c cs ih =>
      cases k with
      | zero => exact findSub_of_fits hfits
      | succ k =>
          have hnot : ¬ pattern <+: c :: cs := hfirst 0 (Nat.succ_pos k)
          have hnext : findSub pattern cs = some k := by
            apply ih hfits
            · intro j hj
              exact hfirst (j + 1) (Nat.succ_lt_succ hj)
            · simpa using hk
          rw [findSub_of_not hnot, hnext]
          rfl

/-- What is found is the first place, and the list is made up of three parts. -/
theorem exists_of_findSub {k : Nat} (h : findSub pattern s = some k) :
    ∃ front rest, s = front ++ (pattern ++ rest) ∧ front.length = k ∧
      ∀ j < k, ¬ pattern <+: s.drop j := by
  induction s generalizing k with
  | nil =>
      rw [findSub] at h
      split at h
      next hnil =>
        cases h
        exact ⟨[], [], by simp [hnil], rfl, by simp⟩
      · cases h
  | cons c cs ih =>
      by_cases hfits : pattern <+: c :: cs
      · rw [findSub_of_fits hfits] at h
        cases h
        obtain ⟨rest, hrest⟩ := hfits
        exact ⟨[], rest, hrest.symm, rfl, by simp⟩
      · rw [findSub_of_not hfits, Option.map_eq_some_iff] at h
        obtain ⟨j, hj, rfl⟩ := h
        obtain ⟨front, rest, rfl, rfl, hfirst⟩ := ih hj
        refine ⟨c :: front, rest, rfl, rfl, ?_⟩
        intro i hi
        cases i with
        | zero => exact hfits
        | succ i => exact hfirst i (Nat.lt_of_succ_lt_succ hi)

theorem findSub_front {front rest : List α}
    (hfirst : ∀ j < front.length, ¬ pattern <+: (front ++ (pattern ++ rest)).drop j) :
    findSub pattern (front ++ (pattern ++ rest)) = some front.length := by
  apply findSub_of_first _ hfirst
  · simp
  · rw [List.drop_left]
    exact List.prefix_append _ _

theorem exists_cut (hne : pattern ≠ []) (s : List α) : ∃ pieces, Cut pattern s pieces := by
  induction hn : s.length using Nat.strong_induction_on generalizing s with
  | _ n ih =>
      cases hfind : findSub pattern s with
      | none => exact ⟨[s], .last (findSub_eq_none_iff.mp hfind)⟩
      | some k =>
          obtain ⟨front, rest, rfl, rfl, hfirst⟩ := exists_of_findSub hfind
          have hshorter : rest.length < n := by
            have := List.length_pos_iff.mpr hne
            simp only [List.length_append] at hn
            omega
          obtain ⟨pieces, hpieces⟩ := ih rest.length hshorter rest rfl
          exact ⟨front :: pieces, .more hfirst hpieces⟩

theorem Cut.unique {others : List (List α)} (h : Cut pattern s pieces) (h' : Cut pattern s others) :
    pieces = others := by
  induction h generalizing others with
  | last hnone =>
      cases h' with
      | last _ => rfl
      | more hfirst hrest => exact absurd ⟨_, _, List.append_assoc _ _ _⟩ hnone
  | @more front rest pieces hfirst hrest ih =>
      -- both cuts begin with what is in front of the first place
      have hfind := findSub_front hfirst
      generalize hs : front ++ (pattern ++ rest) = s at h' hfind
      cases h' with
      | last hnone =>
          rw [findSub_eq_none_iff.mpr hnone] at hfind
          cases hfind
      | @more front' rest' pieces' hfirst' hrest' =>
          have hlength : front.length = front'.length := by
            rw [findSub_front hfirst', Option.some.injEq] at hfind
            exact hfind.symm
          obtain ⟨rfl, hbehind⟩ := List.append_inj hs hlength
          obtain rfl := List.append_cancel_left hbehind
          rw [ih hrest']

end Skunk.Text
