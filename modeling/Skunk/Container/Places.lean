import Mathlib.Data.List.Forall2
import Skunk.Container.RowMajor

/-!
# Places in row-major order

A tuple of positions, one in each list, has a place among all tuples (`getElem?_rowMajor`). So a selection
can be made before the tuples are laid out in a row, or afterwards (`map_select`).
-/

namespace Skunk.Container

variable {α β : Type}

/-- The place of a tuple of positions, where the lists have these lengths. -/
def place : List Nat → List Nat → Nat
  | _ :: lengths, p :: ps => p * lengths.prod + place lengths ps
  | _, _ => 0

/-- The entries at these positions, one in each list. -/
def entries : List (List α) → List Nat → Option (List α)
  | [], [] => some []
  | l :: ls, p :: ps => l[p]?.bind fun a => (entries ls ps).map (a :: ·)
  | _, _ => none

theorem entries_cons_eq_some {l : List α} {ls : List (List α)} {p : Nat} {ps : List Nat} {t : List α} :
    entries (l :: ls) (p :: ps) = some t ↔
      ∃ a t', l[p]? = some a ∧ entries ls ps = some t' ∧ a :: t' = t := by
  simp [entries, Option.bind_eq_some_iff]

/-- One of the entries. -/
theorem getElem?_entries {ls : List (List α)} {ps : List Nat} {t : List α} (h : entries ls ps = some t)
    {j : Nat} {l : List α} (hl : ls[j]? = some l) : ∃ p a, ps[j]? = some p ∧ t[j]? = some a ∧ l[p]? = some a := by
  induction ls generalizing ps t j with
  | nil => simp at hl
  | cons l' ls ih =>
      cases ps with
      | nil => simp [entries] at h
      | cons p ps =>
          obtain ⟨a, t', ha, ht', rfl⟩ := entries_cons_eq_some.mp h
          cases j with
          | zero =>
              obtain rfl := Option.some.inj hl
              exact ⟨p, a, rfl, rfl, ha⟩
          | succ j => exact ih ht' hl

theorem rowMajor_singleton (l : List α) : rowMajor [l] = l.map fun a => [a] := by
  simp [rowMajor, List.map_eq_flatMap]

/-- Where all pieces have the same length, the `j`-th of the `i`-th is found by counting. -/
theorem getElem?_flatMap {f : α → List β} {l : List α} {width : Nat} (h : ∀ a ∈ l, (f a).length = width)
    {i j : Nat} {a : α} (ha : l[i]? = some a) (hj : j < width) :
    (l.flatMap f)[i * width + j]? = (f a)[j]? := by
  obtain ⟨hi, rfl⟩ := List.getElem?_eq_some_iff.mp ha
  rw [← take_drop_flatMap h hi, List.getElem?_take_of_lt hj, List.getElem?_drop]

theorem place_lt {ls : List (List α)} {ps : List Nat} {t : List α} (h : entries ls ps = some t) :
    place (ls.map List.length) ps < (ls.map List.length).prod := by
  induction ls generalizing ps t with
  | nil =>
      cases ps with
      | nil => simp [place]
      | cons p ps => simp [entries] at h
  | cons l ls ih =>
      cases ps with
      | nil => simp [entries] at h
      | cons p ps =>
          obtain ⟨a, t', ha, ht', rfl⟩ := entries_cons_eq_some.mp h
          obtain ⟨hp, -⟩ := List.getElem?_eq_some_iff.mp ha
          have hrest := ih ht'
          have hmul : (p + 1) * (ls.map List.length).prod ≤ l.length * (ls.map List.length).prod :=
            Nat.mul_le_mul_right _ hp
          simp only [List.map_cons, place, List.prod_cons]
          rw [Nat.succ_mul] at hmul
          omega

/-- A tuple stands at its place. -/
theorem getElem?_rowMajor {ls : List (List α)} {ps : List Nat} {t : List α} (h : entries ls ps = some t) :
    (rowMajor ls)[place (ls.map List.length) ps]? = some t := by
  induction ls generalizing ps t with
  | nil =>
      cases ps with
      | nil => simpa [entries, rowMajor, place] using h
      | cons p ps => simp [entries] at h
  | cons l ls ih =>
      cases ps with
      | nil => simp [entries] at h
      | cons p ps =>
          obtain ⟨a, t', ha, ht', rfl⟩ := entries_cons_eq_some.mp h
          have hlength : ∀ b ∈ l, ((rowMajor ls).map (b :: ·)).length = (ls.map List.length).prod := by
            intro b _
            rw [List.length_map, length_rowMajor]
          simp only [List.map_cons, place]
          rw [rowMajor, getElem?_flatMap hlength ha (place_lt ht'), List.getElem?_map, ih ht']
          rfl

/-- What belongs to some of the tuples is found at their places. -/
theorem map_select {whole ts : List (List α)} {positions : List α → List Nat}
    (h : ∀ t ∈ ts, entries whole (positions t) = some t) (f : List α → β) :
    (ts.map f).map some =
      ts.map fun t => ((rowMajor whole).map f)[place (whole.map List.length) (positions t)]? := by
  rw [List.map_map]
  apply List.map_congr_left
  intro t ht
  rw [List.getElem?_map, getElem?_rowMajor (h t ht)]
  rfl

end Skunk.Container
