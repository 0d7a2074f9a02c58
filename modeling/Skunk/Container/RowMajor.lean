import Mathlib.Algebra.Group.Action.Defs
import Mathlib.Data.List.Forall2
import Mathlib.Data.List.Nodup
import Mathlib.Algebra.BigOperators.Group.List.Basic

/-!
# Row-major order

The tuples with one component from each of several lists, the last component running fastest. A buffer
that holds a value for each of them holds it row after row: what belongs to the `i`-th tuple of the
leading components is the `i`-th piece of the buffer.
-/

namespace Skunk.Container

variable {α β : Type}

/-- All tuples, in row-major order. -/
def rowMajor : List (List α) → List (List α)
  | [] => [[]]
  | l :: ls => l.flatMap fun a => (rowMajor ls).map (a :: ·)

theorem mem_rowMajor {ls : List (List α)} {t : List α} :
    t ∈ rowMajor ls ↔ List.Forall₂ (fun l a => a ∈ l) ls t := by
  induction ls generalizing t with
  | nil => rw [rowMajor, List.mem_singleton, List.forall₂_nil_left_iff]
  | cons l ls ih =>
      rw [rowMajor, List.mem_flatMap, List.forall₂_cons_left_iff]
      constructor
      · rintro ⟨a, ha, hmem⟩
        obtain ⟨t', ht', rfl⟩ := List.mem_map.mp hmem
        exact ⟨a, t', ha, ih.mp ht', rfl⟩
      · rintro ⟨a, t', ha, ht', rfl⟩
        exact ⟨a, ha, List.mem_map_of_mem (ih.mpr ht')⟩

theorem length_rowMajor (ls : List (List α)) :
    (rowMajor ls).length = (ls.map List.length).prod := by
  induction ls with
  | nil => rfl
  | cons l ls ih =>
      rw [rowMajor, List.length_flatMap, List.map_cons, List.prod_cons, ← ih]
      simp only [List.length_map, List.map_const', List.sum_replicate, smul_eq_mul]

/-- There is no tuple where one component has nothing to be. -/
theorem rowMajor_eq_nil {ls : List (List α)} (h : [] ∈ ls) : rowMajor ls = [] := by
  induction ls with
  | nil => exact absurd h List.not_mem_nil
  | cons l ls ih =>
      rcases List.mem_cons.mp h with rfl | h
      · rfl
      · simp [rowMajor, ih h]

theorem nodup_rowMajor {ls : List (List α)} (h : ∀ l ∈ ls, l.Nodup) : (rowMajor ls).Nodup := by
  induction ls with
  | nil => exact List.nodup_singleton _
  | cons l ls ih =>
      obtain ⟨hl, hls⟩ := List.forall_mem_cons.mp h
      rw [rowMajor, List.nodup_flatMap]
      refine ⟨fun a _ => (ih hls).map fun _ _ heq => (List.cons.inj heq).2, hl.imp ?_⟩
      -- tuples with different heads
      intro a b hne t hta htb
      obtain ⟨_, -, rfl⟩ := List.mem_map.mp hta
      obtain ⟨_, -, heq⟩ := List.mem_map.mp htb
      exact hne (List.cons.inj heq).1.symm

theorem exists_forall₂ {Q : α → β → Prop} {l : List α} (h : ∀ a ∈ l, ∃ b, Q a b) : ∃ t, List.Forall₂ Q l t := by
  induction l with
  | nil => exact ⟨[], .nil⟩
  | cons a l ih =>
      obtain ⟨⟨b, hb⟩, hl⟩ := List.forall_mem_cons.mp h
      obtain ⟨t, ht⟩ := ih hl
      exact ⟨b :: t, .cons hb ht⟩

/-- If the same tuples are allowed and there are some, each component allows the same. -/
theorem forall_iff_of_forall₂_iff {P Q : α → β → Prop} {l : List α}
    (h : ∀ t, List.Forall₂ P l t ↔ List.Forall₂ Q l t) (hsome : ∀ a ∈ l, ∃ b, Q a b) :
    ∀ a ∈ l, ∀ b, P a b ↔ Q a b := by
  induction l with
  | nil => simp
  | cons a l ih =>
      obtain ⟨⟨b₀, hb₀⟩, hsome⟩ := List.forall_mem_cons.mp hsome
      obtain ⟨t₀, ht₀⟩ := exists_forall₂ hsome
      obtain ⟨hhead, htail⟩ := List.forall₂_cons.mp ((h (b₀ :: t₀)).mpr (.cons hb₀ ht₀))
      refine List.forall_mem_cons.mpr ⟨fun b => ?_, ih (fun t => ?_) hsome⟩
      -- the other components stay as they are
      · simpa [htail, ht₀] using h (b :: t₀)
      · simpa [hhead, hb₀] using h (b₀ :: t)

/-- One more component runs within each tuple of the others. -/
theorem rowMajor_concat (ls : List (List α)) (l : List α) :
    rowMajor (ls ++ [l]) = (rowMajor ls).flatMap fun t => l.map fun a => t ++ [a] := by
  induction ls with
  | nil =>
      show (l.flatMap fun a => [[a]]) = (l.map fun a => [a]) ++ []
      rw [List.append_nil, List.map_eq_flatMap]
  | cons l' ls ih =>
      rw [List.cons_append, rowMajor, ih, rowMajor, List.flatMap_assoc]
      apply List.flatMap_congr
      intro a _
      rw [List.map_flatMap, List.flatMap_map]
      apply List.flatMap_congr
      intro t _
      rw [List.map_map]
      rfl

/-- Where all pieces have the same length, the `i`-th is found at `i` times that length. -/
theorem take_drop_flatMap {f : α → List β} {l : List α} {width : Nat}
    (h : ∀ a ∈ l, (f a).length = width) {i : Nat} (hi : i < l.length) :
    ((l.flatMap f).drop (i * width)).take width = f l[i] := by
  induction l generalizing i with
  | nil => exact absurd hi (Nat.not_lt_zero i)
  | cons a l ih =>
      obtain ⟨ha, hl⟩ := List.forall_mem_cons.mp h
      rw [List.flatMap_cons]
      cases i with
      | zero => rw [Nat.zero_mul, List.drop_zero, List.take_left' ha, List.getElem_cons_zero]
      | succ i =>
          rw [Nat.succ_mul, Nat.add_comm, ← List.drop_drop, List.drop_left' ha,
            ih hl (Nat.lt_of_succ_lt_succ hi), List.getElem_cons_succ]

end Skunk.Container
