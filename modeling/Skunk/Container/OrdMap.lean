import Mathlib.Order.Lattice
import Mathlib.Data.List.Basic

/-!
# Ordered maps

A map whose entries stand in the order of their keys, as in `std::map`: `insert` does nothing under a
key that is there already, and the first entry is the one with the least key.

What a map holds is said by `find`; `find_insert_new` and `find_erase` are all that is needed of the two
updates. What depends on the order is said by `entries`.
-/

namespace Skunk.Container

/-- The entries of a map, from the least key to the greatest. -/
structure OrdMap (κ ν : Type) [LinearOrder κ] where
  entries : List (κ × ν)
  sorted : entries.Pairwise (fun x y => x.1 < y.1)

namespace OrdMap

variable {κ ν : Type} [LinearOrder κ]

def empty : OrdMap κ ν := ⟨[], .nil⟩

def find (m : OrdMap κ ν) (k : κ) : Option ν := (m.entries.find? (fun e => e.1 = k)).map Prod.snd

def size (m : OrdMap κ ν) : Nat := m.entries.length

def erase (m : OrdMap κ ν) (k : κ) : OrdMap κ ν where
  entries := m.entries.filter (fun e => e.1 ≠ k)
  sorted := m.sorted.filter _

theorem sorted_insert (m : OrdMap κ ν) (k : κ) (v : ν) :
    (m.entries.filter (fun e => e.1 < k) ++ (k, v) :: m.entries.filter (fun e => k < e.1)).Pairwise
      (fun x y => x.1 < y.1) := by
  rw [List.pairwise_append, List.pairwise_cons]
  refine ⟨m.sorted.filter _, ⟨?_, m.sorted.filter _⟩, ?_⟩
  · intro e he
    simpa using (List.mem_filter.mp he).2
  · intro x hx y hy
    have hxk : x.1 < k := by simpa using (List.mem_filter.mp hx).2
    rcases List.mem_cons.mp hy with rfl | hy
    · exact hxk
    · exact lt_trans hxk (by simpa using (List.mem_filter.mp hy).2)

def insert (m : OrdMap κ ν) (k : κ) (v : ν) : OrdMap κ ν :=
  if (m.find k).isSome then m
  else ⟨m.entries.filter (fun e => e.1 < k) ++ (k, v) :: m.entries.filter (fun e => k < e.1),
    m.sorted_insert k v⟩

/-! ## Lookup -/

@[simp] theorem find_empty (k : κ) : (empty : OrdMap κ ν).find k = none := rfl

theorem find_iff {m : OrdMap κ ν} {k : κ} {v : ν} : m.find k = some v ↔ (k, v) ∈ m.entries := by
  obtain ⟨entries, sorted⟩ := m
  show (entries.find? _).map Prod.snd = some v ↔ (k, v) ∈ entries
  induction entries with
  | nil => simp
  | cons e entries ih =>
      obtain ⟨hlt, hsorted⟩ := List.pairwise_cons.mp sorted
      by_cases he : e.1 = k
      · rw [List.find?_cons_of_pos (by simpa using he)]
        constructor
        · intro h
          obtain rfl : e.2 = v := Option.some.inj h
          rw [← he]
          exact List.mem_cons_self
        · intro h
          rcases List.mem_cons.mp h with rfl | h
          · rfl
          · exact absurd he (ne_of_lt (hlt _ h))
      · rw [List.find?_cons_of_neg (by simpa using he), ih hsorted, List.mem_cons]
        constructor
        · exact .inr
        · rintro (rfl | h)
          · exact absurd rfl he
          · exact h

theorem find_eq_of_mem_iff {m m' : OrdMap κ ν} {k k' : κ}
    (h : ∀ v, (k, v) ∈ m.entries ↔ (k', v) ∈ m'.entries) : m.find k = m'.find k' := by
  apply Option.ext
  intro v
  rw [find_iff, find_iff, h]

theorem find_erase (m : OrdMap κ ν) (k k' : κ) :
    (m.erase k).find k' = if k' = k then none else m.find k' := by
  by_cases hk : k' = k
  · subst hk
    rw [if_pos rfl, Option.eq_none_iff_forall_ne_some]
    intro v hv
    rw [find_iff] at hv
    simpa using (List.mem_filter.mp hv).2
  · rw [if_neg hk]
    apply find_eq_of_mem_iff
    intro v
    simp [erase, hk]

theorem insert_old {m : OrdMap κ ν} {k : κ} {w : ν} (h : m.find k = some w) (v : ν) :
    m.insert k v = m := by
  rw [insert, h]
  rfl

theorem find_insert_new {m : OrdMap κ ν} {k : κ} (h : m.find k = none) (v : ν) (k' : κ) :
    (m.insert k v).find k' = if k' = k then some v else m.find k' := by
  rw [insert, h, if_neg (by simp)]
  by_cases hk : k' = k
  · subst hk
    rw [if_pos rfl, find_iff]
    simp
  · rw [if_neg hk]
    apply find_eq_of_mem_iff
    intro w
    simp only [List.mem_append, List.mem_cons, List.mem_filter, decide_eq_true_eq, Prod.mk.injEq, hk,
      false_and, false_or]
    constructor
    · rintro (hw | hw) <;> exact hw.1
    · intro hw
      rcases lt_or_gt_of_ne hk with hlt | hgt
      · exact .inl ⟨hw, hlt⟩
      · exact .inr ⟨hw, hgt⟩

/-- `m[k] = v`. -/
def set (m : OrdMap κ ν) (k : κ) (v : ν) : OrdMap κ ν := (m.erase k).insert k v

theorem find_set (m : OrdMap κ ν) (k : κ) (v : ν) (k' : κ) :
    (m.set k v).find k' = if k' = k then some v else m.find k' := by
  unfold set
  rw [find_insert_new (by rw [find_erase, if_pos rfl]), find_erase]
  split <;> rfl

def mapValues (g : ν → ν) (m : OrdMap κ ν) : OrdMap κ ν where
  entries := m.entries.map fun e => (e.1, g e.2)
  sorted := List.pairwise_map.mpr m.sorted

theorem find_mapValues (g : ν → ν) (m : OrdMap κ ν) (k : κ) :
    (m.mapValues g).find k = (m.find k).map g := by
  show ((m.entries.map _).find? _).map _ = ((m.entries.find? _).map _).map _
  rw [List.find?_map, Option.map_map, Option.map_map]
  rfl

/-! ## Order -/

/-- Without its first entry a map has the others. -/
theorem entries_erase_first {m : OrdMap κ ν} {k : κ} {v : ν} {rest : List (κ × ν)}
    (h : m.entries = (k, v) :: rest) : (m.erase k).entries = rest := by
  have hlt : ∀ e ∈ rest, k < e.1 := by
    have hsorted := m.sorted
    rw [h, List.pairwise_cons] at hsorted
    exact hsorted.1
  show m.entries.filter _ = rest
  rw [h, List.filter_cons_of_neg (by simp), List.filter_eq_self]
  intro e he
  simpa using ne_of_gt (hlt e he)

/-- What has the greatest key comes last. -/
theorem entries_insert_last {m : OrdMap κ ν} {k : κ} (h : ∀ e ∈ m.entries, e.1 < k) (v : ν) :
    (m.insert k v).entries = m.entries ++ [(k, v)] := by
  have hnone : m.find k = none := by
    rw [Option.eq_none_iff_forall_ne_some]
    intro w hw
    exact lt_irrefl k (h _ (find_iff.mp hw))
  have hbefore : m.entries.filter (fun e => e.1 < k) = m.entries :=
    List.filter_eq_self.mpr fun e he => decide_eq_true (h e he)
  have hafter : m.entries.filter (fun e => k < e.1) = [] :=
    List.filter_eq_nil_iff.mpr fun e he => by simpa using le_of_lt (h e he)
  rw [insert, hnone, if_neg (by simp)]
  simp only [hbefore, hafter]

theorem nodup_keys (m : OrdMap κ ν) : (m.entries.map Prod.fst).Nodup := by
  rw [List.nodup_iff_pairwise_ne, List.pairwise_map]
  exact m.sorted.imp ne_of_lt

/-- A map has as many entries as it has keys. -/
theorem size_eq_length {m : OrdMap κ ν} {keys : List κ} (hnodup : keys.Nodup)
    (h : ∀ k, k ∈ keys ↔ (m.find k).isSome) : m.size = keys.length := by
  have hperm : (m.entries.map Prod.fst).Perm keys := by
    rw [List.perm_ext_iff_of_nodup m.nodup_keys hnodup]
    intro k
    rw [h, Option.isSome_iff_exists]
    simp only [find_iff, List.mem_map, Prod.exists, exists_and_right, exists_eq_right]
  simpa [size] using hperm.length_eq

theorem size_erase_le (m : OrdMap κ ν) (k : κ) : (m.erase k).size ≤ m.size := List.length_filter_le _ _

theorem size_erase_lt {m : OrdMap κ ν} {k : κ} {v : ν} (h : m.find k = some v) :
    (m.erase k).size < m.size :=
  List.length_filter_lt_length_iff_exists.mpr ⟨(k, v), find_iff.mp h, by simp⟩

theorem size_insert_new {m : OrdMap κ ν} {k : κ} (h : m.find k = none) (v : ν) :
    (m.insert k v).size = m.size + 1 := by
  have hnew : k ∉ m.entries.map Prod.fst := by
    intro hmem
    obtain ⟨⟨_, w⟩, hw, rfl⟩ := List.mem_map.mp hmem
    rw [find_iff.mpr hw] at h
    cases h
  rw [size_eq_length (List.nodup_cons.mpr ⟨hnew, m.nodup_keys⟩), List.length_cons, List.length_map, size]
  intro k'
  rw [find_insert_new h, List.mem_cons]
  split
  next hk => simp [hk]
  next hk =>
    rw [or_iff_right hk, Option.isSome_iff_exists]
    simp only [find_iff, List.mem_map, Prod.exists, exists_and_right, exists_eq_right]

theorem size_insert_le (m : OrdMap κ ν) (k : κ) (v : ν) : (m.insert k v).size ≤ m.size + 1 := by
  cases h : m.find k with
  | none => exact Nat.le_of_eq (size_insert_new h v)
  | some w =>
      rw [insert_old h]
      exact Nat.le_succ _

/-- What is in a map after an insertion was there, or has been inserted. -/
theorem mem_insert {m : OrdMap κ ν} {k : κ} {v : ν} {e : κ × ν} (h : e ∈ (m.insert k v).entries) :
    e = (k, v) ∨ e ∈ m.entries := by
  cases hk : m.find k with
  | some w =>
      rw [insert_old hk] at h
      exact .inr h
  | none =>
      have hfind : (m.insert k v).find e.1 = some e.2 := find_iff.mpr h
      rw [find_insert_new hk] at hfind
      split at hfind
      next heq => exact .inl (Prod.ext heq (Option.some.inj hfind).symm)
      · exact .inr (find_iff.mp hfind)

end OrdMap

/-- A key for each number. -/
def numbered (n : Nat) : String := .ofList (List.replicate n 'a')

theorem numbered_injective : Function.Injective numbered := by
  intro n m h
  exact List.replicate_left_injective 'a' (String.ofList_injective h)

end Skunk.Container
