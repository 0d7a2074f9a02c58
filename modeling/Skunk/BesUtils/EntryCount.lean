import Skunk.BesUtils.LeastRecent
import Skunk.Effect.Prog

/-!
# How many entries `ObjMemCache` has

`add` looks at the number of entries before it inserts one, so there can be one more than the threshold.
What it removes is a fraction of what is there, rounded down: where that comes to nothing, the cache goes
on growing. `size_le_iff` says for which thresholds and fractions it does not.
-/

namespace Skunk.BesUtils.ObjMemCache

open Skunk.Container
open Skunk.Effect (bind_eq_ok)

variable {Obj : Type} {entriesThreshold : Nat} {f : ℚ} {s s' : ObjMemCache Obj} {op : Op Obj}

/-- `purge` is called by `add` only. -/
def Plain : Op Obj → Prop
  | .purge _ => False
  | _ => True

/-! ## The number of entries stays within bounds -/

theorem purgeLoop_size {n : Nat} (h : purgeLoop n s = .ok s') :
    s'.cache.size = s.cache.size - n ∧ s'.dEntriesThreshold = s.dEntriesThreshold ∧
      s'.dPurgeThreshold = s.dPurgeThreshold ∧ ∀ e ∈ s'.cache.entries, e ∈ s.cache.entries := by
  induction n generalizing s with
  | zero =>
      obtain rfl := Except.ok.inj h
      exact ⟨rfl, rfl, rfl, fun _ he => he⟩
  | succ n ih =>
      rw [purgeLoop] at h
      split at h
      next hnil =>
        obtain rfl := Except.ok.inj h
        refine ⟨?_, rfl, rfl, fun _ he => he⟩
        rw [OrdMap.size, hnil, List.length_nil, Nat.zero_sub]
      next a e rest hentries =>
        split at h
        · cases h
        · obtain ⟨hsize, hthreshold, hfraction, hmem⟩ := ih h
          have hrest : (s.cache.erase a).entries = rest := OrdMap.entries_erase_first hentries
          refine ⟨?_, hthreshold, hfraction, fun x hx => List.mem_of_mem_filter (hmem x hx)⟩
          rw [hsize, OrdMap.size, OrdMap.size, hrest, hentries, List.length_cons]
          omega

/-- What `add` does if no assertion fails: it makes room, and then it inserts. -/
theorem add_cases {obj : Obj} {key : String} (h : s.add obj key = .ok s') :
    ∃ s₁, purgeLoop s.dueCount s.older = .ok s₁ ∧ s' = s₁.insertEntry ⟨obj, key⟩ := by
  rw [add] at h
  unfold dueCount
  by_cases hfull : s.Full
  · have hfull' : s.older.Full := hfull
    rw [if_pos hfull'] at h
    rw [if_pos hfull]
    obtain ⟨s₁, hpurge, hrest⟩ := bind_eq_ok.mp h
    exact ⟨s₁, hpurge, (Except.ok.inj hrest).symm⟩
  · have hfull' : ¬ s.older.Full := hfull
    rw [if_neg hfull'] at h
    rw [if_neg hfull]
    exact ⟨s.older, rfl, (Except.ok.inj h).symm⟩

/-- The parameters stay, ages have 32 bits, and where a purge at the threshold removes something there is at
most one entry more. -/
structure Bounded (entriesThreshold : Nat) (f : ℚ) (s : ObjMemCache Obj) : Prop where
  threshold : s.dEntriesThreshold = entriesThreshold
  fraction : s.dPurgeThreshold = exactly f
  age_lt : ∀ e ∈ s.cache.entries, e.1 < 2 ^ 32
  size_le : 1 ≤ f * (entriesThreshold + 1) → s.cache.size ≤ entriesThreshold + 1

theorem age_lt_two_pow (s : ObjMemCache Obj) : s.age < 2 ^ 32 := Nat.mod_lt _ (Nat.two_pow_pos 32)

theorem bounded_new : Bounded entriesThreshold f (new entriesThreshold (exactly f) : ObjMemCache Obj) where
  threshold := rfl
  fraction := rfl
  age_lt := List.forall_mem_nil _
  size_le := fun _ => Nat.zero_le _

/-- An operation that leaves no more entries than there were. -/
theorem Bounded.mono (h : Bounded entriesThreshold f s)
    (hthreshold : s'.dEntriesThreshold = s.dEntriesThreshold)
    (hfraction : s'.dPurgeThreshold = s.dPurgeThreshold)
    (hage : ∀ e ∈ s'.cache.entries, e.1 < 2 ^ 32) (hsize : s'.cache.size ≤ s.cache.size) :
    Bounded entriesThreshold f s' where
  threshold := hthreshold.trans h.threshold
  fraction := hfraction.trans h.fraction
  age_lt := hage
  size_le := fun hf => hsize.trans (h.size_le hf)

/-- At one entry more than the threshold something is due. -/
theorem Bounded.room (h : Bounded entriesThreshold f s) (hpos : 0 < entriesThreshold)
    (hf : 1 ≤ f * (entriesThreshold + 1)) : s.cache.size - s.dueCount ≤ entriesThreshold := by
  have hsize := h.size_le hf
  rw [dueCount, h.fraction]
  by_cases hfull : s.Full
  · rw [if_pos hfull]
    have hover : entriesThreshold < s.cache.size := h.threshold ▸ hfull.2
    have hexact : s.cache.size = entriesThreshold + 1 := by omega
    have hdue : 1 ≤ exactly f s.cache.size := by
      rw [exactly, hexact, Nat.le_floor_iff' one_ne_zero]
      push_cast
      exact hf
    omega
  · rw [if_neg hfull]
    have hnot : ¬ entriesThreshold < s.cache.size := by
      intro hover
      refine hfull ⟨?_, ?_⟩ <;> rw [h.threshold]
      · exact Nat.ne_of_gt hpos
      · exact hover
    omega

theorem Bounded.add (h : Bounded entriesThreshold f s) (hpos : 0 < entriesThreshold) {obj : Obj}
    {key : String} (hadd : s.add obj key = .ok s') : Bounded entriesThreshold f s' := by
  obtain ⟨s₁, hpurge, rfl⟩ := add_cases hadd
  obtain ⟨hsize, hthreshold, hfraction, hmem⟩ := purgeLoop_size hpurge
  refine ⟨hthreshold.trans h.threshold, hfraction.trans h.fraction, ?_, ?_⟩
  · intro e he
    rcases OrdMap.mem_insert he with rfl | he
    · exact age_lt_two_pow s₁
    · exact h.age_lt e (hmem e he)
  · intro hf
    have hroom := h.room hpos hf
    have holder : s.older.cache.size = s.cache.size := rfl
    have hone : (s₁.insertEntry ⟨obj, key⟩).cache.size ≤ s₁.cache.size + 1 := OrdMap.size_insert_le _ _ _
    omega

theorem Bounded.get (h : Bounded entriesThreshold f s) {key : String} {obj : Option Obj}
    (hget : s.get key = .ok (obj, s')) : Bounded entriesThreshold f s' := by
  rw [ObjMemCache.get] at hget
  split at hget
  · cases hget
    exact h
  next a _ =>
    split at hget
    · cases hget
    next e he =>
      cases hget
      refine h.mono rfl rfl ?_ ?_
      · intro x hx
        rcases OrdMap.mem_insert hx with rfl | hx
        · exact age_lt_two_pow s.older
        · exact h.age_lt x (List.mem_of_mem_filter hx)
      · have hone := OrdMap.size_insert_le (s.cache.erase a) s.older.age e
        have hgone := OrdMap.size_erase_lt he
        show ((s.cache.erase a).insert s.older.age e).size ≤ s.cache.size
        omega

theorem Bounded.remove (h : Bounded entriesThreshold f s) {key : String}
    (hremove : s.remove key = .ok s') : Bounded entriesThreshold f s' := by
  rw [ObjMemCache.remove] at hremove
  split at hremove
  · cases hremove
    exact h
  next a _ =>
    split at hremove
    · cases hremove
    · cases hremove
      exact h.mono rfl rfl (fun e he => h.age_lt e (List.mem_of_mem_filter he))
        (OrdMap.size_erase_le s.cache a)

theorem Bounded.step (h : Bounded entriesThreshold f s) (hpos : 0 < entriesThreshold) (hplain : Plain op)
    (hstep : s.step op = .ok s') : Bounded entriesThreshold f s' := by
  cases op with
  | add obj key => exact h.add hpos hstep
  | get key =>
      rw [ObjMemCache.step] at hstep
      cases hget : s.get key with
      | error e =>
          rw [hget] at hstep
          cases hstep
      | ok r =>
          rw [hget] at hstep
          cases hstep
          exact h.get hget
  | remove key => exact h.remove hstep
  | purge fraction => exact absurd hplain id

theorem Bounded.run {ops : List (Op Obj)} (h : Bounded entriesThreshold f s) (hpos : 0 < entriesThreshold)
    (hplain : ∀ op ∈ ops, Plain op) (hrun : run ops s = .ok s') : Bounded entriesThreshold f s' := by
  induction ops generalizing s with
  | nil =>
      obtain rfl := Except.ok.inj hrun
      exact h
  | cons op ops ih =>
      obtain ⟨hop, hops⟩ := List.forall_mem_cons.mp hplain
      obtain ⟨s₁, hstep, hrest⟩ := bind_eq_ok.mp hrun
      exact ih (h.step hpos hop hstep) hops hrest

/-- There are no more entries than ages. -/
theorem Bounded.size_le_ages (h : Bounded entriesThreshold f s) : s.cache.size ≤ 2 ^ 32 := by
  have hsub : (s.cache.entries.map Prod.fst) ⊆ List.range (2 ^ 32) := by
    intro a ha
    obtain ⟨e, he, rfl⟩ := List.mem_map.mp ha
    exact List.mem_range.mpr (h.age_lt e he)
  have hle := (List.subperm_of_subset s.cache.nodup_keys hsub).length_le
  rw [List.length_map, List.length_range] at hle
  exact hle

/-! ## A run in which it does not -/

/-- Objects are added under the names of the first `n` numbers. -/
def adds (obj : Obj) (n : Nat) : List (Op Obj) := (List.range n).map fun i => .add obj (numbered i)

/-- After that all of them are there. -/
structure Filled (entriesThreshold : Nat) (f : ℚ) (n : Nat) (s : ObjMemCache Obj) : Prop where
  threshold : s.dEntriesThreshold = entriesThreshold
  fraction : s.dPurgeThreshold = exactly f
  dAge_eq : s.dAge = n
  age_mem : ∀ e ∈ s.cache.entries, 1 ≤ e.1 ∧ e.1 ≤ n
  size_eq : s.cache.size = n
  name_lt : ∀ key a, s.index.find key = some a → ∃ i < n, key = numbered i

theorem filled_new : Filled entriesThreshold f 0 (new entriesThreshold (exactly f) : ObjMemCache Obj) where
  threshold := rfl
  fraction := rfl
  dAge_eq := rfl
  age_mem := List.forall_mem_nil _
  size_eq := rfl
  name_lt := by
    intro key a ha
    cases ha

/-- A name that has not been used is not in the index. -/
theorem Filled.uncached {n : Nat} (h : Filled entriesThreshold f n s) (obj : Obj) :
    s.Uncached (.add obj (numbered n)) := by
  rw [Uncached, Option.eq_none_iff_forall_ne_some]
  intro a ha
  obtain ⟨i, hi, heq⟩ := h.name_lt _ a ha
  have := numbered_injective heq
  omega

/-- Nothing is due where the fraction of all entries is less than one. -/
theorem Filled.dueCount_eq {n : Nat} (h : Filled entriesThreshold f n s) (hf : f * (n : ℚ) < 1) :
    s.dueCount = 0 := by
  rw [dueCount, h.fraction, h.size_eq]
  split
  · exact Nat.floor_eq_zero.mpr hf
  · rfl

/-- With nothing due, one more `add` leaves one more entry. -/
theorem Filled.add {n : Nat} (h : Filled entriesThreshold f n s) (hf : f * (n : ℚ) < 1)
    (hn : n < 2 ^ 32) (obj : Obj) : ∃ s', s.step (.add obj (numbered n)) = .ok s' ∧
      s'.cache.size = n + 1 ∧ (n + 1 < 2 ^ 32 → Filled entriesThreshold f (n + 1) s') := by
  have hadd : s.step (.add obj (numbered n)) = .ok (s.older.insertEntry ⟨obj, numbered n⟩) := by
    -- it can be over the threshold, but nothing is due
    have hnone : s.older.dueCount = 0 := h.dueCount_eq hf
    rw [dueCount] at hnone
    rw [step, ObjMemCache.add]
    by_cases hfull : s.older.Full
    · rw [if_pos hfull] at hnone ⊢
      rw [purge, hnone, purgeLoop]
      rfl
    · rw [if_neg hfull]
      rfl
  have hage : s.older.age = (n + 1) % 2 ^ 32 := by
    show (s.dAge + 1) % 2 ^ 64 % 2 ^ 32 = _
    rw [h.dAge_eq]
    omega
  -- the ages so far are smaller, and the new one is zero if it has wrapped
  have hnew : s.cache.find s.older.age = none := by
    rw [Option.eq_none_iff_forall_ne_some]
    intro e he
    have := h.age_mem _ (OrdMap.find_iff.mp he)
    dsimp only at this
    omega
  refine ⟨_, hadd, ?_, fun hlt => ?_⟩
  · show (s.cache.insert s.older.age _).size = n + 1
    rw [OrdMap.size_insert_new hnew, h.size_eq]
  · refine ⟨h.threshold, h.fraction, ?_, ?_, ?_, ?_⟩
    · show (s.dAge + 1) % 2 ^ 64 = n + 1
      rw [h.dAge_eq]
      omega
    · intro e he
      rcases OrdMap.mem_insert he with rfl | he
      · show 1 ≤ s.older.age ∧ s.older.age ≤ n + 1
        omega
      · have := h.age_mem e he
        omega
    · show (s.cache.insert s.older.age _).size = n + 1
      rw [OrdMap.size_insert_new hnew, h.size_eq]
    · intro key a ha
      change (s.index.insert (numbered n) s.older.age).find key = some a at ha
      rw [OrdMap.find_insert_new (h.uncached obj)] at ha
      split at ha
      next hkey => exact ⟨n, Nat.lt_succ_self n, hkey⟩
      · obtain ⟨i, hi, heq⟩ := h.name_lt key a ha
        exact ⟨i, Nat.lt_succ_of_lt hi, heq⟩

/-- A run that adds one object more than `n`. -/
theorem exists_filled (entriesThreshold : Nat) (obj : Obj) {n : Nat} (hn : n < 2 ^ 32)
    (hf : ∀ m ≤ n, f * (m : ℚ) < 1) :
    ∃ s : ObjMemCache Obj, run (adds obj n) (new entriesThreshold (exactly f)) = .ok s ∧
      RunMeets Uncached (adds obj n) (new entriesThreshold (exactly f)) ∧ Filled entriesThreshold f n s := by
  induction n with
  | zero => exact ⟨_, rfl, trivial, filled_new⟩
  | succ n ih =>
      obtain ⟨s, hrun, hmeets, hfilled⟩ := ih (Nat.lt_of_succ_lt hn) fun m hm => hf m (Nat.le_succ_of_le hm)
      obtain ⟨s', hstep, -, hnext⟩ := hfilled.add (hf n (Nat.le_succ n)) (Nat.lt_of_succ_lt hn) obj
      have hadds : adds obj (n + 1) = adds obj n ++ [.add obj (numbered n)] := by
        rw [adds, List.range_succ, List.map_append]
        rfl
      rw [hadds]
      exact ⟨s', (run_concat hrun).trans hstep, (runMeets_concat hrun).mpr ⟨hmeets, hfilled.uncached obj⟩,
        hnext hn⟩

/-- As long as the fraction comes to nothing, there is a run with one entry more. -/
theorem exists_more (entriesThreshold : Nat) (obj : Obj) {n : Nat} (hn : n < 2 ^ 32) (hf : f * (n : ℚ) < 1) :
    ∃ (ops : List (Op Obj)) (s : ObjMemCache Obj), (∀ op ∈ ops, Plain op) ∧
      RunMeets Uncached ops (new entriesThreshold (exactly f)) ∧
      run ops (new entriesThreshold (exactly f)) = .ok s ∧ s.cache.size = n + 1 := by
  have hall : ∀ m ≤ n, f * (m : ℚ) < 1 := by
    intro m hm
    rcases le_total 0 f with hpos | hneg
    · exact lt_of_le_of_lt (mul_le_mul_of_nonneg_left (Nat.cast_le.mpr hm) hpos) hf
    · exact lt_of_le_of_lt (mul_nonpos_of_nonpos_of_nonneg hneg (Nat.cast_nonneg m)) one_pos
  obtain ⟨s, hrun, hmeets, hfilled⟩ := exists_filled entriesThreshold obj hn hall
  obtain ⟨s', hstep, hsize, -⟩ := hfilled.add hf hn obj
  refine ⟨adds obj n ++ [.add obj (numbered n)], s', ?_, (runMeets_concat hrun).mpr
    ⟨hmeets, hfilled.uncached obj⟩, (run_concat hrun).trans hstep, hsize⟩
  intro op hop
  rcases List.mem_append.mp hop with hop | hop
  · obtain ⟨i, -, rfl⟩ := List.mem_map.mp hop
    trivial
  · obtain rfl := List.mem_singleton.mp hop
    trivial

/-! ## For which parameters -/

/-- In every run that adds under uncached names only there is at most one entry more than the threshold,
exactly if at that many entries a purge removes something, or if there are no more ages than that. -/
theorem size_le_iff (obj : Obj) (hpos : 0 < entriesThreshold) (hlt : entriesThreshold < 2 ^ 32) :
    (∀ (ops : List (Op Obj)) (s : ObjMemCache Obj), (∀ op ∈ ops, Plain op) →
      RunMeets Uncached ops (new entriesThreshold (exactly f)) →
      run ops (new entriesThreshold (exactly f)) = .ok s → s.cache.size ≤ entriesThreshold + 1) ↔
    1 ≤ f * (entriesThreshold + 1) ∨ entriesThreshold + 1 = 2 ^ 32 := by
  constructor
  · intro hall
    by_contra hnot
    rw [not_or, not_le] at hnot
    have hf : f * ((entriesThreshold + 1 : Nat) : ℚ) < 1 := by
      push_cast
      exact hnot.1
    obtain ⟨ops, s, hplain, hmeets, hrun, hsize⟩ :=
      exists_more entriesThreshold obj (by omega) hf
    have hle := hall ops s hplain hmeets hrun
    omega
  · intro hparams ops s hplain _ hrun
    have hbounded := bounded_new.run hpos hplain hrun
    rcases hparams with hf | hages
    · exact hbounded.size_le hf
    · exact hages ▸ hbounded.size_le_ages

/-- Up to nine entries, and a fifth of ten. -/
theorem size_le_of_fifth :
    (∀ (ops : List (Op Nat)) (s : ObjMemCache Nat), (∀ op ∈ ops, Plain op) →
      RunMeets Uncached ops (new 9 (exactly (1 / 5))) →
      run ops (new 9 (exactly (1 / 5))) = .ok s → s.cache.size ≤ 9 + 1) ↔
    1 ≤ (1 / 5 : ℚ) * ((9 : Nat) + 1) ∨ 9 + 1 = 2 ^ 32 :=
  size_le_iff 0 (by decide) (by decide)

/-- A tenth of two entries is none: with a threshold of one the third object stays. -/
theorem not_size_le_two :
    ¬ ∀ (entriesThreshold : Nat) (f : ℚ), 0 < entriesThreshold → entriesThreshold < 2 ^ 32 → 0 < f → f ≤ 1 →
      ∀ (ops : List (Op Nat)) (s : ObjMemCache Nat), (∀ op ∈ ops, Plain op) →
        RunMeets Uncached ops (new entriesThreshold (exactly f)) →
        run ops (new entriesThreshold (exactly f)) = .ok s → s.cache.size ≤ entriesThreshold + 1 := by
  intro hall
  have hf : (1 / 10 : ℚ) * (2 : Nat) < 1 := by norm_num
  obtain ⟨ops, s, hplain, hmeets, hrun, hsize⟩ := exists_more 1 0 (by decide) hf
  have hle := hall 1 (1 / 10) (by decide) (by decide) (by norm_num) (by norm_num) ops s hplain hmeets hrun
  omega

end Skunk.BesUtils.ObjMemCache
