import Mathlib.Data.Rat.Floor
import Skunk.BesUtils.ObjMemCache

/-!
# What `ObjMemCache` purges

The cache is ordered by the ages of its entries, and `get` gives an entry a new age by erasing it and
inserting it again. So the order of the cache is the order in which its names were last used: `Tracked`
says so of a cache and of the operations that led to it. A purge takes a prefix of the cache, and that is
what was used least recently.
-/

namespace Skunk.BesUtils.ObjMemCache

open Skunk.Container

variable {Obj : Type}

/-! ## The history -/

def uses (key : String) : Op Obj → Bool
  | .add _ k => k = key
  | .get k => k = key
  | .remove _ | .purge _ => false

/-- How many operations ago a name was last used. -/
def idleFor (ops : List (Op Obj)) (key : String) : Nat := ops.reverse.findIdx (uses key)

/-- The object that an operation adds under a name. -/
def added (key : String) : Op Obj → Option Obj
  | .add obj k => if k = key then some obj else none
  | _ => none

/-- The object that was last added under a name. -/
def lastAdded (ops : List (Op Obj)) (key : String) : Option Obj := ops.reverse.findSome? (added key)

/-- A fraction without rounding errors. -/
def exactly (f : ℚ) : Fraction := fun n => ⌊f * n⌋₊

theorem idleFor_concat (ops : List (Op Obj)) (op : Op Obj) (key : String) :
    idleFor (ops ++ [op]) key = if uses key op then 0 else idleFor ops key + 1 := by
  unfold idleFor
  rw [List.reverse_concat, List.findIdx_cons]
  cases uses key op <;> rfl

theorem lastAdded_concat (ops : List (Op Obj)) (op : Op Obj) (key : String) :
    lastAdded (ops ++ [op]) key = (added key op).or (lastAdded ops key) := by
  unfold lastAdded
  rw [List.reverse_concat, List.findSome?_cons]
  cases added key op <;> rfl

theorem added_of_not_uses {key : String} {op : Op Obj} (h : uses key op = false) :
    added key op = none := by
  cases op with
  | add obj k => exact if_neg (of_decide_eq_false h)
  | get k => rfl
  | remove k => rfl
  | purge fraction => rfl

theorem exactly_le {f : ℚ} (hf : f ≤ 1) (n : Nat) : exactly f n ≤ n := by
  have hle : f * n ≤ n := mul_le_of_le_one_left (Nat.cast_nonneg n) hf
  exact Nat.floor_le_of_le hle

/-! ## Order and recency -/

/-- The cache is in the order in which its names were last used, and has the objects last added. -/
structure Tracked (entriesThreshold : Nat) (f : ℚ) (ops : List (Op Obj)) (s : ObjMemCache Obj) :
    Prop where
  inv : s.Inv
  threshold : s.dEntriesThreshold = entriesThreshold
  fraction : s.dPurgeThreshold = exactly f
  order : ∀ a e b e', s.cache.find a = some e → s.cache.find b = some e' → a < b →
    idleFor ops e'.name < idleFor ops e.name
  own : ∀ e, s.Holds e → lastAdded ops e.name = some e.obj

/-- What a purge of `n` entries does, after the operations `ops`. -/
structure PurgedOldest (ops : List (Op Obj)) (n : Nat) (s s' : ObjMemCache Obj)
    (gone : List (Entry Obj)) : Prop where
  length_eq : gone.length = n
  nodup : gone.Nodup
  size_eq : s'.cache.size + n = s.cache.size
  holds_iff : ∀ e, s.Holds e ↔ e ∈ gone ∨ s'.Holds e
  deleted : s'.log = (gone.map .deleted).reverse ++ s.log
  oldest : ∀ e ∈ gone, ∀ e', s'.Holds e' → idleFor ops e'.name < idleFor ops e.name

section
variable {entriesThreshold : Nat} {f : ℚ} {ops : List (Op Obj)} {op : Op Obj} {s s' : ObjMemCache Obj}

theorem tracked_new : Tracked entriesThreshold f [] (new entriesThreshold (exactly f) : ObjMemCache Obj) where
  inv := inv_new _ _
  threshold := rfl
  fraction := rfl
  order := by
    intro a e b e' ha
    cases ha
  own := by
    rintro e ⟨a, ha⟩
    cases ha

/-- An operation that uses none of the names in the cache keeps their order. -/
theorem Tracked.unused (h : Tracked entriesThreshold f ops s) (hinv : s'.Inv)
    (hthreshold : s'.dEntriesThreshold = s.dEntriesThreshold)
    (hfraction : s'.dPurgeThreshold = s.dPurgeThreshold)
    (hsub : ∀ a e, s'.cache.find a = some e → s.cache.find a = some e)
    (hop : ∀ e, s'.Holds e → uses e.name op = false) :
    Tracked entriesThreshold f (ops ++ [op]) s' where
  inv := hinv
  threshold := hthreshold.trans h.threshold
  fraction := hfraction.trans h.fraction
  order := by
    intro a e b e' ha hb hlt
    rw [idleFor_concat, idleFor_concat, hop e ⟨a, ha⟩, hop e' ⟨b, hb⟩]
    exact Nat.succ_lt_succ (h.order a e b e' (hsub a e ha) (hsub b e' hb) hlt)
  own := by
    rintro e ⟨a, ha⟩
    rw [lastAdded_concat, added_of_not_uses (hop e ⟨a, ha⟩), Option.none_or]
    exact h.own e ⟨a, hsub a e ha⟩

/-- The entry whose name is used comes in behind all the others. -/
theorem Tracked.used (h : Tracked entriesThreshold f ops s) (top : Nat) (e : Entry Obj) (hinv : s'.Inv)
    (hthreshold : s'.dEntriesThreshold = s.dEntriesThreshold)
    (hfraction : s'.dPurgeThreshold = s.dPurgeThreshold)
    (hfind : ∀ a e', s'.cache.find a = some e' →
      a = top ∧ e' = e ∨ s.cache.find a = some e' ∧ a < top ∧ e'.name ≠ e.name)
    (hop : ∀ key, uses key op = true ↔ key = e.name)
    (hadded : lastAdded (ops ++ [op]) e.name = some e.obj) :
    Tracked entriesThreshold f (ops ++ [op]) s' where
  inv := hinv
  threshold := hthreshold.trans h.threshold
  fraction := hfraction.trans h.fraction
  order := by
    intro a e₁ b e₂ ha hb hlt
    have hself : uses e.name op = true := (hop _).mpr rfl
    have hothers : ∀ {e' : Entry Obj}, e'.name ≠ e.name → uses e'.name op = false :=
      fun hne => Bool.eq_false_iff.mpr fun htrue => hne ((hop _).mp htrue)
    rw [idleFor_concat, idleFor_concat]
    rcases hfind a e₁ ha with ⟨rfl, rfl⟩ | ⟨ha, -, hne₁⟩
    · rcases hfind b e₂ hb with ⟨rfl, -⟩ | ⟨-, hlt', -⟩
      · exact absurd hlt (lt_irrefl _)
      · exact absurd hlt (lt_asymm hlt')
    · rw [hothers hne₁]
      rcases hfind b e₂ hb with ⟨-, rfl⟩ | ⟨hb, -, hne₂⟩
      · rw [hself]
        exact Nat.succ_pos _
      · rw [hothers hne₂]
        exact Nat.succ_lt_succ (h.order a e₁ b e₂ ha hb hlt)
  own := by
    rintro e' ⟨a, ha⟩
    rcases hfind a e' ha with ⟨-, rfl⟩ | ⟨ha, -, hne⟩
    · exact hadded
    · have hunused : uses e'.name op = false := Bool.eq_false_iff.mpr fun htrue => hne ((hop _).mp htrue)
      rw [lastAdded_concat, added_of_not_uses hunused, Option.none_or]
      exact h.own e' ⟨a, ha⟩

/-- The first entries of the cache are those that have been idle for longest. -/
theorem Tracked.purged (h : Tracked entriesThreshold f ops s) {n : Nat} (hn : n ≤ s.cache.size)
    (hpurged : Purged n s s') : ∃ gone, PurgedOldest ops n s s' gone := by
  have hmem : ∀ e, s.Holds e ↔ ∃ a, (a, e) ∈ s.cache.entries := by
    intro e
    exact exists_congr fun a => OrdMap.find_iff
  have hmem' : ∀ e, s'.Holds e ↔ ∃ a, (a, e) ∈ s.cache.entries.drop n := by
    intro e
    rw [← hpurged.entries_eq]
    exact exists_congr fun a => OrdMap.find_iff
  have hlength : (s.cache.entries.take n).length = n := by
    rw [List.length_take]
    exact Nat.min_eq_left hn
  refine ⟨(s.cache.entries.take n).map Prod.snd, ?_, ?_, ?_, ?_, ?_, ?_⟩
  · rw [List.length_map, hlength]
  · -- two ages with one entry would give its name two ages
    have hnodup : s.cache.entries.Nodup := .of_map _ s.cache.nodup_keys
    apply (hnodup.sublist (List.take_sublist n _)).map_on
    rintro ⟨a, e⟩ ha ⟨b, e'⟩ hb rfl
    have ha' := OrdMap.find_iff.mpr (List.mem_of_mem_take ha)
    have hb' := OrdMap.find_iff.mpr (List.mem_of_mem_take hb)
    rw [h.inv.corresponds.unique ha' hb' rfl]
  · unfold OrdMap.size at hn ⊢
    rw [hpurged.entries_eq, List.length_drop]
    omega
  · intro e
    rw [hmem, hmem', List.mem_map]
    nth_rewrite 1 [← List.take_append_drop n s.cache.entries]
    simp only [List.mem_append, exists_or, Prod.exists, exists_eq_right]
  · rw [hpurged.log_eq, List.map_map]
    rfl
  · intro e he e' he'
    obtain ⟨⟨a, _⟩, ha, rfl⟩ := List.mem_map.mp he
    obtain ⟨b, hb⟩ := (hmem' e').mp he'
    have hsorted := s.cache.sorted
    rw [← List.take_append_drop n s.cache.entries, List.pairwise_append] at hsorted
    exact h.order a _ b e' (OrdMap.find_iff.mpr (List.mem_of_mem_take ha))
      (OrdMap.find_iff.mpr (List.mem_of_mem_drop hb)) (hsorted.2.2 _ ha _ hb)

/-! ## Every operation -/

/-- What an operation removes from the cache and what it leaves there, after the operations `ops`. -/
def Removes (entriesThreshold : Nat) (f : ℚ) (ops : List (Op Obj)) (s : ObjMemCache Obj) :
    Op Obj → ObjMemCache Obj → Prop
  | .add obj key, s' => ∃ s₁ gone,
    PurgedOldest ops (if entriesThreshold < s.cache.size then ⌊f * s.cache.size⌋₊ else 0) s s₁ gone ∧
    (∀ e, s'.Holds e ↔ e = ⟨obj, key⟩ ∨ s₁.Holds e) ∧ s'.log = .made ⟨obj, key⟩ :: s₁.log
  | .get _, s' => (∀ e, s'.Holds e ↔ s.Holds e) ∧ s'.log = s.log
  | .remove key, s' => ∀ e, s'.Holds e ↔ s.Holds e ∧ e.name ≠ key
  | .purge fraction, s' => ∀ g : ℚ, g ≤ 1 → fraction = exactly g →
    ∃ gone, PurgedOldest ops ⌊g * s.cache.size⌋₊ s s' gone

theorem Tracked.dueCount_eq (h : Tracked entriesThreshold f ops s) (hpos : 0 < entriesThreshold) :
    s.dueCount = if entriesThreshold < s.cache.size then ⌊f * s.cache.size⌋₊ else 0 := by
  have hiff : s.Full ↔ entriesThreshold < s.cache.size := by
    unfold Full
    rw [h.threshold]
    exact and_iff_right (by omega)
  unfold dueCount
  rw [h.fraction]
  exact if_congr hiff rfl rfl

theorem Tracked.dueCount_le (h : Tracked entriesThreshold f ops s) (hf : f ≤ 1) :
    s.dueCount ≤ s.cache.size := by
  unfold dueCount
  rw [h.fraction]
  split
  · exact exactly_le hf _
  · exact Nat.zero_le _

/-- No entry has a name that is not in the index. -/
theorem Tracked.name_ne (h : Tracked entriesThreshold f ops s) {key : String}
    (hkey : s.index.find key = none) {a : Nat} {e : Entry Obj} (he : s.cache.find a = some e) :
    e.name ≠ key := by
  intro hname
  rw [(h.inv.corresponds key a).mpr ⟨e, he, hname⟩] at hkey
  cases hkey

/-- `add` removes as many as it should, those that were used first. -/
theorem Tracked.add (h : Tracked entriesThreshold f ops s) (hpos : 0 < entriesThreshold) (hf : f ≤ 1)
    {obj : Obj} {key : String} (hkey : s.index.find key = none) (hlt : s.dAge + 1 < 2 ^ 32) :
    ∃ s', s.add obj key = .ok s' ∧ Tracked entriesThreshold f (ops ++ [.add obj key]) s' ∧
      s'.dAge = s.dAge + 1 ∧ Removes entriesThreshold f ops s (.add obj key) s' := by
  have hfresh : s.Fresh (.add obj key) := by
    intro hsome
    rw [hkey] at hsome
    cases hsome
  obtain ⟨s', hadd', hinv, hdAge⟩ := add_spec h.inv hlt hfresh
  obtain ⟨s₁, -, hpurged, hadd⟩ := add_eq h.inv.intact obj key
  rw [hadd] at hadd'
  obtain rfl := Except.ok.inj hadd'
  have hage : s₁.age = s.older.age := congrArg (· % 2 ^ 32) hpurged.dAge_eq
  have hnone : s₁.cache.find s₁.age = none := by
    rw [hage]
    exact hpurged.find_none (h.inv.find_older_age hlt)
  have hfind := find_insertEntry (e := (⟨obj, key⟩ : Entry Obj)) hnone
  refine ⟨_, hadd, ?_, hdAge, ?_⟩
  · refine h.used s₁.age ⟨obj, key⟩ hinv hpurged.dEntriesThreshold_eq hpurged.dPurgeThreshold_eq ?_ ?_ ?_
    · intro a e' ha
      refine ((hfind a e').mp ha).imp_right ?_
      intro ha
      have hbefore : s.cache.find a = some e' := hpurged.find ha
      refine ⟨hbefore, ?_, h.name_ne hkey hbefore⟩
      rw [hage, (older_age hlt).2]
      exact Nat.lt_succ_of_le (h.inv.le_dAge a e' hbefore)
    · intro k
      exact decide_eq_true_iff.trans eq_comm
    · rw [lastAdded_concat, added, if_pos rfl]
      rfl
  · -- what is purged is purged before the new entry is there
    have hle : s.dueCount ≤ s.older.cache.size := h.dueCount_le hf
    have holder : Tracked entriesThreshold f ops s.older :=
      ⟨h.inv.older hlt, h.threshold, h.fraction, h.order, h.own⟩
    obtain ⟨gone, hgone⟩ := holder.purged hle hpurged
    refine ⟨s₁, gone, ?_, ?_, rfl⟩
    · rw [← h.dueCount_eq hpos]
      exact ⟨hgone.length_eq, hgone.nodup, hgone.size_eq, hgone.holds_iff, hgone.deleted, hgone.oldest⟩
    · intro e'
      unfold Holds
      simp only [hfind, exists_or, exists_eq_left]

/-- `get` removes nothing, and its name is the last one used. -/
theorem Tracked.get (h : Tracked entriesThreshold f ops s) {key : String}
    (hlt : s.dAge + s.increments (.get key) < 2 ^ 32) :
    ∃ s', s.step (.get key) = .ok s' ∧ Tracked entriesThreshold f (ops ++ [.get key]) s' ∧
      s'.dAge = s.dAge + s.increments (.get key) ∧ Removes entriesThreshold f ops s (.get key) s' := by
  have hinc : s.increments (.get key) = if (s.index.find key).isSome then 1 else 0 := rfl
  rw [hinc] at hlt ⊢
  rw [step]
  cases hkey : s.index.find key with
  | none =>
      have hget : s.get key = .ok (none, s) := by rw [ObjMemCache.get, hkey]
      refine ⟨s, by rw [hget]; rfl, ?_, rfl, fun _ => Iff.rfl, rfl⟩
      refine h.unused h.inv rfl rfl (fun _ _ ha => ha) ?_
      rintro e ⟨a, ha⟩
      exact decide_eq_false (h.name_ne hkey ha).symm
  | some a =>
      rw [hkey] at hlt
      obtain ⟨e, he, hname⟩ := (h.inv.corresponds key a).mp hkey
      have hinv := h.inv.reAged hlt he
      -- the new age is not in use, and the old one was given up
      have hnone : (s.older.dropEntry a e).cache.find (s.older.dropEntry a e).age = none := by
        rw [find_dropEntry]
        split
        · rfl
        · exact h.inv.find_older_age hlt
      have hfind : ∀ b e', (s.reAged a e).cache.find b = some e' ↔
          b = s.older.age ∧ e' = e ∨ s.cache.find b = some e' ∧ e'.name ≠ e.name := by
        intro b e'
        refine (find_insertEntry hnone b e').trans (or_congr Iff.rfl ?_)
        exact h.inv.corresponds.dropEntry_iff he b e'
      refine ⟨s.reAged a e, by rw [get_eq hkey he hname]; rfl, ?_, (older_age hlt).1, ?_, rfl⟩
      · refine h.used s.older.age e hinv rfl rfl ?_ ?_ ?_
        · intro b e' hb
          refine ((hfind b e').mp hb).imp_right ?_
          rintro ⟨hb, hne⟩
          refine ⟨hb, ?_, hne⟩
          rw [(older_age hlt).2]
          exact Nat.lt_succ_of_le (h.inv.le_dAge b e' hb)
        · intro k
          rw [hname]
          exact decide_eq_true_iff.trans eq_comm
        · rw [lastAdded_concat]
          exact h.own e ⟨a, he⟩
      · intro e'
        unfold Holds
        simp only [hfind, exists_or, exists_eq_left, exists_and_right]
        constructor
        · rintro (rfl | ⟨hb, -⟩)
          · exact ⟨a, he⟩
          · exact hb
        · rintro ⟨b, hb⟩
          -- of the entries with this name there is only the one that was found
          by_cases hsame : e'.name = e.name
          · obtain rfl := h.inv.corresponds.unique hb he hsame
            rw [he] at hb
            exact .inl (Option.some.inj hb).symm
          · exact .inr ⟨⟨b, hb⟩, hsame⟩

theorem Tracked.remove (h : Tracked entriesThreshold f ops s) {key : String} :
    ∃ s', s.remove key = .ok s' ∧ Tracked entriesThreshold f (ops ++ [.remove key]) s' ∧
      s'.dAge = s.dAge ∧ Removes entriesThreshold f ops s (.remove key) s' := by
  unfold ObjMemCache.remove
  split
  next hkey =>
    refine ⟨s, rfl, h.unused h.inv rfl rfl (fun _ _ ha => ha) (fun _ _ => rfl), rfl, ?_⟩
    intro e
    refine ⟨?_, And.left⟩
    rintro ⟨a, ha⟩
    exact ⟨⟨a, ha⟩, h.name_ne hkey ha⟩
  next a hkey =>
    obtain ⟨e, he, rfl⟩ := (h.inv.corresponds key a).mp hkey
    rw [he]
    have hiff := h.inv.corresponds.dropEntry_iff he
    refine ⟨s.dropEntry a e, rfl, ?_, rfl, ?_⟩
    · exact h.unused (h.inv.dropEntry he) rfl rfl (fun b e' hb => ((hiff b e').mp hb).1)
        (fun _ _ => rfl)
    · intro e'
      unfold Holds
      simp only [hiff, exists_and_right]

theorem Tracked.purge (h : Tracked entriesThreshold f ops s) (fraction : Fraction) :
    ∃ s', s.purge fraction = .ok s' ∧ Tracked entriesThreshold f (ops ++ [.purge fraction]) s' ∧
      s'.dAge = s.dAge ∧ Removes entriesThreshold f ops s (.purge fraction) s' := by
  obtain ⟨s', hrun, hintact, hpurged⟩ := purgeLoop_spec h.inv.intact (fraction s.cache.size)
  refine ⟨s', hrun, ?_, hpurged.dAge_eq, ?_⟩
  · exact h.unused (hpurged.inv h.inv hintact) hpurged.dEntriesThreshold_eq
      hpurged.dPurgeThreshold_eq (fun _ _ => hpurged.find) (fun _ _ => rfl)
  · rintro g hg rfl
    exact h.purged (exactly_le hg _) hpurged

/-- Every operation keeps the cache tracked, and removes what it should. -/
theorem Tracked.step (h : Tracked entriesThreshold f ops s) (hpos : 0 < entriesThreshold) (hf : f ≤ 1)
    (huncached : s.Uncached op) (hlt : s.dAge + s.increments op < 2 ^ 32) :
    ∃ s', s.step op = .ok s' ∧ Tracked entriesThreshold f (ops ++ [op]) s' ∧
      s'.dAge = s.dAge + s.increments op ∧ Removes entriesThreshold f ops s op s' := by
  cases op with
  | add obj key => exact h.add hpos hf huncached hlt
  | get key => exact h.get hlt
  | remove key => exact h.remove
  | purge fraction => exact h.purge fraction

/-- Over a whole run the cache is in the order of the last uses. -/
theorem Tracked.run (h : Tracked entriesThreshold f ops s) (hpos : 0 < entriesThreshold) (hf : f ≤ 1)
    (more : List (Op Obj)) (huncached : RunMeets Uncached more s)
    (hlt : s.dAge + runIncrements more s < 2 ^ 32) :
    ∃ s', ObjMemCache.run more s = .ok s' ∧ Tracked entriesThreshold f (ops ++ more) s' ∧
      s'.dAge = s.dAge + runIncrements more s := by
  induction more generalizing ops s with
  | nil => exact ⟨s, rfl, by rw [List.append_nil]; exact h, rfl⟩
  | cons op more ih =>
      obtain ⟨hop, hmore⟩ := huncached
      rw [runIncrements] at hlt ⊢
      obtain ⟨s₁, hstep, htracked, hdAge, -⟩ := h.step hpos hf hop (by omega)
      rw [hstep] at hlt hmore ⊢
      dsimp only at hlt hmore ⊢
      obtain ⟨s', hrun, htracked', hdAge'⟩ := ih htracked hmore (by omega)
      refine ⟨s', ?_, ?_, ?_⟩
      · rw [run_cons_ok hstep]
        exact hrun
      · rw [List.append_cons]
        exact htracked'
      · rw [hdAge', hdAge, Nat.add_assoc]

end

/-- In a run that adds under uncached names only, a purge removes the fraction it is told of those entries
that have been idle for longest, and what is left is still found. -/
theorem purges_least_recent {entriesThreshold : Nat} (hpos : 0 < entriesThreshold) {f : ℚ}
    (hf : f ≤ 1) (ops : List (Op Obj)) (op : Op Obj)
    (huncached : RunMeets Uncached (ops ++ [op]) (new entriesThreshold (exactly f)))
    (hlt : runIncrements (ops ++ [op]) (new entriesThreshold (exactly f)) < 2 ^ 32) :
    ∃ s s', run ops (new entriesThreshold (exactly f)) = .ok s ∧ s.step op = .ok s' ∧
      Removes entriesThreshold f ops s op s' ∧
      ∀ e, s'.Holds e → lastAdded (ops ++ [op]) e.name = some e.obj ∧
        ∃ s'', s'.get e.name = .ok (some e.obj, s'') := by
  have hfront : runIncrements ops (new entriesThreshold (exactly f)) ≤
      runIncrements (ops ++ [op]) (new entriesThreshold (exactly f)) := runIncrements_front [op]
  have hzero : (new entriesThreshold (exactly f) : ObjMemCache Obj).dAge = 0 := rfl
  obtain ⟨s, hrun, htracked, hdAge⟩ :=
    tracked_new.run hpos hf ops huncached.front (by omega)
  rw [runIncrements_concat hrun] at hlt
  obtain ⟨s', hstep, htracked', -, hremoves⟩ :=
    htracked.step hpos hf ((runMeets_concat hrun).mp huncached).2 (by omega)
  refine ⟨s, s', hrun, hstep, hremoves, ?_⟩
  rintro e ⟨a, ha⟩
  refine ⟨htracked'.own e ⟨a, ha⟩, ?_⟩
  have hindex := (htracked'.inv.corresponds e.name a).mpr ⟨e, ha, rfl⟩
  exact ⟨_, get_eq hindex ha rfl⟩

/-- `y` has been idle for longer than `x`. -/
theorem purges_y : ∃ s s', run [.add 1 "x", .add 2 "y", .get "x"] (new 2 (exactly (1 / 2))) = .ok s ∧
    s.step (.purge (exactly (1 / 2))) = .ok s' ∧
    Removes 2 (1 / 2) [.add 1 "x", .add 2 "y", .get "x"] s (.purge (exactly (1 / 2))) s' ∧
    ∀ e, s'.Holds e → lastAdded ([.add 1 "x", .add 2 "y", .get "x"] ++ [.purge (exactly (1 / 2))])
      e.name = some e.obj ∧ ∃ s'', s'.get e.name = .ok (some e.obj, s'') := by
  refine purges_least_recent (by decide) (by norm_num) _ _ ?_ ?_
  · exact ⟨rfl, rfl, trivial, trivial, by split <;> trivial⟩
  · rw [runIncrements_concat rfl]
    decide

end Skunk.BesUtils.ObjMemCache
