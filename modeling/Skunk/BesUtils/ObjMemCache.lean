import Mathlib.Algebra.Group.Nat.Defs
import Mathlib.Data.String.Basic
import Mathlib.Data.List.Nodup
import Skunk.Container.OrdMap

/-!
# `ObjMemCache`

A cache of objects under names. Two maps are kept: `cache` has the entries by the age at which they were
last used, and `index` the ages by the names. An assertion of the source that fails is a result of its
own here.

Adding under a name that is in the index already breaks the correspondence of the maps: `std::map::insert`
leaves the old age in the index, while the cache gets a second entry. In a run without that the cache is a
list of entries in the order in which they were last used, and this list is computed from the operations
alone (`keptAfter`, `run_sound`).
-/

namespace Skunk.BesUtils

open Skunk.Container

/-- `Entry`: an object, and the name it was added under. -/
structure Entry (Obj : Type) where
  obj : Obj
  name : String
  deriving DecidableEq, Repr

/-- A call of the constructor or of the destructor of `Entry`, which deletes the object too. -/
inductive EntryEvent (Obj : Type)
  | made (e : Entry Obj)
  | deleted (e : Entry Obj)

inductive Failure
  | assertion
  deriving DecidableEq, Repr

/-- A `float` fraction, as the number of entries that `cache.size() * fraction` makes of a size. -/
abbrev Fraction : Type := Nat → Nat

/-- The cache, with the entries that were made and deleted, the latest first. The counter has 64 bits, an
age in a map 32. -/
structure ObjMemCache (Obj : Type) where
  dAge : Nat
  dEntriesThreshold : Nat
  dPurgeThreshold : Fraction
  cache : OrdMap Nat (Entry Obj)
  index : OrdMap String Nat
  log : List (EntryEvent Obj)

namespace ObjMemCache

variable {Obj : Type}

def new (entriesThreshold : Nat) (purgeThreshold : Fraction) : ObjMemCache Obj :=
  ⟨0, entriesThreshold, purgeThreshold, .empty, .empty, []⟩

/-- `++d_age`. -/
def older (s : ObjMemCache Obj) : ObjMemCache Obj := { s with dAge := (s.dAge + 1) % 2 ^ 64 }

/-- `d_age`, as the maps have it. -/
def age (s : ObjMemCache Obj) : Nat := s.dAge % 2 ^ 32

def purgeLoop : Nat → ObjMemCache Obj → Except Failure (ObjMemCache Obj)
  | 0, s => .ok s
  | n + 1, s =>
    match s.cache.entries with
    | [] => .ok s
    | (a, e) :: _ =>
      match s.index.find e.name with
      | none => .error .assertion
      | some _ =>
        purgeLoop n { s with
          cache := s.cache.erase a
          index := s.index.erase e.name
          log := .deleted e :: s.log }

def purge (fraction : Fraction) (s : ObjMemCache Obj) : Except Failure (ObjMemCache Obj) :=
  purgeLoop (fraction s.cache.size) s

def Full (s : ObjMemCache Obj) : Prop :=
  s.dEntriesThreshold ≠ 0 ∧ s.dEntriesThreshold < s.cache.size

instance (s : ObjMemCache Obj) : Decidable s.Full := inferInstanceAs (Decidable (_ ∧ _))

def insertEntry (e : Entry Obj) (s : ObjMemCache Obj) : ObjMemCache Obj :=
  { s with
    index := s.index.insert e.name s.age
    cache := s.cache.insert s.age e
    log := .made e :: s.log }

def add (obj : Obj) (key : String) (s : ObjMemCache Obj) : Except Failure (ObjMemCache Obj) := do
  let s := s.older
  let s ← if s.Full then purge s.dPurgeThreshold s else pure s
  return s.insertEntry ⟨obj, key⟩

def remove (key : String) (s : ObjMemCache Obj) : Except Failure (ObjMemCache Obj) :=
  match s.index.find key with
  | none => .ok s
  | some count =>
    match s.cache.find count with
    | none => .error .assertion
    | some e =>
      .ok { s with
        index := s.index.erase key
        cache := s.cache.erase count
        log := .deleted e :: s.log }

def get (key : String) (s : ObjMemCache Obj) : Except Failure (Option Obj × ObjMemCache Obj) :=
  match s.index.find key with
  | none => .ok (none, s)
  | some a =>
    match s.cache.find a with
    | none => .error .assertion
    | some e =>
      let s := s.older
      .ok (some e.obj, { s with
        cache := (s.cache.erase a).insert s.age e
        index := (s.index.erase key).insert key s.age })

def size (s : ObjMemCache Obj) : Except Failure Nat :=
  if s.cache.size = s.index.size then .ok (s.cache.size % 2 ^ 32) else .error .assertion

/-! ## Runs -/

inductive Op (Obj : Type)
  | add (obj : Obj) (key : String)
  | get (key : String)
  | remove (key : String)
  | purge (fraction : Fraction)

def step (s : ObjMemCache Obj) : Op Obj → Except Failure (ObjMemCache Obj)
  | .add obj key => s.add obj key
  | .get key => (s.get key).map Prod.snd
  | .remove key => s.remove key
  | .purge fraction => s.purge fraction

def run : List (Op Obj) → ObjMemCache Obj → Except Failure (ObjMemCache Obj)
  | [], s => .ok s
  | op :: ops, s => do run ops (← s.step op)

def increments (s : ObjMemCache Obj) : Op Obj → Nat
  | .add _ _ => 1
  | .get key => if (s.index.find key).isSome then 1 else 0
  | _ => 0

def runIncrements : List (Op Obj) → ObjMemCache Obj → Nat
  | [], _ => 0
  | op :: ops, s => s.increments op + match s.step op with
    | .ok s' => runIncrements ops s'
    | .error _ => 0

/-- How many entries `add` removes to make room. -/
def dueCount (s : ObjMemCache Obj) : Nat := if s.Full then s.dPurgeThreshold s.cache.size else 0

/-- The names of the entries with which `add` makes room. -/
def dueNames (s : ObjMemCache Obj) : List String :=
  if s.Full then (s.cache.entries.take (s.dPurgeThreshold s.cache.size)).map (fun e => e.2.name)
  else []

/-- An `add` is under a name that is not in the index, or that is among those it makes room with. -/
def Fresh (s : ObjMemCache Obj) : Op Obj → Prop
  | .add _ key => (s.index.find key).isSome → key ∈ s.dueNames
  | _ => True

instance (s : ObjMemCache Obj) : (op : Op Obj) → Decidable (s.Fresh op)
  | .add _ key => inferInstanceAs (Decidable ((s.index.find key).isSome → key ∈ s.dueNames))
  | .get _ => isTrue trivial
  | .remove _ => isTrue trivial
  | .purge _ => isTrue trivial

/-- An `add` is under a name that is not in the index. -/
def Uncached (s : ObjMemCache Obj) : Op Obj → Prop
  | .add _ key => s.index.find key = none
  | _ => True

/-- Every operation of a run meets `P`, in the state in which it is called. -/
def RunMeets (P : ObjMemCache Obj → Op Obj → Prop) : List (Op Obj) → ObjMemCache Obj → Prop
  | [], _ => True
  | op :: ops, s => P s op ∧ match s.step op with
    | .ok s' => RunMeets P ops s'
    | .error _ => True

instance decidableRunMeets (P : ObjMemCache Obj → Op Obj → Prop) [∀ s op, Decidable (P s op)] :
    (ops : List (Op Obj)) → (s : ObjMemCache Obj) → Decidable (RunMeets P ops s)
  | [], _ => isTrue trivial
  | op :: ops, s =>
    have : Decidable (match s.step op with
        | .ok s' => RunMeets P ops s'
        | .error _ => True) :=
      match s.step op with
      | .ok s' => decidableRunMeets P ops s'
      | .error _ => isTrue trivial
    inferInstanceAs (Decidable (_ ∧ _))

section
variable {ops : List (Op Obj)} {op : Op Obj} {s s' : ObjMemCache Obj}

theorem run_cons_ok (h : s.step op = .ok s') : run (op :: ops) s = run ops s' := by
  rw [run, h]
  rfl

/-- A run of one operation more. -/
theorem run_concat (hrun : run ops s = .ok s') : run (ops ++ [op]) s = s'.step op := by
  induction ops generalizing s with
  | nil =>
      obtain rfl := Except.ok.inj hrun
      rw [List.nil_append, run]
      cases s.step op <;> rfl
  | cons o ops ih =>
      rw [List.cons_append]
      cases hstep : s.step o with
      | error e =>
          rw [run, hstep] at hrun
          cases hrun
      | ok s₁ =>
          rw [run_cons_ok hstep] at hrun ⊢
          exact ih hrun

theorem runMeets_concat {P : ObjMemCache Obj → Op Obj → Prop} (hrun : run ops s = .ok s') :
    RunMeets P (ops ++ [op]) s ↔ RunMeets P ops s ∧ P s' op := by
  induction ops generalizing s with
  | nil =>
      obtain rfl := Except.ok.inj hrun
      rw [List.nil_append, RunMeets, RunMeets]
      cases s.step op <;> simp [RunMeets]
  | cons o ops ih =>
      rw [List.cons_append, RunMeets, RunMeets]
      cases hstep : s.step o with
      | error e =>
          rw [run, hstep] at hrun
          cases hrun
      | ok s₁ =>
          rw [run_cons_ok hstep] at hrun
          dsimp only
          rw [ih hrun, and_assoc]

theorem RunMeets.front {P : ObjMemCache Obj → Op Obj → Prop} {more : List (Op Obj)}
    (h : RunMeets P (ops ++ more) s) : RunMeets P ops s := by
  induction ops generalizing s with
  | nil => trivial
  | cons o ops ih =>
      refine ⟨h.1, ?_⟩
      have hrest := h.2
      split at hrest
      · exact ih hrest
      · trivial

theorem runIncrements_concat (hrun : run ops s = .ok s') :
    runIncrements (ops ++ [op]) s = runIncrements ops s + s'.increments op := by
  induction ops generalizing s with
  | nil =>
      obtain rfl := Except.ok.inj hrun
      rw [List.nil_append, runIncrements, runIncrements, Nat.zero_add]
      cases s.step op <;> rfl
  | cons o ops ih =>
      rw [List.cons_append, runIncrements, runIncrements]
      cases hstep : s.step o with
      | error e =>
          rw [run, hstep] at hrun
          cases hrun
      | ok s₁ =>
          rw [run_cons_ok hstep] at hrun
          dsimp only
          rw [ih hrun, Nat.add_assoc]

theorem runIncrements_front (more : List (Op Obj)) :
    runIncrements ops s ≤ runIncrements (ops ++ more) s := by
  induction ops generalizing s with
  | nil => exact Nat.zero_le _
  | cons o ops ih =>
      rw [List.cons_append, runIncrements, runIncrements]
      apply Nat.add_le_add_left
      split
      · exact ih
      · exact Nat.le_refl _

end

/-! ## The correspondence -/

/-- `index` and `cache` are in one-to-one correspondence. -/
def Corresponds (s : ObjMemCache Obj) : Prop :=
  ∀ k a, s.index.find k = some a ↔ ∃ e, s.cache.find a = some e ∧ e.name = k

/-- The object that was last added under a name, if its entry has not been deleted since. -/
def latest (key : String) : List (EntryEvent Obj) → Option Obj
  | [] => none
  | .made e :: log => if e.name = key then some e.obj else latest key log
  | .deleted e :: log => if e.name = key then none else latest key log

def Holds (s : ObjMemCache Obj) (e : Entry Obj) : Prop := ∃ a, s.cache.find a = some e

/-- The maps correspond, and the cache has every entry that was made and has not been deleted. -/
structure Intact (s : ObjMemCache Obj) : Prop where
  corresponds : s.Corresponds
  latest_iff : ∀ k obj, latest k s.log = some obj ↔ ∃ a, s.cache.find a = some ⟨obj, k⟩

/-- What an operation on a sound cache can rely on, and keeps. -/
structure Inv (s : ObjMemCache Obj) : Prop where
  corresponds : s.Corresponds
  le_dAge : ∀ a e, s.cache.find a = some e → a ≤ s.dAge
  latest_iff : ∀ k obj, latest k s.log = some obj ↔ ∃ a, s.cache.find a = some ⟨obj, k⟩

theorem Inv.intact {s : ObjMemCache Obj} (h : s.Inv) : s.Intact := ⟨h.corresponds, h.latest_iff⟩

/-- Corresponding maps have as many entries as each other. -/
theorem Corresponds.size_eq {s : ObjMemCache Obj} (h : s.Corresponds) :
    s.cache.size = s.index.size := by
  have hperm : (s.index.entries.map Prod.swap).Perm
      (s.cache.entries.map fun e => (e.1, e.2.name)) := by
    rw [List.perm_ext_iff_of_nodup]
    · rintro ⟨a, k⟩
      have hindex : (a, k) ∈ s.index.entries.map Prod.swap ↔ s.index.find k = some a := by
        rw [OrdMap.find_iff]
        simp
      rw [hindex, h]
      simp [OrdMap.find_iff]
    · exact (List.Nodup.of_map _ s.index.nodup_keys).map Prod.swap_injective
    · apply List.Nodup.of_map Prod.fst
      rw [List.map_map]
      exact s.cache.nodup_keys
  simpa [OrdMap.size] using hperm.length_eq.symm

/-- A name has one entry. -/
theorem Corresponds.unique {s : ObjMemCache Obj} (h : s.Corresponds) {a b : Nat} {e e' : Entry Obj}
    (he : s.cache.find a = some e) (he' : s.cache.find b = some e') (hname : e.name = e'.name) :
    a = b := by
  have ha := (h e.name a).mpr ⟨e, he, rfl⟩
  have hb := (h e'.name b).mpr ⟨e', he', rfl⟩
  rw [hname, hb] at ha
  exact (Option.some.inj ha).symm

theorem inv_new (entriesThreshold : Nat) (purgeThreshold : Fraction) :
    Inv (new entriesThreshold purgeThreshold : ObjMemCache Obj) where
  corresponds := by simp [Corresponds, new]
  le_dAge := by simp [new]
  latest_iff := by simp [new, latest]

/-! ## Entries come and go -/

/-- The entry of age `a` leaves both maps. -/
def dropEntry (a : Nat) (e : Entry Obj) (s : ObjMemCache Obj) : ObjMemCache Obj :=
  { s with
    cache := s.cache.erase a
    index := s.index.erase e.name
    log := .deleted e :: s.log }

section
variable {s : ObjMemCache Obj} {a : Nat} {e : Entry Obj}

theorem find_dropEntry (b : Nat) :
    (s.dropEntry a e).cache.find b = if b = a then none else s.cache.find b :=
  OrdMap.find_erase _ _ _

/-- The other entries have other names. -/
theorem Corresponds.dropEntry_iff (h : s.Corresponds) (he : s.cache.find a = some e) (b : Nat)
    (e' : Entry Obj) : (s.dropEntry a e).cache.find b = some e' ↔
      s.cache.find b = some e' ∧ e'.name ≠ e.name := by
  rw [find_dropEntry]
  by_cases hb : b = a
  · subst hb
    rw [if_pos rfl, he]
    constructor
    · intro hnone
      cases hnone
    · rintro ⟨hsome, hname⟩
      exact absurd (congrArg Entry.name (Option.some.inj hsome)).symm hname
  · rw [if_neg hb]
    constructor
    · intro he'
      exact ⟨he', fun hname => hb (h.unique he' he hname)⟩
    · exact And.left

theorem Intact.dropEntry (h : s.Intact) (he : s.cache.find a = some e) : (s.dropEntry a e).Intact where
  corresponds := by
    intro k b
    show (s.index.erase e.name).find k = some b ↔ _
    simp only [h.corresponds.dropEntry_iff he, OrdMap.find_erase]
    by_cases hk : k = e.name
    · rw [if_pos hk]
      constructor
      · intro hnone
        cases hnone
      · rintro ⟨e', ⟨-, hne⟩, hname⟩
        exact absurd (hname.trans hk) hne
    · rw [if_neg hk, h.corresponds]
      constructor
      · rintro ⟨e', he', rfl⟩
        exact ⟨e', ⟨he', hk⟩, rfl⟩
      · rintro ⟨e', ⟨he', -⟩, hname⟩
        exact ⟨e', he', hname⟩
  latest_iff := by
    intro k obj
    show (if e.name = k then none else latest k s.log) = some obj ↔ _
    simp only [h.corresponds.dropEntry_iff he]
    by_cases hk : e.name = k
    · simp [hk]
    · rw [if_neg hk, h.latest_iff]
      simp [Ne.symm hk]

theorem Inv.dropEntry (h : s.Inv) (he : s.cache.find a = some e) : (s.dropEntry a e).Inv := by
  have hintact := h.intact.dropEntry he
  refine ⟨hintact.corresponds, ?_, hintact.latest_iff⟩
  intro b e' he'
  exact h.le_dAge b e' ((h.corresponds.dropEntry_iff he b e').mp he').1

/-- Under a new age, an entry joins the others. -/
theorem find_insertEntry (hage : s.cache.find s.age = none) (b : Nat) (e' : Entry Obj) :
    (s.insertEntry e).cache.find b = some e' ↔ b = s.age ∧ e' = e ∨ s.cache.find b = some e' := by
  show (s.cache.insert s.age e).find b = some e' ↔ _
  rw [OrdMap.find_insert_new hage]
  by_cases hb : b = s.age
  · rw [if_pos hb, hb, hage]
    simp [eq_comm]
  · rw [if_neg hb]
    simp [hb]

/-- An entry comes in under a new age and a new name. -/
theorem Intact.insertEntry (h : s.Intact) (hage : s.cache.find s.age = none)
    (hname : s.index.find e.name = none) : (s.insertEntry e).Intact := by
  have hindex : ∀ k, (s.insertEntry e).index.find k =
      if k = e.name then some s.age else s.index.find k := OrdMap.find_insert_new hname s.age
  -- who has the name is the new entry
  have hother : ∀ b e', s.cache.find b = some e' → b ≠ s.age ∧ e'.name ≠ e.name := by
    intro b e' he'
    constructor
    · rintro rfl
      rw [hage] at he'
      cases he'
    · intro hsame
      have hsome := (h.corresponds e.name b).mpr ⟨e', he', hsame⟩
      rw [hname] at hsome
      cases hsome
  have hiff := find_insertEntry (e := e) hage
  constructor
  · intro k b
    simp only [hiff]
    rw [hindex]
    by_cases hk : k = e.name
    · rw [if_pos hk, hk]
      constructor
      · intro hb
        exact ⟨e, .inl ⟨(Option.some.inj hb).symm, rfl⟩, rfl⟩
      · rintro ⟨e', ⟨rfl, rfl⟩ | he', hsame⟩
        · rfl
        · exact absurd hsame (hother b e' he').2
    · rw [if_neg hk, h.corresponds]
      constructor
      · rintro ⟨e', he', hsame⟩
        exact ⟨e', .inr he', hsame⟩
      · rintro ⟨e', ⟨rfl, rfl⟩ | he', hsame⟩
        · exact absurd hsame.symm hk
        · exact ⟨e', he', hsame⟩
  · intro k obj
    show (if e.name = k then some e.obj else latest k s.log) = some obj ↔ _
    simp only [hiff]
    by_cases hk : e.name = k
    · rw [if_pos hk]
      constructor
      · intro hobj
        obtain rfl := Option.some.inj hobj
        exact ⟨s.age, .inl ⟨rfl, by rw [← hk]⟩⟩
      · rintro ⟨b, ⟨-, he⟩ | he'⟩
        · rw [← he]
        · exact absurd hk.symm (hother b _ he').2
    · rw [if_neg hk, h.latest_iff]
      constructor
      · rintro ⟨b, he'⟩
        exact ⟨b, .inr he'⟩
      · rintro ⟨b, ⟨-, he⟩ | he'⟩
        · rw [← he] at hk
          exact absurd rfl hk
        · exact ⟨b, he'⟩

theorem Inv.insertEntry (h : s.Inv) (hage : s.cache.find s.age = none)
    (hname : s.index.find e.name = none) : (s.insertEntry e).Inv := by
  have hintact := h.intact.insertEntry hage hname
  refine ⟨hintact.corresponds, ?_, hintact.latest_iff⟩
  intro b e' he'
  rcases (find_insertEntry hage b e').mp he' with ⟨rfl, -⟩ | he'
  · exact Nat.mod_le _ _
  · exact h.le_dAge b e' he'

theorem older_age (hlt : s.dAge + 1 < 2 ^ 32) :
    s.older.dAge = s.dAge + 1 ∧ s.older.age = s.dAge + 1 := by
  unfold older age
  dsimp only
  omega

theorem Inv.older (h : s.Inv) (hlt : s.dAge + 1 < 2 ^ 32) : s.older.Inv where
  corresponds := h.corresponds
  le_dAge := by
    intro b e' he'
    have := h.le_dAge b e' he'
    have := (older_age hlt).1
    omega
  latest_iff := h.latest_iff

/-- The age that has come is not in the cache. -/
theorem Inv.find_older_age (h : s.Inv) (hlt : s.dAge + 1 < 2 ^ 32) :
    s.cache.find s.older.age = none := by
  rw [Option.eq_none_iff_forall_ne_some]
  intro e' he'
  have := h.le_dAge _ e' he'
  have := (older_age hlt).2
  omega

end

/-! ## The operations -/

/-- The first `n` entries have gone. -/
structure Purged (n : Nat) (s s' : ObjMemCache Obj) : Prop where
  dAge_eq : s'.dAge = s.dAge
  dEntriesThreshold_eq : s'.dEntriesThreshold = s.dEntriesThreshold
  dPurgeThreshold_eq : s'.dPurgeThreshold = s.dPurgeThreshold
  entries_eq : s'.cache.entries = s.cache.entries.drop n
  log_eq : s'.log = ((s.cache.entries.take n).map fun p => .deleted p.2).reverse ++ s.log

theorem Purged.refl (s : ObjMemCache Obj) : Purged 0 s s := ⟨rfl, rfl, rfl, rfl, rfl⟩

theorem Purged.find {n : Nat} {s s' : ObjMemCache Obj} (h : Purged n s s') {a : Nat} {e : Entry Obj}
    (he : s'.cache.find a = some e) : s.cache.find a = some e := by
  rw [OrdMap.find_iff, h.entries_eq] at he
  exact OrdMap.find_iff.mpr (List.mem_of_mem_drop he)

theorem Purged.find_none {n : Nat} {s s' : ObjMemCache Obj} (h : Purged n s s') {a : Nat}
    (ha : s.cache.find a = none) : s'.cache.find a = none := by
  rw [Option.eq_none_iff_forall_ne_some]
  intro e he
  rw [h.find he] at ha
  cases ha

theorem Purged.inv {n : Nat} {s s' : ObjMemCache Obj} (h : Purged n s s') (hinv : s.Inv)
    (hintact : s'.Intact) : s'.Inv where
  corresponds := hintact.corresponds
  le_dAge := by
    intro a e he
    rw [h.dAge_eq]
    exact hinv.le_dAge a e (h.find he)
  latest_iff := hintact.latest_iff

/-- The purge finds every name that it looks up, and removes the first entries of the cache. -/
theorem purgeLoop_spec {s : ObjMemCache Obj} (h : s.Intact) (n : Nat) :
    ∃ s', purgeLoop n s = .ok s' ∧ s'.Intact ∧ Purged n s s' := by
  induction n generalizing s with
  | zero => exact ⟨s, rfl, h, .refl s⟩
  | succ n ih =>
      rw [purgeLoop]
      split
      next hnil =>
        refine ⟨s, rfl, h, rfl, rfl, rfl, ?_, ?_⟩
        · rw [hnil, List.drop_nil]
        · rw [hnil, List.take_nil]
          rfl
      next a e rest hentries =>
        have he : s.cache.find a = some e := by
          rw [OrdMap.find_iff, hentries]
          exact List.mem_cons_self
        have hname : s.index.find e.name = some a := (h.corresponds _ _).mpr ⟨e, he, rfl⟩
        rw [hname]
        obtain ⟨s', hrun, hintact, hpurged⟩ := ih (h.dropEntry he)
        have hrest : (s.dropEntry a e).cache.entries = rest := OrdMap.entries_erase_first hentries
        refine ⟨s', hrun, hintact, hpurged.dAge_eq, hpurged.dEntriesThreshold_eq,
          hpurged.dPurgeThreshold_eq, ?_, ?_⟩
        · rw [hpurged.entries_eq, hrest, hentries, List.drop_succ_cons]
        · rw [hpurged.log_eq, hrest, hentries, List.take_succ_cons, List.map_cons, List.reverse_cons,
            List.append_assoc]
          rfl

theorem older_intact {s : ObjMemCache Obj} (h : s.Intact) : s.older.Intact :=
  ⟨h.corresponds, h.latest_iff⟩

/-- `add` makes room, and then inserts. -/
theorem add_eq {s : ObjMemCache Obj} (h : s.Intact) (obj : Obj) (key : String) :
    ∃ s₁, s₁.Intact ∧ Purged s.dueCount s.older s₁ ∧ s.add obj key = .ok (s₁.insertEntry ⟨obj, key⟩) := by
  unfold dueCount
  by_cases hfull : s.Full
  · rw [if_pos hfull]
    obtain ⟨s₁, hrun, hintact, hpurged⟩ :=
      purgeLoop_spec (older_intact h) (s.dPurgeThreshold s.cache.size)
    refine ⟨s₁, hintact, hpurged, ?_⟩
    have hpurge : purge s.dPurgeThreshold s.older = .ok s₁ := hrun
    have hfull' : s.older.Full := hfull
    simp only [add, hfull', if_true]
    show (purge s.dPurgeThreshold s.older >>= _) = _
    rw [hpurge]
    rfl
  · rw [if_neg hfull]
    refine ⟨s.older, older_intact h, .refl _, ?_⟩
    have hfull' : ¬ s.older.Full := hfull
    simp only [add, hfull', if_false]
    rfl

/-- After making room, `add` has its name for itself. -/
theorem find_name_of_fresh {s s' : ObjMemCache Obj} {n : Nat} {key : String} (h : s.Corresponds)
    (h' : s'.Corresponds) (hdrop : s'.cache.entries = s.cache.entries.drop n)
    (hfresh : (s.index.find key).isSome → key ∈ (s.cache.entries.take n).map (fun e => e.2.name)) :
    s'.index.find key = none := by
  rw [Option.eq_none_iff_forall_ne_some]
  intro a ha
  obtain ⟨e, he, hname⟩ := (h' key a).mp ha
  rw [OrdMap.find_iff, hdrop] at he
  -- the entry was there before, so its name is due
  have hbefore : s.cache.find a = some e := OrdMap.find_iff.mpr (List.mem_of_mem_drop he)
  have hdue := hfresh (by rw [(h key a).mpr ⟨e, hbefore, hname⟩]; rfl)
  obtain ⟨⟨b, e'⟩, hmem, hname'⟩ := List.mem_map.mp hdue
  obtain rfl := h.unique hbefore (OrdMap.find_iff.mpr (List.mem_of_mem_take hmem))
    (hname.trans hname'.symm)
  -- but an age stands in one of the two halves only
  have hnodup := s.cache.nodup_keys
  rw [← List.take_append_drop n s.cache.entries, List.map_append, List.nodup_append] at hnodup
  exact hnodup.2.2 a (List.mem_map_of_mem hmem) a (List.mem_map_of_mem he) rfl

theorem find_name_of_due {s s' : ObjMemCache Obj} {obj : Obj} {key : String} (h : s.Corresponds)
    (h' : s'.Corresponds) (hdrop : s'.cache.entries = s.cache.entries.drop s.dueCount)
    (hfresh : s.Fresh (.add obj key)) : s'.index.find key = none := by
  apply find_name_of_fresh h h' hdrop
  intro hsome
  have hdue := hfresh hsome
  unfold dueNames at hdue
  unfold dueCount
  by_cases hfull : s.Full
  · rw [if_pos hfull] at hdue ⊢
    exact hdue
  · rw [if_neg hfull] at hdue
    cases hdue

theorem add_spec {s : ObjMemCache Obj} (h : s.Inv) (hlt : s.dAge + 1 < 2 ^ 32) {obj : Obj} {key : String}
    (hfresh : s.Fresh (.add obj key)) :
    ∃ s', s.add obj key = .ok s' ∧ s'.Inv ∧ s'.dAge = s.dAge + 1 := by
  obtain ⟨s₁, hintact, hpurged, hadd⟩ := add_eq h.intact obj key
  have hinv : s₁.Inv := hpurged.inv (h.older hlt) hintact
  have hage : s₁.cache.find s₁.age = none := by
    have hsame : s₁.age = s.older.age := congrArg (· % 2 ^ 32) hpurged.dAge_eq
    rw [hsame]
    exact hpurged.find_none (h.find_older_age hlt)
  have hname := find_name_of_due h.corresponds hinv.corresponds hpurged.entries_eq hfresh
  refine ⟨_, hadd, hinv.insertEntry hage hname, ?_⟩
  show s₁.dAge = _
  rw [hpurged.dAge_eq, (older_age hlt).1]

theorem remove_spec {s : ObjMemCache Obj} (h : s.Inv) (key : String) :
    ∃ s', s.remove key = .ok s' ∧ s'.Inv ∧ s'.dAge = s.dAge := by
  unfold remove
  split
  next => exact ⟨s, rfl, h, rfl⟩
  next a ha =>
    obtain ⟨e, he, rfl⟩ := (h.corresponds key a).mp ha
    rw [he]
    exact ⟨s.dropEntry a e, rfl, h.dropEntry he, rfl⟩

/-- What `get` returns does not depend on the age. -/
theorem get_latest {s : ObjMemCache Obj} (h : s.Intact) (key : String) :
    ∃ s', s.get key = .ok (latest key s.log, s') := by
  unfold get
  split
  next hnone =>
    refine ⟨s, ?_⟩
    suffices latest key s.log = none by rw [this]
    rw [Option.eq_none_iff_forall_ne_some]
    intro obj hobj
    obtain ⟨a, ha⟩ := (h.latest_iff key obj).mp hobj
    rw [(h.corresponds key a).mpr ⟨_, ha, rfl⟩] at hnone
    cases hnone
  next a ha =>
    obtain ⟨e, he, rfl⟩ := (h.corresponds key a).mp ha
    rw [he, (h.latest_iff e.name e.obj).mpr ⟨a, he⟩]
    exact ⟨_, rfl⟩

/-- The entry of age `a` goes and comes back, and only the log does not say so. -/
def reAged (a : Nat) (e : Entry Obj) (s : ObjMemCache Obj) : ObjMemCache Obj :=
  { ((s.older.dropEntry a e).insertEntry e) with log := s.log }

theorem get_eq {s : ObjMemCache Obj} {key : String} {a : Nat} {e : Entry Obj}
    (ha : s.index.find key = some a) (he : s.cache.find a = some e) (hname : e.name = key) :
    s.get key = .ok (some e.obj, s.reAged a e) := by
  subst hname
  unfold get
  rw [ha]
  dsimp only
  rw [he]
  rfl

theorem Intact.reAged {s : ObjMemCache Obj} (h : s.Intact) {a : Nat} {e : Entry Obj}
    (he : s.cache.find a = some e) (hage : s.older.age = a ∨ s.cache.find s.older.age = none) :
    (s.reAged a e).Intact := by
  have hmoved : ((s.older.dropEntry a e).insertEntry e).Intact := by
    apply ((older_intact h).dropEntry he).insertEntry
    · show (s.cache.erase a).find s.older.age = none
      rw [OrdMap.find_erase]
      split
      · rfl
      next hne => exact hage.resolve_left hne
    · show (s.index.erase e.name).find e.name = none
      rw [OrdMap.find_erase, if_pos rfl]
  refine ⟨hmoved.corresponds, ?_⟩
  intro k obj
  refine Iff.trans ?_ (hmoved.latest_iff k obj)
  show latest k s.log = some obj ↔
    (if e.name = k then some e.obj else if e.name = k then none else latest k s.log) = some obj
  by_cases hk : e.name = k
  · rw [if_pos hk, ← hk, (h.latest_iff e.name e.obj).mpr ⟨a, he⟩]
  · rw [if_neg hk, if_neg hk]

theorem Inv.reAged {s : ObjMemCache Obj} (h : s.Inv) (hlt : s.dAge + 1 < 2 ^ 32) {a : Nat}
    {e : Entry Obj} (he : s.cache.find a = some e) : (s.reAged a e).Inv := by
  have hintact := h.intact.reAged he (.inr (h.find_older_age hlt))
  refine ⟨hintact.corresponds, ?_, hintact.latest_iff⟩
  have hnone : (s.older.dropEntry a e).cache.find (s.older.dropEntry a e).age = none := by
    rw [find_dropEntry]
    split
    · rfl
    · exact h.find_older_age hlt
  intro b e' he'
  rcases (find_insertEntry hnone b e').mp he' with ⟨rfl, -⟩ | he'
  · exact Nat.mod_le _ _
  · exact (h.older hlt).le_dAge b e' ((h.corresponds.dropEntry_iff he b e').mp he').1

theorem get_spec {s : ObjMemCache Obj} (h : s.Inv) (key : String)
    (hlt : s.dAge + s.increments (.get key) < 2 ^ 32) :
    ∃ r s', s.get key = .ok (r, s') ∧ s'.Inv ∧ s'.dAge = s.dAge + s.increments (.get key) := by
  have hinc : s.increments (.get key) = if (s.index.find key).isSome then 1 else 0 := rfl
  rw [hinc] at hlt ⊢
  cases ha : s.index.find key with
  | none => exact ⟨none, s, by rw [get, ha], h, rfl⟩
  | some a =>
      rw [ha] at hlt
      obtain ⟨e, he, hname⟩ := (h.corresponds key a).mp ha
      exact ⟨_, _, get_eq ha he hname, h.reAged hlt he, (older_age hlt).1⟩

/-- No operation fails, and all of them keep the invariant. -/
theorem step_spec {s : ObjMemCache Obj} (h : s.Inv) (op : Op Obj) (hfresh : s.Fresh op)
    (hlt : s.dAge + s.increments op < 2 ^ 32) :
    ∃ s', s.step op = .ok s' ∧ s'.Inv ∧ s'.dAge = s.dAge + s.increments op := by
  cases op with
  | add obj key => exact add_spec h hlt hfresh
  | get key =>
      obtain ⟨r, s', hget, hinv, hdAge⟩ := get_spec h key hlt
      refine ⟨s', ?_, hinv, hdAge⟩
      rw [step, hget]
      rfl
  | remove key => exact remove_spec h key
  | purge fraction =>
      obtain ⟨s', hrun, hintact, hpurged⟩ := purgeLoop_spec h.intact (fraction s.cache.size)
      exact ⟨s', hrun, hpurged.inv h hintact, hpurged.dAge_eq⟩

/-! ## What should be there -/

def named (key : String) (kept : List (Entry Obj)) : Option (Entry Obj) := kept.find? (fun e => e.name = key)

def without (key : String) (kept : List (Entry Obj)) : List (Entry Obj) := kept.filter (fun e => e.name ≠ key)

/-- The entries that should be there after an operation, the least recently used first. -/
def keep (entriesThreshold : Nat) (purgeThreshold : Fraction) (kept : List (Entry Obj)) :
    Op Obj → List (Entry Obj)
  | .add obj key =>
    let due := if entriesThreshold ≠ 0 ∧ entriesThreshold < kept.length then purgeThreshold kept.length else 0
    without key (kept.drop due) ++ [⟨obj, key⟩]
  | .get key =>
    match named key kept with
    | none => kept
    | some e => without key kept ++ [e]
  | .remove key => without key kept
  | .purge fraction => kept.drop (fraction kept.length)

/-- The entries that should be there after a run. -/
def keptAfter (entriesThreshold : Nat) (purgeThreshold : Fraction) (ops : List (Op Obj)) : List (Entry Obj) :=
  ops.foldl (keep entriesThreshold purgeThreshold) []

/-- The cache has these entries, in the order of their ages. -/
structure Lists (entriesThreshold : Nat) (purgeThreshold : Fraction) (kept : List (Entry Obj))
    (s : ObjMemCache Obj) : Prop where
  threshold : s.dEntriesThreshold = entriesThreshold
  fraction : s.dPurgeThreshold = purgeThreshold
  entries : s.cache.entries.map Prod.snd = kept

section
variable {entriesThreshold : Nat} {purgeThreshold : Fraction} {kept : List (Entry Obj)} {s s' : ObjMemCache Obj}

theorem lists_new : Lists entriesThreshold purgeThreshold []
    (new entriesThreshold purgeThreshold : ObjMemCache Obj) := ⟨rfl, rfl, rfl⟩

theorem Lists.mem_iff (h : Lists entriesThreshold purgeThreshold kept s) {e : Entry Obj} :
    e ∈ kept ↔ s.Holds e := by
  rw [← h.entries, List.mem_map]
  simp only [Prod.exists, exists_eq_right]
  exact exists_congr fun a => OrdMap.find_iff.symm

theorem Lists.length_eq (h : Lists entriesThreshold purgeThreshold kept s) : kept.length = s.cache.size := by
  rw [← h.entries, List.length_map]
  rfl

/-- A name in the index is in the list. -/
theorem Lists.named_some (h : Lists entriesThreshold purgeThreshold kept s) (hs : s.Corresponds) {a : Nat}
    {e : Entry Obj} (he : s.cache.find a = some e) : named e.name kept = some e := by
  have hmem : e ∈ kept := h.mem_iff.mpr ⟨a, he⟩
  have hsome : (named e.name kept).isSome :=
    List.find?_isSome.mpr ⟨e, hmem, decide_eq_true rfl⟩
  obtain ⟨e', he'⟩ := Option.isSome_iff_exists.mp hsome
  obtain ⟨b, hb⟩ := h.mem_iff.mp (List.mem_of_find?_eq_some he')
  have hname : e'.name = e.name := by
    have hfound := List.find?_some he'
    exact of_decide_eq_true hfound
  obtain rfl := hs.unique hb he hname
  rw [he', ← hb, he]

/-- And no other name is. -/
theorem Lists.name_ne (h : Lists entriesThreshold purgeThreshold kept s) (hs : s.Corresponds) {key : String}
    (hkey : s.index.find key = none) : ∀ e ∈ kept, e.name ≠ key := by
  intro e he hname
  obtain ⟨a, ha⟩ := h.mem_iff.mp he
  rw [(hs key a).mpr ⟨e, ha, hname⟩] at hkey
  cases hkey

theorem Lists.named_none (h : Lists entriesThreshold purgeThreshold kept s) (hs : s.Corresponds) {key : String}
    (hkey : s.index.find key = none) : named key kept = none :=
  List.find?_eq_none.mpr fun e he => by simpa using h.name_ne hs hkey e he

theorem without_eq {key : String} (h : ∀ e ∈ kept, e.name ≠ key) : without key kept = kept :=
  List.filter_eq_self.mpr fun e he => decide_eq_true (h e he)

theorem Lists.older (h : Lists entriesThreshold purgeThreshold kept s) :
    Lists entriesThreshold purgeThreshold kept s.older := ⟨h.threshold, h.fraction, h.entries⟩

theorem Lists.dropEntry (h : Lists entriesThreshold purgeThreshold kept s) (hs : s.Corresponds) {a : Nat}
    {e : Entry Obj} (he : s.cache.find a = some e) :
    Lists entriesThreshold purgeThreshold (without e.name kept) (s.dropEntry a e) where
  threshold := h.threshold
  fraction := h.fraction
  entries := by
    show (s.cache.entries.filter _).map Prod.snd = _
    rw [without, ← h.entries, List.filter_map]
    refine congrArg (List.map Prod.snd) (List.filter_congr ?_)
    rintro ⟨b, e'⟩ hmem
    have he' : s.cache.find b = some e' := OrdMap.find_iff.mpr hmem
    rw [Function.comp_apply, decide_eq_decide, not_iff_not]
    constructor
    · rintro rfl
      rw [he] at he'
      exact (congrArg Entry.name (Option.some.inj he')).symm
    · exact hs.unique he' he

/-- The entry comes behind all others. -/
theorem Lists.insertEntry (h : Lists entriesThreshold purgeThreshold kept s) {e : Entry Obj}
    (hlt : ∀ x ∈ s.cache.entries, x.1 < s.age) :
    Lists entriesThreshold purgeThreshold (kept ++ [e]) (s.insertEntry e) where
  threshold := h.threshold
  fraction := h.fraction
  entries := by
    show (s.cache.insert s.age e).entries.map Prod.snd = _
    rw [OrdMap.entries_insert_last hlt, List.map_append, h.entries]
    rfl

theorem Lists.purged (h : Lists entriesThreshold purgeThreshold kept s) {n : Nat} (hpurged : Purged n s s') :
    Lists entriesThreshold purgeThreshold (kept.drop n) s' where
  threshold := hpurged.dEntriesThreshold_eq.trans h.threshold
  fraction := hpurged.dPurgeThreshold_eq.trans h.fraction
  entries := by rw [hpurged.entries_eq, List.map_drop, h.entries]

theorem Inv.age_lt (h : s.Inv) (hlt : s.dAge + 1 < 2 ^ 32) : ∀ x ∈ s.cache.entries, x.1 < s.older.age := by
  rintro ⟨a, e⟩ hmem
  have hle := h.le_dAge a e (OrdMap.find_iff.mpr hmem)
  rw [(older_age hlt).2]
  exact Nat.lt_succ_of_le hle

/-- `add` keeps the list: those that make room go off the front, and the new entry comes last. -/
theorem Lists.add (h : Lists entriesThreshold purgeThreshold kept s) (hinv : s.Inv)
    (hlt : s.dAge + 1 < 2 ^ 32) {obj : Obj} {key : String} (hfresh : s.Fresh (.add obj key))
    (hadd : s.add obj key = .ok s') :
    Lists entriesThreshold purgeThreshold (keep entriesThreshold purgeThreshold kept (.add obj key)) s' := by
  obtain ⟨s₁, hintact, hpurged, hadd'⟩ := add_eq hinv.intact obj key
  rw [hadd'] at hadd
  obtain rfl := Except.ok.inj hadd
  have hdue : s.dueCount = if entriesThreshold ≠ 0 ∧ entriesThreshold < kept.length then
      purgeThreshold kept.length else 0 := by
    rw [dueCount, h.length_eq, ← h.threshold, ← h.fraction]
    rfl
  have hlists : Lists entriesThreshold purgeThreshold (kept.drop s.dueCount) s₁ := h.older.purged hpurged
  have hname := find_name_of_due hinv.corresponds hintact.corresponds hpurged.entries_eq hfresh
  rw [keep, ← hdue, without_eq (hlists.name_ne hintact.corresponds hname)]
  refine hlists.insertEntry fun x hx => ?_
  rw [hpurged.entries_eq] at hx
  have hage : s₁.age = s.older.age := congrArg (· % 2 ^ 32) hpurged.dAge_eq
  rw [hage]
  exact hinv.age_lt hlt x (List.mem_of_mem_drop hx)

theorem Lists.get (h : Lists entriesThreshold purgeThreshold kept s) (hinv : s.Inv) {key : String}
    (hlt : s.dAge + s.increments (.get key) < 2 ^ 32) (hget : s.step (.get key) = .ok s') :
    Lists entriesThreshold purgeThreshold (keep entriesThreshold purgeThreshold kept (.get key)) s' := by
  have hinc : s.increments (.get key) = if (s.index.find key).isSome then 1 else 0 := rfl
  rw [hinc] at hlt
  rw [keep]
  cases hkey : s.index.find key with
  | none =>
      rw [h.named_none hinv.corresponds hkey]
      rw [step, ObjMemCache.get, hkey] at hget
      obtain rfl := Except.ok.inj hget
      exact h
  | some a =>
      rw [hkey] at hlt
      obtain ⟨e, he, rfl⟩ := (hinv.corresponds key a).mp hkey
      rw [h.named_some hinv.corresponds he]
      rw [step, get_eq hkey he rfl] at hget
      obtain rfl := Except.ok.inj hget
      have hdropped := h.older.dropEntry hinv.corresponds he
      have hinserted := hdropped.insertEntry (e := e) fun x hx =>
        hinv.age_lt hlt x (List.mem_of_mem_filter hx)
      exact ⟨hinserted.threshold, hinserted.fraction, hinserted.entries⟩

theorem Lists.remove (h : Lists entriesThreshold purgeThreshold kept s) (hinv : s.Inv) {key : String}
    (hremove : s.remove key = .ok s') :
    Lists entriesThreshold purgeThreshold (without key kept) s' := by
  unfold ObjMemCache.remove at hremove
  cases hkey : s.index.find key with
  | none =>
      rw [hkey] at hremove
      obtain rfl := Except.ok.inj hremove
      rw [without_eq (h.name_ne hinv.corresponds hkey)]
      exact h
  | some a =>
      obtain ⟨e, he, rfl⟩ := (hinv.corresponds key a).mp hkey
      rw [hkey] at hremove
      dsimp only at hremove
      rw [he] at hremove
      obtain rfl := Except.ok.inj hremove
      exact h.dropEntry hinv.corresponds he

/-- An operation on the cache does to its entries what it should. -/
theorem Lists.step (h : Lists entriesThreshold purgeThreshold kept s) (hinv : s.Inv) {op : Op Obj}
    (hfresh : s.Fresh op) (hlt : s.dAge + s.increments op < 2 ^ 32) (hstep : s.step op = .ok s') :
    Lists entriesThreshold purgeThreshold (keep entriesThreshold purgeThreshold kept op) s' := by
  cases op with
  | add obj key => exact h.add hinv hlt hfresh hstep
  | get key => exact h.get hinv hlt hstep
  | remove key => exact h.remove hinv hstep
  | purge fraction =>
      obtain ⟨s₁, hrun, -, hpurged⟩ := purgeLoop_spec hinv.intact (fraction s.cache.size)
      obtain rfl : s₁ = s' := Except.ok.inj (hrun.symm.trans hstep)
      rw [keep, h.length_eq]
      exact h.purged hpurged

/-- Over a run without failures the cache has the entries that should be there. -/
theorem run_spec (h : Lists entriesThreshold purgeThreshold kept s) (hinv : s.Inv) (ops : List (Op Obj))
    (hfresh : RunMeets Fresh ops s) (hlt : s.dAge + runIncrements ops s < 2 ^ 32) :
    ∃ s', run ops s = .ok s' ∧ s'.Inv ∧
      Lists entriesThreshold purgeThreshold (ops.foldl (keep entriesThreshold purgeThreshold) kept) s' := by
  induction ops generalizing s kept with
  | nil => exact ⟨s, rfl, hinv, h⟩
  | cons op ops ih =>
      obtain ⟨hop, hops⟩ := hfresh
      rw [runIncrements] at hlt
      obtain ⟨s₁, hstep, hinv₁, hdAge⟩ := step_spec hinv op hop (by omega)
      have hlists := h.step hinv hop (by omega) hstep
      rw [hstep] at hlt hops
      dsimp only at hlt hops
      obtain ⟨s', hrun, hinv', hlists'⟩ := ih hlists hinv₁ hops (by omega)
      refine ⟨s', ?_, hinv', hlists'⟩
      rw [run_cons_ok hstep]
      exact hrun

end

/-! ## Every run -/

/-- What a user of the cache can rely on where these entries should be there. -/
structure Sound (kept : List (Entry Obj)) (s : ObjMemCache Obj) : Prop where
  corresponds : s.Corresponds
  size_ok : s.size = .ok (kept.length % 2 ^ 32) ∧ s.cache.size = s.index.size
  get_eq : ∀ key, ∃ s', s.get key = .ok ((named key kept).map Entry.obj, s')
  purge_ok : ∀ fraction, ∃ s', s.purge fraction = .ok s'

theorem Inv.sound {entriesThreshold : Nat} {purgeThreshold : Fraction} {kept : List (Entry Obj)}
    {s : ObjMemCache Obj} (h : s.Inv) (hlists : Lists entriesThreshold purgeThreshold kept s) :
    s.Sound kept where
  corresponds := h.corresponds
  size_ok := by
    rw [hlists.length_eq]
    exact ⟨if_pos h.corresponds.size_eq, h.corresponds.size_eq⟩
  get_eq := by
    intro key
    cases hkey : s.index.find key with
    | none => exact ⟨s, by rw [ObjMemCache.get, hkey, hlists.named_none h.corresponds hkey]; rfl⟩
    | some a =>
        obtain ⟨e, he, rfl⟩ := (h.corresponds key a).mp hkey
        exact ⟨_, by rw [ObjMemCache.get_eq hkey he rfl, hlists.named_some h.corresponds he]; rfl⟩
  purge_ok := by
    intro fraction
    obtain ⟨s', hrun, -⟩ := purgeLoop_spec h.intact (fraction s.cache.size)
    exact ⟨s', hrun⟩

/-- In a run that adds under new names only, nothing goes wrong: the cache has the entries that it should, and
`get` returns the object that was last added under a name and has not been removed or purged since. -/
theorem run_sound (entriesThreshold : Nat) (purgeThreshold : Fraction) (ops : List (Op Obj))
    (hfresh : RunMeets Fresh ops (new entriesThreshold purgeThreshold))
    (hlt : runIncrements ops (new entriesThreshold purgeThreshold) < 2 ^ 32) :
    ∃ s, run ops (new entriesThreshold purgeThreshold) = .ok s ∧
      s.Sound (keptAfter entriesThreshold purgeThreshold ops) := by
  obtain ⟨s, hrun, hinv, hlists⟩ := run_spec lists_new (inv_new entriesThreshold purgeThreshold) ops hfresh (by
    show 0 + _ < _
    omega)
  exact ⟨s, hrun, hinv.sound hlists⟩

/-- One name, used again after it was removed. -/
theorem reused_name_sound : ∃ s, run [.add 1 "x", .get "x", .remove "x", .add 2 "x"]
    (new 100 fun n => n / 5) = .ok s ∧ s.Sound [⟨2, "x"⟩] := by
  apply run_sound
  · decide
  · decide

/-- One name, added twice: the maps have different sizes, `get` returns the older object, and when both
entries are purged a name is missing. -/
theorem added_twice_not_sound : ∃ s, run [.add 1 "x", .add 2 "x"] (new 100 fun n => n / 5) = .ok s ∧
    keptAfter 100 (fun n => n / 5) [.add 1 "x", .add 2 "x"] = [⟨2, "x"⟩] ∧ ¬ s.Sound [⟨2, "x"⟩] ∧
    s.size = .error .assertion ∧ (s.get "x").map Prod.fst = .ok (some 1) ∧
    s.purge (fun n => n) = .error .assertion := by
  refine ⟨((new 100 fun n => n / 5).older.insertEntry ⟨1, "x"⟩).older.insertEntry ⟨2, "x"⟩, rfl, rfl, ?_,
    rfl, rfl, rfl⟩
  intro hsound
  have hsize := hsound.size_ok.2
  revert hsize
  decide

end ObjMemCache

end Skunk.BesUtils
