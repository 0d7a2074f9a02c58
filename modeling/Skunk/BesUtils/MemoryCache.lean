import Mathlib.Data.String.Basic
import Mathlib.Data.List.Nodup
import Skunk.Container.OrdMap

/-!
# `MemoryCache`

A cache of values under keys, from which the oldest entries are purged: a map, and a queue of its keys in
the order they came. What the source leaves undefined, the front of an empty queue and erasing the end
of the map, is a result of its own here.

`initialize` accepts any two positive numbers, but a purge takes as many keys off the queue as it is told
to. `runs_consistent_iff` says which numbers are safe.
-/

namespace Skunk.BesUtils

open Skunk.Container

/-- What has no defined behaviour. -/
inductive Undefined
  | frontOfEmptyQueue
  | eraseEnd
  deriving DecidableEq, Repr

structure MemoryCache (Value : Type) where
  dMaxItems : Nat
  dPurgeItems : Nat
  dFifoKeys : List String
  dCache : OrdMap String Value

namespace MemoryCache

variable {Value : Type}

def new : MemoryCache Value := ⟨100, 20, [], .empty⟩

def purgeLoop : Nat → MemoryCache Value → Except Undefined (MemoryCache Value)
  | 0, s => .ok s
  | n + 1, s =>
    match s.dFifoKeys with
    | [] => .error .frontOfEmptyQueue
    | key :: keys =>
      match s.dCache.find key with
      | none => .error .eraseEnd
      | some _ => purgeLoop n { s with dCache := s.dCache.erase key, dFifoKeys := keys }

def purge (s : MemoryCache Value) : Except Undefined (MemoryCache Value) := purgeLoop s.dPurgeItems s

def invariant (s : MemoryCache Value) (expensive : Bool) : Bool :=
  if s.dCache.size > s.dMaxItems then false
  else if s.dFifoKeys.length > s.dMaxItems then false
  else if s.dCache.size ≠ s.dFifoKeys.length then false
  else if expensive then s.dFifoKeys.all fun key => (s.dCache.find key).isSome
  else true

/-- `initialize`. -/
def initCache (maxItems purgeItems : Int) (s : MemoryCache Value) : Bool × MemoryCache Value :=
  if maxItems ≤ 0 ∨ purgeItems ≤ 0 then (false, s)
  else (true, { s with dMaxItems := maxItems.toNat, dPurgeItems := purgeItems.toNat })

def get (key : String) (s : MemoryCache Value) : Option Value := s.dCache.find key

def put (key : String) (value : Value) (s : MemoryCache Value) :
    Except Undefined (MemoryCache Value) :=
  match s.dCache.find key with
  | none =>
    let s := { s with dCache := s.dCache.insert key value, dFifoKeys := s.dFifoKeys ++ [key] }
    if s.dCache.size > s.dMaxItems then purge s else .ok s
  | some _ => .ok { s with dCache := s.dCache.set key value }

def clear (s : MemoryCache Value) : MemoryCache Value := { s with dCache := .empty, dFifoKeys := [] }

/-! ## Runs -/

inductive Op (Value : Type)
  | put (key : String) (value : Value)
  | get (key : String)
  | clear

/-- One operation; `get` leaves the cache as it is. -/
def step (s : MemoryCache Value) : Op Value → Except Undefined (MemoryCache Value)
  | .put key value => s.put key value
  | .get _ => .ok s
  | .clear => .ok s.clear

def run : List (Op Value) → MemoryCache Value → Except Undefined (MemoryCache Value)
  | [], s => .ok s
  | op :: ops, s =>
    match s.step op with
    | .error e => .error e
    | .ok s' => run ops s'

theorem run_append (ops ops' : List (Op Value)) (s : MemoryCache Value) :
    run (ops ++ ops') s = match run ops s with
      | .error e => .error e
      | .ok s' => run ops' s' := by
  induction ops generalizing s with
  | nil => rfl
  | cons op ops ih =>
      rw [List.cons_append, run, run]
      cases s.step op with
      | error e => rfl
      | ok s' => exact ih s'

/-! ## Consistency -/

/-- The queue has each key of the map once. -/
structure Matched (s : MemoryCache Value) : Prop where
  nodup : s.dFifoKeys.Nodup
  mem_iff : ∀ k, k ∈ s.dFifoKeys ↔ (s.dCache.find k).isSome

/-- The class invariant. -/
structure Consistent (s : MemoryCache Value) : Prop where
  matched : s.Matched
  queue_le : s.dFifoKeys.length ≤ s.dMaxItems
  cache_le : s.dCache.size ≤ s.dMaxItems

theorem Matched.size_eq {s : MemoryCache Value} (h : s.Matched) : s.dCache.size = s.dFifoKeys.length :=
  OrdMap.size_eq_length h.nodup h.mem_iff

theorem Consistent.of_matched {s : MemoryCache Value} (h : s.Matched)
    (hle : s.dFifoKeys.length ≤ s.dMaxItems) : s.Consistent :=
  ⟨h, hle, by rw [h.size_eq]; exact hle⟩

/-- A consistent cache passes its own check. -/
theorem Consistent.invariant {s : MemoryCache Value} (h : s.Consistent) (expensive : Bool) :
    s.invariant expensive = true := by
  have hmem : s.dFifoKeys.all (fun key => (s.dCache.find key).isSome) = true := by
    rw [List.all_eq_true]
    intro k hk
    exact (h.matched.mem_iff k).mp hk
  unfold MemoryCache.invariant
  rw [if_neg (by have := h.cache_le; omega), if_neg (by have := h.queue_le; omega),
    if_neg (fun hne => hne h.matched.size_eq), hmem]
  exact ite_self _

/-- A purge goes well as long as the queue lasts. -/
theorem purgeLoop_spec {s : MemoryCache Value} (h : s.Matched) {n : Nat}
    (hn : n ≤ s.dFifoKeys.length) : ∃ s', purgeLoop n s = .ok s' ∧ s'.Matched ∧
      s'.dFifoKeys = s.dFifoKeys.drop n ∧ s'.dMaxItems = s.dMaxItems ∧
      s'.dPurgeItems = s.dPurgeItems := by
  induction n generalizing s with
  | zero => exact ⟨s, rfl, h, rfl, rfl, rfl⟩
  | succ n ih =>
      rw [purgeLoop]
      cases hkeys : s.dFifoKeys with
      | nil =>
          rw [hkeys] at hn
          cases hn
      | cons key keys =>
          have hnodup := h.nodup
          rw [hkeys, List.nodup_cons] at hnodup
          obtain ⟨value, hvalue⟩ := Option.isSome_iff_exists.mp
            ((h.mem_iff key).mp (by rw [hkeys]; exact List.mem_cons_self))
          have hmatched : Matched { s with dCache := s.dCache.erase key, dFifoKeys := keys } := by
            refine ⟨hnodup.2, ?_⟩
            intro k
            show k ∈ keys ↔ ((s.dCache.erase key).find k).isSome
            rw [OrdMap.find_erase]
            by_cases hk : k = key
            · simp [hk, hnodup.1]
            · rw [if_neg hk, ← h.mem_iff, hkeys]
              simp [hk]
          have hle : n ≤ keys.length := by
            rw [hkeys, List.length_cons] at hn
            omega
          obtain ⟨s', hrun, hmatched', hdrop, hmax, hpurge⟩ := ih hmatched hle
          dsimp only
          rw [hvalue]
          exact ⟨s', hrun, hmatched', hdrop, hmax, hpurge⟩

/-- And no longer. -/
theorem le_of_purgeLoop {s s' : MemoryCache Value} {n : Nat} (h : purgeLoop n s = .ok s') :
    n ≤ s.dFifoKeys.length := by
  induction n generalizing s with
  | zero => exact Nat.zero_le _
  | succ n ih =>
      rw [purgeLoop] at h
      split at h
      · cases h
      next key keys hkeys =>
        split at h
        · cases h
        · have := ih h
          rw [hkeys, List.length_cons]
          exact Nat.succ_le_succ this

theorem matched_insert {s : MemoryCache Value} (h : s.Matched) {key : String}
    (hkey : s.dCache.find key = none) (value : Value) :
    Matched { s with dCache := s.dCache.insert key value, dFifoKeys := s.dFifoKeys ++ [key] } := by
  have hnot : key ∉ s.dFifoKeys := by
    rw [h.mem_iff, hkey]
    simp
  constructor
  · exact List.nodup_append.mpr ⟨h.nodup, List.nodup_singleton _, by
      rintro a ha b hb rfl
      rw [List.mem_singleton] at hb
      exact hnot (hb ▸ ha)⟩
  · intro k
    show k ∈ s.dFifoKeys ++ [key] ↔ ((s.dCache.insert key value).find k).isSome
    rw [OrdMap.find_insert_new hkey, List.mem_append, List.mem_singleton, h.mem_iff]
    by_cases hk : k = key <;> simp [hk]

/-- An operation keeps a cache consistent if its purge amount is no more than one above its size. -/
theorem step_spec {s : MemoryCache Value} (h : s.Consistent) (hpos : 0 < s.dPurgeItems)
    (hle : s.dPurgeItems ≤ s.dMaxItems + 1) (op : Op Value) :
    ∃ s', s.step op = .ok s' ∧ s'.Consistent ∧ s'.dMaxItems = s.dMaxItems ∧
      s'.dPurgeItems = s.dPurgeItems := by
  cases op with
  | get key => exact ⟨s, rfl, h, rfl, rfl⟩
  | clear => exact ⟨s.clear, rfl, ⟨⟨.nil, fun k => by simp [clear]⟩, Nat.zero_le _, Nat.zero_le _⟩, rfl, rfl⟩
  | put key value =>
      show ∃ s', s.put key value = .ok s' ∧ _
      unfold put
      cases hkey : s.dCache.find key with
      | some old =>
          have hmatched : Matched { s with dCache := s.dCache.set key value } := by
            refine ⟨h.matched.nodup, fun k => ?_⟩
            show k ∈ s.dFifoKeys ↔ ((s.dCache.set key value).find k).isSome
            rw [OrdMap.find_set, h.matched.mem_iff]
            by_cases hk : k = key
            · simp [hk, hkey]
            · rw [if_neg hk]
          exact ⟨_, rfl, .of_matched hmatched h.queue_le, rfl, rfl⟩
      | none =>
          have hmatched := matched_insert h.matched hkey value
          have hsize := hmatched.size_eq
          dsimp only at hsize ⊢
          rw [List.length_append, List.length_singleton] at hsize
          by_cases hfull : (s.dCache.insert key value).size > s.dMaxItems
          · -- the purge finds one entry more than the maximum
            rw [if_pos hfull]
            have hqueue := h.queue_le
            obtain ⟨s', hrun, hmatched', hdrop, hmax, hpurge⟩ := purgeLoop_spec hmatched
              (by simp only [List.length_append, List.length_singleton]; omega : s.dPurgeItems ≤ _)
            refine ⟨s', hrun, Consistent.of_matched hmatched' ?_, hmax, hpurge⟩
            rw [hdrop, hmax, List.length_drop]
            simp only [List.length_append, List.length_singleton]
            omega
          · rw [if_neg hfull]
            refine ⟨_, rfl, Consistent.of_matched hmatched ?_, rfl, rfl⟩
            simp only [List.length_append, List.length_singleton]
            omega

theorem run_spec {s : MemoryCache Value} (h : s.Consistent) (hpos : 0 < s.dPurgeItems)
    (hle : s.dPurgeItems ≤ s.dMaxItems + 1) (ops : List (Op Value)) :
    ∃ s', run ops s = .ok s' ∧ s'.Consistent := by
  induction ops generalizing s with
  | nil => exact ⟨s, rfl, h⟩
  | cons op ops ih =>
      obtain ⟨s', hstep, hconsistent, hmax, hpurge⟩ := step_spec h hpos hle op
      rw [run, hstep]
      exact ih hconsistent (by rw [hpurge]; exact hpos) (by rw [hpurge, hmax]; exact hle)

/-! ## Which numbers are safe -/

/-- New keys fill the queue up to the maximum. -/
theorem run_puts {s : MemoryCache Value} (h : s.Consistent) (value : Value) {keys : List String}
    (hnodup : (s.dFifoKeys ++ keys).Nodup) (hle : (s.dFifoKeys ++ keys).length ≤ s.dMaxItems) :
    ∃ s', run (keys.map fun key => .put key value) s = .ok s' ∧ s'.Consistent ∧
      s'.dFifoKeys = s.dFifoKeys ++ keys ∧ s'.dMaxItems = s.dMaxItems ∧
      s'.dPurgeItems = s.dPurgeItems := by
  induction keys generalizing s with
  | nil => exact ⟨s, rfl, h, (List.append_nil _).symm, rfl, rfl⟩
  | cons key keys ih =>
      have hsplit : s.dFifoKeys ++ key :: keys = (s.dFifoKeys ++ [key]) ++ keys := by simp
      have hnot : key ∉ s.dFifoKeys := by
        intro hmem
        exact (List.nodup_append.mp hnodup).2.2 key hmem key List.mem_cons_self rfl
      have hkey : s.dCache.find key = none := by
        rw [h.matched.mem_iff] at hnot
        simpa using hnot
      have hmatched := matched_insert h.matched hkey value
      have hroom : (s.dFifoKeys ++ [key]).length ≤ s.dMaxItems := by
        rw [hsplit, List.length_append] at hle
        omega
      have hstep : s.step (.put key value) = .ok { s with
          dCache := s.dCache.insert key value, dFifoKeys := s.dFifoKeys ++ [key] } := by
        have hsize := hmatched.size_eq
        dsimp only at hsize
        show s.put key value = _
        unfold put
        rw [hkey]
        dsimp only
        rw [if_neg (by rw [hsize]; omega)]
      rw [hsplit] at hnodup hle ⊢
      rw [List.map_cons, run, hstep]
      exact ih (Consistent.of_matched hmatched hroom) hnodup hle

/-- One key more sets off a purge. -/
theorem purge_of_put_full {s s' : MemoryCache Value} (h : s.Consistent)
    (hfull : s.dFifoKeys.length = s.dMaxItems) {key : String} (hkey : key ∉ s.dFifoKeys) {value : Value}
    (hstep : s.step (.put key value) = .ok s') : s.dPurgeItems ≤ s.dMaxItems + 1 := by
  have hnone : s.dCache.find key = none := by
    rw [h.matched.mem_iff] at hkey
    simpa using hkey
  have hsize := (matched_insert h.matched hnone value).size_eq
  dsimp only at hsize
  rw [List.length_append, List.length_singleton] at hsize
  change s.put key value = .ok s' at hstep
  unfold put at hstep
  rw [hnone] at hstep
  dsimp only at hstep
  rw [if_pos (by omega)] at hstep
  have hle := le_of_purgeLoop hstep
  simp only [List.length_append, List.length_singleton] at hle
  omega

/-- Every run keeps the cache consistent exactly if no purge takes more than one entry above the
maximum. -/
theorem runs_consistent_iff [Inhabited Value] (maxItems purgeItems : Int) (s : MemoryCache Value)
    (hinit : initCache maxItems purgeItems new = (true, s)) :
    (∀ ops : List (Op Value), ∃ s', run ops s = .ok s' ∧ s'.Consistent) ↔
      purgeItems ≤ maxItems + 1 := by
  unfold initCache at hinit
  split at hinit
  · cases hinit
  next hpos =>
    obtain ⟨hmaxPos, hpurgePos⟩ := not_or.mp hpos
    obtain rfl := (Prod.mk.inj hinit).2
    have hconsistent : Consistent ({ (new : MemoryCache Value) with
        dMaxItems := maxItems.toNat, dPurgeItems := purgeItems.toNat }) :=
      ⟨⟨.nil, fun k => by simp [new]⟩, Nat.zero_le _, Nat.zero_le _⟩
    constructor
    · intro hruns
      -- as many keys as fit, and one more
      have hnodup : ((List.range (maxItems.toNat)).map numbered).Nodup :=
        List.nodup_range.map numbered_injective
      obtain ⟨s', hrun, hconsistent', hkeys, hmax, hpurge⟩ := run_puts hconsistent default
        (by simpa [new] using hnodup) (by simp [new])
      obtain ⟨s'', hrun', -⟩ := hruns (((List.range maxItems.toNat).map numbered).map
        (fun key => .put key default) ++ [.put (numbered maxItems.toNat) default])
      rw [run_append, hrun] at hrun'
      dsimp only [run] at hrun'
      have hkeys' : s'.dFifoKeys = (List.range maxItems.toNat).map numbered := by simpa [new] using hkeys
      have hnot : numbered maxItems.toNat ∉ s'.dFifoKeys := by
        rw [hkeys', List.mem_map]
        rintro ⟨i, hi, hname⟩
        have := List.mem_range.mp hi
        have := numbered_injective hname
        omega
      cases hstep : s'.step (.put (numbered maxItems.toNat) default) with
      | error e => rw [hstep] at hrun'; cases hrun'
      | ok s₁ =>
          have hle := purge_of_put_full hconsistent' (by rw [hkeys', hmax]; simp) hnot hstep
          rw [hpurge, hmax] at hle
          dsimp only at hle
          omega
    · intro hle ops
      exact run_spec hconsistent (by dsimp only; omega) (by dsimp only; omega) ops

/-- Two of three entries are purged. -/
theorem purge_two_consistent : ∃ s', run [.put "a" 1, .put "b" 2, .put "a" 3, .put "c" 4]
    (⟨2, 2, [], .empty⟩ : MemoryCache Nat) = .ok s' ∧ s'.Consistent :=
  (runs_consistent_iff 2 2 ⟨2, 2, [], .empty⟩ rfl).mpr (by decide) _

/-- Three of two entries cannot be. -/
theorem purge_three_undefined : initCache 1 3 (new : MemoryCache Nat) = (true, ⟨1, 3, [], .empty⟩) ∧
    run [.put "a" 1, .put "b" 2] (⟨1, 3, [], .empty⟩ : MemoryCache Nat) =
      .error .frontOfEmptyQueue :=
  ⟨rfl, rfl⟩

end MemoryCache

end Skunk.BesUtils
