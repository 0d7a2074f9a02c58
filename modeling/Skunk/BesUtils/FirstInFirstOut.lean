import Mathlib.Data.List.Infix
import Skunk.BesUtils.MemoryCache

/-!
# What `MemoryCache` evicts

The queue of the cache is the end of the row of its arrivals: of the keys that were put while they were
absent, since the cache was last cleared. Putting a key that is present does not add to the row, and an
eviction takes keys off the front of the queue. So who arrived later is evicted later.
-/

namespace Skunk.BesUtils.MemoryCache

open Skunk.Container

variable {Value : Type}

/-! ## The history -/

/-- The value that an operation puts under a key. -/
def putValue (key : String) : Op Value → Option Value
  | .put k value => if k = key then some value else none
  | .get _ | .clear => none

/-- The value that was last put under a key. -/
def lastPut (ops : List (Op Value)) (key : String) : Option Value := ops.reverse.findSome? (putValue key)

/-- The keys that have arrived since the cache was last cleared, with an operation more. -/
def arrive (s : MemoryCache Value) (arrived : List String) : Op Value → List String
  | .put key _ => if (s.get key).isSome then arrived else arrived ++ [key]
  | .get _ => arrived
  | .clear => []

/-- The keys that have arrived at the end of a run. -/
def arrivals : List (Op Value) → MemoryCache Value → List String → List String
  | [], _, arrived => arrived
  | op :: ops, s, arrived =>
    match s.step op with
    | .ok s' => arrivals ops s' (arrive s arrived op)
    | .error _ => arrived

/-- A key last arrived after another. -/
def Later (arrived : List String) (key' key : String) : Prop :=
  arrived.reverse.idxOf key' < arrived.reverse.idxOf key

/-- How many keys a new key evicts. -/
def evictCount (s : MemoryCache Value) : Nat := if s.dCache.size = s.dMaxItems then s.dPurgeItems else 0

theorem lastPut_concat (ops : List (Op Value)) (op : Op Value) (key : String) :
    lastPut (ops ++ [op]) key = (putValue key op).or (lastPut ops key) := by
  unfold lastPut
  rw [List.reverse_concat, List.findSome?_cons]
  cases putValue key op <;> rfl

/-- Who is in the end of the row comes after who is not. -/
theorem mem_of_later {queue arrived : List String} (hsuffix : queue <:+ arrived) {key key' : String}
    (hkey : key ∈ queue) (hlater : Later arrived key' key) : key' ∈ queue := by
  obtain ⟨front, rfl⟩ := hsuffix
  unfold Later at hlater
  rw [List.reverse_append, List.idxOf_append_of_mem (List.mem_reverse.mpr hkey)] at hlater
  have hlt : queue.reverse.idxOf key < queue.reverse.length :=
    List.idxOf_lt_length_iff.mpr (List.mem_reverse.mpr hkey)
  by_contra hnot
  rw [List.idxOf_append_of_notMem (fun hmem => hnot (List.mem_reverse.mp hmem))] at hlater
  omega

/-! ## One operation -/

/-- A purge takes the values of the keys that it takes off the queue. -/
theorem find_purgeLoop {s s' : MemoryCache Value} {n : Nat} (h : purgeLoop n s = .ok s') (key : String) :
    s'.dCache.find key = if key ∈ s.dFifoKeys.take n then none else s.dCache.find key := by
  induction n generalizing s with
  | zero =>
      obtain rfl := Except.ok.inj h
      rw [List.take_zero, if_neg List.not_mem_nil]
  | succ n ih =>
      rw [purgeLoop] at h
      split at h
      · cases h
      next k keys hkeys =>
        split at h
        · cases h
        next value hvalue =>
          rw [ih h, hkeys, List.take_succ_cons]
          show (if key ∈ keys.take n then none else (s.dCache.erase k).find key) = _
          rw [OrdMap.find_erase]
          simp only [List.mem_cons]
          by_cases hkey : key = k
          · simp [hkey]
          · simp [hkey]

/-- A new key goes to the end of the queue, and evicts from its front when the cache is full. -/
theorem put_absent {s : MemoryCache Value} (h : s.Consistent) (hle : s.dPurgeItems ≤ s.dMaxItems)
    {key : String} (hkey : s.dCache.find key = none) (value : Value) :
    ∃ s', s.put key value = .ok s' ∧ s'.dFifoKeys = s.dFifoKeys.drop s.evictCount ++ [key] ∧
      ∀ k, s'.dCache.find k = if k ∈ s.dFifoKeys.take s.evictCount then none
        else if k = key then some value else s.dCache.find k := by
  have hmatched := matched_insert h.matched hkey value
  have hsize := hmatched.size_eq
  dsimp only at hsize
  rw [List.length_append, List.length_singleton, ← h.matched.size_eq] at hsize
  have hfind : ∀ k, (s.dCache.insert key value).find k =
      if k = key then some value else s.dCache.find k := OrdMap.find_insert_new hkey value
  have hcache := h.cache_le
  unfold put evictCount
  rw [hkey]
  dsimp only
  by_cases hfull : s.dCache.size = s.dMaxItems
  · have hroom : s.dPurgeItems ≤ s.dFifoKeys.length := by
      rw [← h.matched.size_eq]
      omega
    rw [if_pos (by omega), if_pos hfull]
    obtain ⟨s', hrun, -, hdrop, -, -⟩ := purgeLoop_spec hmatched
      (by rw [List.length_append]; omega : s.dPurgeItems ≤ (s.dFifoKeys ++ [key]).length)
    refine ⟨s', hrun, ?_, ?_⟩
    · rw [hdrop]
      exact List.drop_append_of_le_length hroom
    · intro k
      rw [find_purgeLoop hrun]
      dsimp only
      rw [List.take_append_of_le_length hroom, hfind]
  · rw [if_neg (by omega), if_neg hfull]
    refine ⟨_, rfl, rfl, ?_⟩
    intro k
    rw [List.take_zero, if_neg List.not_mem_nil]
    exact hfind k

/-- What an operation does to the values. -/
def Keeps (s : MemoryCache Value) : Op Value → MemoryCache Value → Prop
  | .put key value, s' =>
    s'.get key = some value ∧
    ((s.get key).isSome → s'.dFifoKeys = s.dFifoKeys ∧ ∀ k ≠ key, s'.get k = s.get k) ∧
    (s.get key = none → ∃ evicted : List String, evicted.Nodup ∧ evicted.length = s.evictCount ∧
      (∀ k ∈ evicted, (s.get k).isSome ∧ s'.get k = none) ∧
      ∀ k, k ∉ evicted → k ≠ key → s'.get k = s.get k)
  | .get _, s' => s' = s
  | .clear, s' => ∀ k, s'.get k = none

/-- The queue is the end of the row of arrivals, and the values are those last put. -/
structure FirstIn (maxItems purgeItems : Nat) (ops : List (Op Value)) (arrived : List String)
    (s : MemoryCache Value) : Prop where
  consistent : s.Consistent
  maxItems_eq : s.dMaxItems = maxItems
  purgeItems_eq : s.dPurgeItems = purgeItems
  suffix : s.dFifoKeys <:+ arrived
  own : ∀ k value, s.get k = some value → lastPut ops k = some value

section
variable {maxItems purgeItems : Nat} {ops : List (Op Value)} {arrived : List String}
  {s : MemoryCache Value}

/-- A value that is replaced keeps its place in the queue. -/
theorem FirstIn.put_present (h : FirstIn maxItems purgeItems ops arrived s) {key : String} {old : Value}
    (hkey : s.dCache.find key = some old) {value : Value} {s' : MemoryCache Value}
    (hput : s.put key value = .ok s') :
    s'.dFifoKeys <:+ arrive s arrived (.put key value) ∧
      (∀ k v, s'.get k = some v → lastPut (ops ++ [.put key value]) k = some v) ∧
      Keeps s (.put key value) s' := by
  unfold put at hput
  rw [hkey] at hput
  obtain rfl := Except.ok.inj hput
  have hpresent : (s.get key).isSome := by rw [get, hkey]; rfl
  have hfind : ∀ k, (s.dCache.set key value).find k = if k = key then some value else s.dCache.find k :=
    OrdMap.find_set _ _ _
  refine ⟨?_, ?_, ?_, ?_, ?_⟩
  · rw [arrive, if_pos hpresent]
    exact h.suffix
  · intro k v hv
    change (s.dCache.set key value).find k = some v at hv
    rw [lastPut_concat, putValue]
    rw [hfind] at hv
    by_cases hk : k = key
    · rw [if_pos hk] at hv
      rw [if_pos hk.symm, hv]
      rfl
    · rw [if_neg hk] at hv
      rw [if_neg (Ne.symm hk), Option.none_or]
      exact h.own k v hv
  · exact (hfind key).trans (if_pos rfl)
  · intro _
    refine ⟨rfl, ?_⟩
    intro k hk
    exact (hfind k).trans (if_neg hk)
  · intro hnone
    rw [get, hkey] at hnone
    cases hnone

/-- A new key comes last, and those that make room for it go first. -/
theorem FirstIn.put_absent (h : FirstIn maxItems purgeItems ops arrived s) (hle : purgeItems ≤ maxItems)
    {key : String} (hkey : s.dCache.find key = none) {value : Value} {s' : MemoryCache Value}
    (hput : s.put key value = .ok s') :
    s'.dFifoKeys <:+ arrive s arrived (.put key value) ∧
      (∀ k v, s'.get k = some v → lastPut (ops ++ [.put key value]) k = some v) ∧
      Keeps s (.put key value) s' := by
  have hle' : s.dPurgeItems ≤ s.dMaxItems := by rw [h.purgeItems_eq, h.maxItems_eq]; exact hle
  obtain ⟨s₁, hput', hqueue, hfind⟩ := MemoryCache.put_absent h.consistent hle' hkey value
  rw [hput] at hput'
  obtain rfl := Except.ok.inj hput'
  have hmatched := h.consistent.matched
  have habsent : ¬ (s.get key).isSome := by rw [get, hkey]; simp
  -- so the new key is not among those that are evicted
  have hnot : key ∉ s.dFifoKeys.take s.evictCount := by
    intro hmem
    exact habsent ((hmatched.mem_iff key).mp (List.mem_of_mem_take hmem))
  refine ⟨?_, ?_, ?_, ?_, ?_⟩
  · rw [arrive, if_neg habsent, hqueue]
    obtain ⟨front, hfront⟩ := (List.drop_suffix s.evictCount s.dFifoKeys).trans h.suffix
    exact ⟨front, by rw [← hfront, List.append_assoc]⟩
  · intro k v hv
    change s'.dCache.find k = some v at hv
    rw [lastPut_concat, putValue]
    rw [hfind] at hv
    split at hv
    · cases hv
    · by_cases hk : k = key
      · rw [if_pos hk] at hv
        rw [if_pos hk.symm, hv]
        rfl
      · rw [if_neg hk] at hv
        rw [if_neg (Ne.symm hk), Option.none_or]
        exact h.own k v hv
  · show s'.dCache.find key = some value
    rw [hfind, if_neg hnot, if_pos rfl]
  · intro hpresent
    exact absurd hpresent habsent
  · intro _
    refine ⟨s.dFifoKeys.take s.evictCount, ?_, ?_, ?_, ?_⟩
    · exact hmatched.nodup.sublist (List.take_sublist _ _)
    · rw [List.length_take, ← hmatched.size_eq]
      apply Nat.min_eq_left
      unfold evictCount
      split
      next hfull => rw [hfull]; exact hle'
      · exact Nat.zero_le _
    · intro k hk
      refine ⟨(hmatched.mem_iff k).mp (List.mem_of_mem_take hk), ?_⟩
      show s'.dCache.find k = none
      rw [hfind, if_pos hk]
    · intro k hk hne
      show s'.dCache.find k = s.dCache.find k
      rw [hfind, if_neg hk, if_neg hne]

/-- Every operation keeps the order of arrivals. -/
theorem FirstIn.step (h : FirstIn maxItems purgeItems ops arrived s) (hpos : 0 < purgeItems)
    (hle : purgeItems ≤ maxItems) (op : Op Value) :
    ∃ s', s.step op = .ok s' ∧ FirstIn maxItems purgeItems (ops ++ [op]) (arrive s arrived op) s' ∧
      Keeps s op s' := by
  have hpos' : 0 < s.dPurgeItems := by rw [h.purgeItems_eq]; exact hpos
  have hle' : s.dPurgeItems ≤ s.dMaxItems + 1 := by rw [h.purgeItems_eq, h.maxItems_eq]; omega
  obtain ⟨s', hstep, hconsistent, hmax, hpurge⟩ := step_spec h.consistent hpos' hle' op
  have hparts : s'.dFifoKeys <:+ arrive s arrived op ∧
      (∀ k v, s'.get k = some v → lastPut (ops ++ [op]) k = some v) ∧ Keeps s op s' := by
    cases op with
    | put key value =>
        cases hkey : s.dCache.find key with
        | some old => exact h.put_present hkey hstep
        | none => exact h.put_absent hle hkey hstep
    | get key =>
        obtain rfl := Except.ok.inj hstep
        refine ⟨h.suffix, ?_, rfl⟩
        intro k v hv
        rw [lastPut_concat]
        exact h.own k v hv
    | clear =>
        obtain rfl := Except.ok.inj hstep
        refine ⟨List.suffix_rfl, ?_, fun _ => rfl⟩
        intro k v hv
        cases hv
  obtain ⟨hsuffix, hown, hkeeps⟩ := hparts
  exact ⟨s', hstep, ⟨hconsistent, hmax.trans h.maxItems_eq, hpurge.trans h.purgeItems_eq, hsuffix, hown⟩,
    hkeeps⟩

/-- Over a whole run the queue is in the order in which the keys have arrived. -/
theorem FirstIn.run (h : FirstIn maxItems purgeItems ops arrived s) (hpos : 0 < purgeItems)
    (hle : purgeItems ≤ maxItems) (more : List (Op Value)) :
    ∃ s', MemoryCache.run more s = .ok s' ∧
      FirstIn maxItems purgeItems (ops ++ more) (arrivals more s arrived) s' := by
  induction more generalizing ops arrived s with
  | nil => exact ⟨s, rfl, by rw [List.append_nil]; exact h⟩
  | cons op more ih =>
      obtain ⟨s₁, hstep, hfirst, -⟩ := h.step hpos hle op
      obtain ⟨s', hrun, hfirst'⟩ := ih hfirst
      refine ⟨s', ?_, ?_⟩
      · rw [MemoryCache.run, hstep]
        exact hrun
      · rw [arrivals, hstep, List.append_cons]
        exact hfirst'

end

/-- In every run the values are those last put, and who arrived later than a key that is present is
present; a key just put is found, and a key that comes in evicts none or as many as it should. -/
theorem run_fifo {maxItems purgeItems : Nat} (hpos : 1 ≤ purgeItems) (hle : purgeItems ≤ maxItems)
    {s₀ : MemoryCache Value} (hinit : initCache maxItems purgeItems new = (true, s₀))
    (ops : List (Op Value)) :
    ∃ s, run ops s₀ = .ok s ∧
      (∀ k value, s.get k = some value → lastPut ops k = some value) ∧
      (∀ k k', (s.get k).isSome → Later (arrivals ops s₀ []) k' k → (s.get k').isSome) ∧
      (s.evictCount = 0 ∨ s.evictCount = purgeItems) ∧
      ∀ op, ∃ s', s.step op = .ok s' ∧ Keeps s op s' := by
  obtain rfl : s₀ = ⟨maxItems, purgeItems, [], .empty⟩ := by
    rw [initCache, if_neg (by omega)] at hinit
    exact (Prod.mk.inj hinit).2.symm
  have hstart : FirstIn maxItems purgeItems [] []
      (⟨maxItems, purgeItems, [], .empty⟩ : MemoryCache Value) := by
    refine ⟨⟨⟨.nil, ?_⟩, Nat.zero_le _, Nat.zero_le _⟩, rfl, rfl, List.suffix_rfl, ?_⟩
    · intro k
      simp
    · intro k value hvalue
      cases hvalue
  obtain ⟨s, hrun, hfirst⟩ := hstart.run hpos hle ops
  have hmem := hfirst.consistent.matched.mem_iff
  refine ⟨s, hrun, hfirst.own, ?_, ?_, ?_⟩
  · intro k k' hk hlater
    exact (hmem k').mp (mem_of_later hfirst.suffix ((hmem k).mpr hk) hlater)
  · rw [evictCount, hfirst.purgeItems_eq]
    split
    · exact .inr rfl
    · exact .inl rfl
  · intro op
    obtain ⟨s', hstep, -, hkeeps⟩ := hfirst.step hpos hle op
    exact ⟨s', hstep, hkeeps⟩

/-- `a` was put again while it was present, so it is evicted before `b`. -/
theorem run_fifo_two :
    ∃ s, run [.put "a" 1, .put "b" 2, .put "a" 3, .put "c" 4] ⟨2, 1, [], .empty⟩ = .ok s ∧
      (∀ k value, s.get k = some value →
        lastPut [.put "a" 1, .put "b" 2, .put "a" 3, .put "c" 4] k = some value) ∧
      (∀ k k', (s.get k).isSome →
        Later (arrivals [.put "a" 1, .put "b" 2, .put "a" 3, .put "c" 4]
          (⟨2, 1, [], .empty⟩ : MemoryCache Nat) []) k' k → (s.get k').isSome) ∧
      (s.evictCount = 0 ∨ s.evictCount = 1) ∧
      ∀ op, ∃ s', s.step op = .ok s' ∧ Keeps s op s' :=
  run_fifo (by decide : 1 ≤ 1) (by decide : 1 ≤ 2) rfl _

end Skunk.BesUtils.MemoryCache
