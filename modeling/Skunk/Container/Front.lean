import Mathlib.Algebra.BigOperators.Group.List.Basic
import Mathlib.Algebra.GroupWithZero.Nat
import Mathlib.Algebra.Order.BigOperators.Group.List
import Mathlib.Algebra.Order.Group.Nat
import Mathlib.Data.List.Sort

/-!
# Taking from the front of a queue

A queue that is ordered by a key, where elements with the same key stay as they came, and what is taken from
its front until the total weight of what has been taken exceeds a limit. The total may be counted in a register
that wraps around.
-/

namespace Skunk.Container

section Order

variable {α κ κ' : Type} [LinearOrder κ] [LinearOrder κ'] {key : α → κ} {l queue : List α}

/-- The elements of `l` in the order of their keys, those with the same key as they are in `l`. -/
def Ordered (key : α → κ) (l queue : List α) : Prop :=
  queue.Perm l ∧ queue.Pairwise fun a b => key a < key b ∨ key a = key b ∧ [a, b].Sublist l

/-- Put an element behind all whose key is not larger. -/
def insertBehind (key : α → κ) (a : α) (queue : List α) : List α :=
  queue.orderedInsert (fun a b => key a < key b) a

theorem insertBehind_cons_of_lt {a b : α} (h : key a < key b) :
    insertBehind key a (b :: queue) = a :: b :: queue :=
  List.orderedInsert_cons_of_le (fun a b => key a < key b) queue h

theorem insertBehind_cons_of_le {a b : α} (h : key b ≤ key a) :
    insertBehind key a (b :: queue) = b :: insertBehind key a queue :=
  List.orderedInsert_of_not_le (fun a b => key a < key b) queue (not_lt.mpr h)

/-- The queue of a list. -/
def inOrder (key : α → κ) (l : List α) : List α := l.foldl (fun queue a => insertBehind key a queue) []

theorem Ordered.nil : Ordered key ([] : List α) [] := ⟨.refl [], .nil⟩

/-- One more element of the list goes behind its equals. -/
theorem Ordered.behind (h : Ordered key l queue) (a : α) :
    Ordered key (l ++ [a]) (insertBehind key a queue) := by
  obtain ⟨hperm, hpairwise⟩ := h
  refine ⟨?_, ?_⟩
  · have hcons : (insertBehind key a queue).Perm (a :: l) :=
      (List.perm_orderedInsert _ a queue).trans (hperm.cons a)
    exact hcons.trans (List.perm_append_singleton a l).symm
  · -- every element of the queue stands before the new one in the list
    have hbefore : ∀ b ∈ queue, [b, a].Sublist (l ++ [a]) := fun b hb =>
      (List.singleton_sublist.mpr (hperm.mem_iff.mp hb)).append (List.Sublist.refl [a])
    have hlater : queue.Pairwise fun b c => key b < key c ∨ key b = key c ∧ [b, c].Sublist (l ++ [a]) :=
      hpairwise.imp fun hbc => hbc.imp_right fun h => ⟨h.1, h.2.trans (List.sublist_append_left l [a])⟩
    clear hperm hpairwise
    induction queue with
    | nil => exact List.pairwise_singleton _ a
    | cons b queue ih =>
        obtain ⟨hb, hbefore⟩ := List.forall_mem_cons.mp hbefore
        obtain ⟨hfirst, hrest⟩ := List.pairwise_cons.mp hlater
        by_cases hlt : key a < key b
        · rw [insertBehind_cons_of_lt hlt]
          refine List.pairwise_cons.mpr ⟨?_, hlater⟩
          intro c hc
          left
          rcases List.mem_cons.mp hc with rfl | hc
          · exact hlt
          · rcases hfirst c hc with hbc | ⟨hbc, -⟩
            · exact hlt.trans hbc
            · exact hbc ▸ hlt
        · have hle := le_of_not_gt hlt
          rw [insertBehind_cons_of_le hle]
          refine List.pairwise_cons.mpr ⟨?_, ih hbefore hrest⟩
          intro c hc
          rcases (List.mem_orderedInsert _).mp hc with rfl | hc
          · rcases lt_or_eq_of_le hle with hlt | heq
            · exact .inl hlt
            · exact .inr ⟨heq, hb⟩
          · exact hfirst c hc

/-- All elements of a list, one after the other. -/
theorem Ordered.foldl {before : List α} (h : Ordered key before queue) (l : List α) :
    Ordered key (before ++ l) (l.foldl (fun queue a => insertBehind key a queue) queue) := by
  induction l generalizing before queue with
  | nil => rwa [List.append_nil]
  | cons a l ih =>
      have hrest := ih (h.behind a)
      rwa [List.append_assoc, List.singleton_append] at hrest

theorem ordered_inOrder (key : α → κ) (l : List α) : Ordered key l (inOrder key l) := Ordered.nil.foldl l

/-- Of two elements only one stands before the other. -/
theorem eq_of_pair_sublist {a b : α} (hnodup : l.Nodup) (h : [a, b].Sublist l) (h' : [b, a].Sublist l) : a = b := by
  induction l with
  | nil => cases h
  | cons x l ih =>
      obtain ⟨hx, hnodup⟩ := List.nodup_cons.mp hnodup
      rcases List.sublist_cons_iff.mp h with h | ⟨r, hr, hb⟩
      · rcases List.sublist_cons_iff.mp h' with h' | ⟨r, hr, -⟩
        · exact ih hnodup h h'
        · have hb : b ∈ l := h.subset (List.mem_cons_of_mem a List.mem_cons_self)
          exact absurd ((List.cons.inj hr).1 ▸ hb) hx
      · obtain ⟨rfl, rfl⟩ := List.cons.inj hr
        rcases List.sublist_cons_iff.mp h' with h' | ⟨r, hr, -⟩
        · exact absurd (h'.subset (List.mem_cons_of_mem b List.mem_cons_self)) hx
        · exact (List.cons.inj hr).1.symm

/-- There is only one queue. -/
theorem Ordered.unique {queue' : List α} (h : Ordered key l queue) (h' : Ordered key l queue') (hnodup : l.Nodup) :
    queue = queue' := by
  refine List.Perm.eq_of_pairwise ?_ h.2 h'.2 (h.1.trans h'.1.symm)
  rintro a b - - (hlt | ⟨heq, hab⟩) (hlt' | ⟨heq', hba⟩)
  · exact absurd hlt' hlt.not_gt
  · exact absurd heq' hlt.ne'
  · exact absurd heq hlt'.ne'
  · exact eq_of_pair_sublist hnodup hab hba

/-- Keys that order the elements alike give the same queue. -/
theorem inOrder_congr {key' : α → κ'} (hnodup : l.Nodup)
    (h : ∀ a ∈ l, ∀ b ∈ l, key a < key b ↔ key' a < key' b) : inOrder key l = inOrder key' l := by
  obtain ⟨hperm, hpairwise⟩ := ordered_inOrder key l
  have hordered : Ordered key' l (inOrder key l) := by
    refine ⟨hperm, hpairwise.imp_of_mem ?_⟩
    intro a b ha hb hab
    have ha := hperm.mem_iff.mp ha
    have hb := hperm.mem_iff.mp hb
    refine hab.imp (h a ha b hb).mp (And.imp_left fun heq => ?_)
    -- equal keys are those of which none is the smaller
    refine le_antisymm (not_lt.mp fun hlt => ?_) (not_lt.mp fun hlt => ?_)
    · exact absurd ((h b hb a ha).mpr hlt) (heq ▸ lt_irrefl _)
    · exact absurd ((h a ha b hb).mpr hlt) (heq ▸ lt_irrefl _)
  exact hordered.unique (ordered_inOrder key' l) hnodup

/-- Some of the elements are in the order in which all are. -/
theorem Ordered.filter (h : Ordered key l queue) (p : α → Bool) : Ordered key (l.filter p) (queue.filter p) := by
  refine ⟨h.1.filter p, ?_⟩
  refine (h.2.filter p).imp_of_mem ?_
  intro a b ha hb hab
  refine hab.imp_right (And.imp_right fun hsub => ?_)
  have hpair := hsub.filter p
  rwa [List.filter_cons_of_pos (List.mem_filter.mp ha).2,
    List.filter_cons_of_pos (List.mem_filter.mp hb).2] at hpair

/-- Where the keys of some elements are smaller than those of all others, these come first. -/
theorem Ordered.split (h : Ordered key l queue) (hnodup : l.Nodup) {p : α → Bool}
    (hlt : ∀ a ∈ l, p a = true → ∀ b ∈ l, p b = false → key a < key b) :
    queue = inOrder key (l.filter p) ++ inOrder key (l.filter fun a => !p a) := by
  have hfirst := ordered_inOrder key (l.filter p)
  have hsecond := ordered_inOrder key (l.filter fun a => !p a)
  refine h.unique ⟨?_, List.pairwise_append.mpr ⟨?_, ?_, ?_⟩⟩ hnodup
  · exact (hfirst.1.append hsecond.1).trans (List.filter_append_perm p l)
  · exact hfirst.2.imp fun hab => hab.imp_right (And.imp_right fun hsub => hsub.trans List.filter_sublist)
  · exact hsecond.2.imp fun hab => hab.imp_right (And.imp_right fun hsub => hsub.trans List.filter_sublist)
  · intro a ha b hb
    obtain ⟨ha, hpa⟩ := List.mem_filter.mp (hfirst.1.mem_iff.mp ha)
    obtain ⟨hb, hpb⟩ := List.mem_filter.mp (hsecond.1.mem_iff.mp hb)
    exact .inl (hlt a ha hpa b hb ((Bool.not_eq_true' _).mp hpb))

end Order

section Front

variable {α : Type} {weight : α → Nat} {limit taken : Nat} {queue front : List α}

/-- The shortest front of the queue whose total weight exceeds the limit, or all of it. -/
structure Takes (weight : α → Nat) (limit : Nat) (queue front : List α) : Prop where
  fronts : ∃ rest, queue = front ++ rest
  short : ∀ fewer rest, front = fewer ++ rest → rest ≠ [] → (fewer.map weight).sum ≤ limit
  enough : limit < (front.map weight).sum ∨ front = queue

/-- Take from the front, as long as what has been taken does not exceed the limit. -/
def takeOver (weight : α → Nat) (limit : Nat) : Nat → List α → List α
  | _, [] => []
  | taken, a :: queue =>
    if limit < taken then [] else a :: takeOver weight limit (taken + weight a) queue

theorem takeOver_append (taken : Nat) (queue : List α) :
    ∃ rest, queue = takeOver weight limit taken queue ++ rest := by
  induction queue generalizing taken with
  | nil => exact ⟨[], rfl⟩
  | cons a queue ih =>
      rw [takeOver]
      split
      · exact ⟨a :: queue, rfl⟩
      · obtain ⟨rest, hrest⟩ := ih (taken + weight a)
        exact ⟨rest, congrArg (a :: ·) hrest⟩

theorem takeOver_short {fewer rest : List α} (h : takeOver weight limit taken queue = fewer ++ rest)
    (hrest : rest ≠ []) : taken + (fewer.map weight).sum ≤ limit := by
  induction queue generalizing taken fewer with
  | nil =>
      rw [takeOver] at h
      exact absurd (List.append_eq_nil_iff.mp h.symm).2 hrest
  | cons a queue ih =>
      rw [takeOver] at h
      split at h
      next => exact absurd (List.append_eq_nil_iff.mp h.symm).2 hrest
      next hle =>
        cases fewer with
        | nil =>
            rw [List.map_nil, List.sum_nil, Nat.add_zero]
            exact Nat.le_of_not_lt hle
        | cons b fewer =>
            obtain ⟨rfl, htail⟩ := List.cons.inj h
            have hsum := ih htail
            rw [List.map_cons, List.sum_cons]
            omega

theorem takeOver_enough (taken : Nat) (queue : List α) :
    limit < taken + ((takeOver weight limit taken queue).map weight).sum ∨
      takeOver weight limit taken queue = queue := by
  induction queue generalizing taken with
  | nil => exact .inr rfl
  | cons a queue ih =>
      rw [takeOver]
      split
      next hlt =>
        left
        rw [List.map_nil, List.sum_nil, Nat.add_zero]
        exact hlt
      next =>
        rw [List.map_cons, List.sum_cons, ← Nat.add_assoc]
        exact (ih (taken + weight a)).imp_right (congrArg (a :: ·))

/-- What is taken when nothing has been taken before. -/
theorem takes_takeOver (weight : α → Nat) (limit : Nat) (queue : List α) :
    Takes weight limit queue (takeOver weight limit 0 queue) where
  fronts := takeOver_append 0 queue
  short := by
    intro fewer rest h hrest
    have hshort := takeOver_short h hrest
    rwa [Nat.zero_add] at hshort
  enough := by
    have henough : limit < 0 + ((takeOver weight limit 0 queue).map weight).sum ∨
        takeOver weight limit 0 queue = queue := takeOver_enough 0 queue
    rwa [Nat.zero_add] at henough

/-- No shortest front is longer than another. -/
theorem Takes.maximal {more : List α} (h : Takes weight limit queue front)
    (h' : Takes weight limit queue (front ++ more)) : more = [] := by
  by_contra hmore
  have hshort := h'.short front more rfl hmore
  rcases h.enough with henough | hall
  · omega
  · obtain ⟨rest, hrest⟩ := h'.fronts
    rw [hall, List.append_assoc] at hrest
    exact hmore (List.append_eq_nil_iff.mp (List.self_eq_append_right.mp hrest)).1

/-- Only one front is the shortest. -/
theorem Takes.unique {front' : List α} (h : Takes weight limit queue front) (h' : Takes weight limit queue front') :
    front = front' := by
  obtain ⟨rest, hrest⟩ := h.fronts
  obtain ⟨rest', hrest'⟩ := h'.fronts
  rcases List.append_eq_append_iff.mp (hrest.symm.trans hrest') with ⟨more, rfl, -⟩ | ⟨more, rfl, -⟩
  · rw [h.maximal h', List.append_nil]
  · rw [h'.maximal h, List.append_nil]

theorem Takes.sublist (h : Takes weight limit queue front) : front.Sublist queue := by
  obtain ⟨rest, rfl⟩ := h.fronts
  exact List.sublist_append_left front rest

/-! ### Two parts of a queue -/

theorem Takes.ne_nil (h : Takes weight limit queue front) (hqueue : queue ≠ []) : front ≠ [] := by
  rintro rfl
  rcases h.enough with henough | hall
  · exact absurd henough (Nat.not_lt_zero limit)
  · exact hqueue hall.symm

theorem Takes.head_mem {a : α} (h : Takes weight limit (a :: queue) front) : a ∈ front := by
  obtain ⟨rest, hrest⟩ := h.fronts
  cases front with
  | nil => exact absurd rfl (h.ne_nil (List.cons_ne_nil a queue))
  | cons b front => exact (List.cons.inj hrest).1 ▸ List.mem_cons_self

/-- If everything has been taken, the front is the queue. -/
theorem Takes.eq_of_mem (h : Takes weight limit queue front) (hnodup : queue.Nodup)
    (hall : ∀ a ∈ queue, a ∈ front) : front = queue := by
  obtain ⟨rest, rfl⟩ := h.fronts
  obtain ⟨-, -, hdisjoint⟩ := List.nodup_append.mp hnodup
  have hnone : rest = [] := List.eq_nil_iff_forall_not_mem.mpr fun a ha =>
    hdisjoint a (hall a (List.mem_append_right front ha)) a ha rfl
  rw [hnone, List.append_nil]

variable {first second : List α}

/-- Who takes something of the second part has taken the first. -/
theorem Takes.past (h : Takes weight limit (first ++ second) front) (hnodup : (first ++ second).Nodup) {a : α}
    (ha : a ∈ second) (hmem : a ∈ front) : ∀ b ∈ first, b ∈ front := by
  obtain ⟨rest, hrest⟩ := h.fronts
  rcases List.append_eq_append_iff.mp hrest with ⟨more, rfl, -⟩ | ⟨more, rfl, -⟩
  · exact fun b hb => List.mem_append_left more hb
  · obtain ⟨-, -, hdisjoint⟩ := List.nodup_append.mp hnodup
    exact absurd rfl (hdisjoint a (List.mem_append_left more hmem) a ha)

/-- All of a queue is taken if all but the last does not exceed the limit. -/
theorem takes_all_iff :
    Takes weight limit queue queue ↔ ∀ a ∈ queue.getLast?, (queue.map weight).sum ≤ limit + weight a := by
  constructor
  · intro h a ha
    have hqueue := List.dropLast_append_getLast? a ha
    have hshort := h.short queue.dropLast [a] hqueue.symm (List.cons_ne_nil a [])
    rw [← hqueue, List.map_append, List.sum_append, List.map_singleton, List.sum_singleton]
    omega
  · intro h
    refine ⟨⟨[], (List.append_nil queue).symm⟩, ?_, .inr rfl⟩
    rintro fewer rest rfl hrest
    have hlast : rest.getLast hrest ∈ (fewer ++ rest).getLast? := by
      rw [List.getLast?_append_of_ne_nil fewer hrest]
      exact List.getLast?_eq_some_getLast hrest
    have hle := h _ hlast
    have hmem : weight (rest.getLast hrest) ≤ (rest.map weight).sum :=
      List.single_le_sum (fun _ _ => Nat.zero_le _) _ (List.mem_map_of_mem (List.getLast_mem hrest))
    rw [List.map_append, List.sum_append] at hle
    omega

/-- Whichever part comes first, all of both has to be taken, unless one of them is empty. -/
def AllNeeded (weight : α → Nat) (limit : Nat) (first second : List α) : Prop :=
  ∀ a ∈ first.getLast?, ∀ b ∈ second.getLast?,
    ((first ++ second).map weight).sum ≤ limit + weight a ∧ ((first ++ second).map weight).sum ≤ limit + weight b

/-- When it does not matter for what is taken which of two parts comes first. -/
theorem takes_swap_iff (hnodup : (first ++ second).Nodup) (h : Takes weight limit (second ++ first) front) :
    (∃ gone, Takes weight limit (first ++ second) gone ∧ ∀ a, a ∈ gone ↔ a ∈ front) ↔
      AllNeeded weight limit first second := by
  have hnodup' : (second ++ first).Nodup := List.nodup_append_comm.mp hnodup
  have hsum : ((second ++ first).map weight).sum = ((first ++ second).map weight).sum := by
    simp only [List.map_append, List.sum_append, Nat.add_comm]
  cases first with
  | nil =>
      rw [List.append_nil] at h
      exact iff_of_true ⟨front, h, fun _ => Iff.rfl⟩ nofun
  | cons x first =>
      cases second with
      | nil =>
          rw [List.append_nil]
          exact iff_of_true ⟨front, h, fun _ => Iff.rfl⟩ fun a _ b hb => nomatch hb
      | cons y second =>
          have hlast : ((x :: first) ++ (y :: second)).getLast? = (y :: second).getLast? :=
            List.getLast?_append_of_ne_nil _ (List.cons_ne_nil y second)
          have hlast' : ((y :: second) ++ (x :: first)).getLast? = (x :: first).getLast? :=
            List.getLast?_append_of_ne_nil _ (List.cons_ne_nil x first)
          constructor
          · rintro ⟨gone, hgone, hsame⟩ a ha b hb
            -- each has taken the first of its own first part, so the other has gone past its own
            have hfirst := hgone.past hnodup List.mem_cons_self ((hsame y).mpr h.head_mem)
            have hsecond := h.past hnodup' List.mem_cons_self ((hsame x).mp hgone.head_mem)
            have hall : gone = (x :: first) ++ (y :: second) := by
              refine hgone.eq_of_mem hnodup fun c hc => ?_
              exact (List.mem_append.mp hc).elim (hfirst c) fun hc => (hsame c).mpr (hsecond c hc)
            have hall' : front = (y :: second) ++ (x :: first) := by
              refine h.eq_of_mem hnodup' fun c hc => ?_
              exact (List.mem_append.mp hc).elim (hsecond c) fun hc => (hsame c).mp (hfirst c hc)
            rw [hall] at hgone
            rw [hall'] at h
            exact ⟨hsum ▸ takes_all_iff.mp h a (hlast' ▸ ha), takes_all_iff.mp hgone b (hlast ▸ hb)⟩
          · intro hneeded
            have hx := List.getLast?_eq_some_getLast (List.cons_ne_nil x first)
            have hy := List.getLast?_eq_some_getLast (List.cons_ne_nil y second)
            obtain ⟨hle, hle'⟩ := hneeded _ hx _ hy
            have hall : Takes weight limit ((x :: first) ++ (y :: second)) ((x :: first) ++ (y :: second)) := by
              refine takes_all_iff.mpr fun b hb => ?_
              rw [hlast, hy] at hb
              exact Option.some.inj hb ▸ hle'
            have hall' : Takes weight limit ((y :: second) ++ (x :: first)) ((y :: second) ++ (x :: first)) := by
              refine takes_all_iff.mpr fun a ha => ?_
              rw [hlast', hx] at ha
              exact hsum.symm ▸ Option.some.inj ha ▸ hle
            refine ⟨_, hall, fun a => ?_⟩
            rw [h.unique hall', List.mem_append, List.mem_append, or_comm]

/-! ### A register that wraps around -/

/-- `takeOver` where what has been taken is counted modulo `m`. -/
def takeCounted (m : Nat) (weight : α → Nat) (limit : Nat) : Nat → List α → List α
  | _, [] => []
  | taken, a :: queue =>
    if limit < taken then [] else a :: takeCounted m weight limit ((taken + weight a) % m) queue

theorem takeCounted_of_lt {m : Nat} (h : limit < taken) (queue : List α) :
    takeCounted m weight limit taken queue = [] := by
  cases queue with
  | nil => rfl
  | cons a queue => exact if_pos h

theorem takeCounted_cons {m : Nat} (h : ¬ limit < taken) (a : α) (queue : List α) :
    takeCounted m weight limit taken (a :: queue) =
      a :: takeCounted m weight limit ((taken + weight a) % m) queue :=
  if_neg h

theorem takeCounted_sublist (m taken : Nat) (queue : List α) :
    (takeCounted m weight limit taken queue).Sublist queue := by
  induction queue generalizing taken with
  | nil => exact List.Sublist.refl []
  | cons a queue ih =>
      rw [takeCounted]
      split
      · exact List.nil_sublist _
      · exact (ih _).cons_cons a

/-- While what is taken fits in the register, the register does not matter. -/
theorem takeCounted_eq {m : Nat} (h : taken + ((takeCounted m weight limit taken queue).map weight).sum < m ∨
      taken + ((takeOver weight limit taken queue).map weight).sum < m) :
    takeCounted m weight limit taken queue = takeOver weight limit taken queue := by
  induction queue generalizing taken with
  | nil => rfl
  | cons a queue ih =>
      rw [takeCounted, takeOver] at h ⊢
      split
      · rfl
      next hle =>
        simp only [if_neg hle, List.map_cons, List.sum_cons, ← Nat.add_assoc] at h
        have hmod : (taken + weight a) % m = taken + weight a := Nat.mod_eq_of_lt (by omega)
        rw [hmod] at h ⊢
        rw [ih h]

end Front

end Skunk.Container
