import Skunk.Container.Front
import Skunk.Posix.Later
import Skunk.BesUtils.FailedPut

/-!
# What purge removes

One process calls `purge` while the others only hold the locks that they have. The files in the directory form
a queue, the one whose access is longest ago first, and from those of the queue that nobody has locked `purge`
is meant to take the shortest front that is larger than `purge_size`. The sizes and the access times are those
that `stat` has reported before the first file is removed.

The map in which `purge` orders the files has a key of type `unsigned long`, so that the files that were last
accessed before 1970 come after all others, and what has been removed is counted in 64 bits and taken from the
recorded size without a check. `purge_evicts_iff` says when neither matters.
-/

namespace Skunk.BesUtils

open Effect Posix Container

/-! ## The directory and the locks -/

/-- What is in the directory besides `cache_info`, in the order of the listing. -/
def itemsIn (home : List Text) (K : Kernel) : List (List Text × Nat) :=
  K.entries.filter fun e => IsItem home e.1

def sizeOf (K : Kernel) (e : List Text × Nat) : Nat := (K.data e.2).length

/-- When it was last read, in seconds since 1970. -/
def atimeOf (K : Kernel) (e : List Text × Nat) : Int := (K.atime e.2).toInt

/-- The key that it has in the map of `purge`. -/
def keyOf (K : Kernel) (e : List Text × Nat) : Nat := (K.atime e.2).toUInt64.toNat

/-- Somebody has a lock on the file. -/
def isHeld (K : Kernel) (e : List Text × Nat) : Bool :=
  (List.range K.nextFd).any fun fd =>
    match K.opened fd with
    | none => false
    | some o => o.ino = e.2 && o.lock ≠ none

/-- The call has not failed. A lock that the caller does not wait for may be refused. -/
def succeeded : Issued sysCalls Kernel → Bool
  | ⟨_, .stat _, r, _⟩ => r.isSome
  | ⟨_, .create _, r, _⟩ | ⟨_, .openRead _, r, _⟩ | ⟨_, .openWrite _, r, _⟩ => r.isSome
  | ⟨_, .flock _ _ nonblock, r, _⟩ => nonblock || r
  | ⟨_, .close _, r, _⟩ | ⟨_, .unlock _, r, _⟩ | ⟨_, .futimes _, r, _⟩ | ⟨_, .seek _ _, r, _⟩
  | ⟨_, .remove _, r, _⟩ => r
  | ⟨_, .read _ _, r, _⟩ | ⟨_, .source _, r, _⟩ => r.isSome
  | ⟨_, .write _ bytes, r, _⟩ => r = some bytes.length
  | ⟨_, .fstat _, r, _⟩ => r.isSome
  | ⟨_, .readdir _, r, _⟩ => r.isSome
  | ⟨_, .mkdirP _, _, _⟩ | ⟨_, .subtract _ _, _, _⟩ => true

/-- The object has a descriptor for the `cache_info` of its directory. -/
structure Attached (fc : FileCache) (f : Nat) (o : OpenFile) (K : Kernel) : Prop where
  wf : K.Wf
  noNul : '\x00' ∉ fc.cacheDir
  fd : fc.cacheInfoFd = some f
  opened : K.opened f = some o
  info : (resolve fc.cacheDir ++ [cacheInfoName], o.ino) ∈ K.files

/-- The kernel after these files have been removed. The access times of the others are as before. -/
structure Evicted (K K' : Kernel) (gone : List (List Text × Nat)) : Prop where
  wf : K'.Wf
  files : K'.files = K.files.filter (· ∉ gone)
  folders : K'.folders = K.folders
  data : K'.data = K.data
  atime : ∀ ino, (∀ e ∈ gone, e.2 ≠ ino) → K'.atime ino = K.atime ino
  opened : K'.opened = K.opened
  nextFd : K.nextFd ≤ K'.nextFd

section Directory

variable {K K' K'' : Kernel} {home : List Text} {e : List Text × Nat} {i : Nat}

theorem mem_itemsIn : e ∈ itemsIn home K ↔ e ∈ K.entries ∧ IsItem home e.1 := by
  rw [itemsIn, List.mem_filter, decide_eq_true_eq]

/-- An item is a name in the directory. -/
theorem item_name (hwf : K.Wf) (he : e ∈ itemsIn home K) :
    ∃ n, e.1 = home ++ [n] ∧ IsFileName n ∧ n ≠ cacheInfoName := by
  obtain ⟨hentry, hitem⟩ := mem_itemsIn.mp he
  obtain ⟨n, hloc, hn⟩ := isItem_iff.mp hitem
  refine ⟨n, hloc, hwf.names e hentry n ?_, hn⟩
  rw [hloc]
  exact List.mem_append_right home (List.mem_singleton_self n)

theorem isHeld_iff (hwf : K.Wf) :
    isHeld K e ↔ ∃ fd o, K.opened fd = some o ∧ o.ino = e.2 ∧ o.lock ≠ none := by
  rw [isHeld, List.any_eq_true]
  constructor
  · rintro ⟨fd, -, h⟩
    cases ho : K.opened fd with
    | none =>
        rw [ho] at h
        cases h
    | some o =>
        rw [ho] at h
        simp only [Bool.and_eq_true, decide_eq_true_eq] at h
        exact ⟨fd, o, ho, h⟩
  · rintro ⟨fd, o, ho, h⟩
    refine ⟨fd, List.mem_range.mpr (hwf.fd_lt fd o ho), ?_⟩
    rw [ho]
    simpa using h

/-- A new descriptor gets the exclusive lock if nobody has a lock. -/
theorem grants_addOpen (hwf : K.Wf) (he : e ∈ K.entries) :
    (K.addOpen i e.2).grants K.nextFd e.2 .exclusive = true ↔ isHeld K e = false := by
  rw [← Bool.not_eq_true, isHeld_iff hwf, Kernel.grants_iff (hwf.addOpen i (hwf.entry_lt e he))]
  constructor
  · rintro h ⟨fd, o, ho, hino, hlock⟩
    have hne : fd ≠ K.nextFd := Nat.ne_of_lt (hwf.fd_lt fd o ho)
    rcases h fd o (by rwa [Kernel.addOpen_opened_of_ne hne]) hne hino with hnone | ⟨-, hmode⟩
    · exact hlock hnone
    · cases hmode
  · intro h fd o ho hne hino
    rw [Kernel.addOpen_opened_of_ne hne] at ho
    by_contra hlock
    exact h ⟨fd, o, ho, hino, fun hnone => hlock (.inl hnone)⟩

theorem Evicted.refl (hwf : K.Wf) : Evicted K K [] where
  wf := hwf
  files := by simp
  folders := rfl
  data := rfl
  atime := fun _ _ => rfl
  opened := rfl
  nextFd := Nat.le_refl _

theorem Evicted.trans {gone gone' : List (List Text × Nat)} (h : Evicted K K' gone)
    (h' : Evicted K' K'' gone') : Evicted K K'' (gone ++ gone') where
  wf := h'.wf
  files := by
    rw [h'.files, h.files, List.filter_filter]
    apply List.filter_congr
    intro e _
    rw [← Bool.decide_and, decide_eq_decide, List.mem_append, not_or, and_comm]
  folders := h'.folders.trans h.folders
  data := h'.data.trans h.data
  atime := by
    intro ino hino
    obtain ⟨h₁, h₂⟩ := List.forall_mem_append.mp hino
    rw [h'.atime ino h₂, h.atime ino h₁]
  opened := h'.opened.trans h.opened
  nextFd := h.nextFd.trans h'.nextFd

/-- What is not removed stays an item. -/
theorem Evicted.item {gone : List (List Text × Nat)} (h : Evicted K K' gone) (he : e ∈ itemsIn home K)
    (hkept : e ∉ gone) : e ∈ itemsIn home K' := by
  obtain ⟨hentry, hitem⟩ := mem_itemsIn.mp he
  refine mem_itemsIn.mpr ⟨?_, hitem⟩
  rw [Kernel.entries, h.files, h.folders]
  rcases List.mem_append.mp hentry with hfile | hfolder
  · exact List.mem_append_left _ (List.mem_filter.mpr ⟨hfile, decide_eq_true hkept⟩)
  · exact List.mem_append_right _ hfolder

theorem Evicted.held {gone : List (List Text × Nat)} (h : Evicted K K' gone) (hwf : K.Wf)
    (e : List Text × Nat) : isHeld K' e = isHeld K e := by
  rw [Bool.eq_iff_iff, isHeld_iff h.wf, isHeld_iff hwf, h.opened]

end Directory

/-! ## Looking at the files -/

def pathOf (fc : FileCache) (e : List Text × Nat) : Text := fc.keyFileName (e.1.getLast?.getD [])

def itemInfo (fc : FileCache) (K : Kernel) (e : List Text × Nat) : FileCache.ItemInfo :=
  ⟨pathOf fc e, sizeOf K e, (K.atime e.2).toUInt64⟩

def InReach (fc : FileCache) (K : Kernel) : Prop :=
  K.locate fc.cacheDir = some (resolve fc.cacheDir) ∧ K.isFolder (resolve fc.cacheDir)

section Looking

variable {fc : FileCache} {K K' : Kernel} {i : Nat} {t : Record}

theorem InReach.mono (h : InReach fc K) (hfolders : K'.folders = K.folders) : InReach fc K' := by
  have hmono : ∀ loc, K.isFolder loc → K'.isFolder loc := fun loc hloc =>
    Kernel.isFolder_mono (fun e he => hfolders ▸ he) hloc
  exact ⟨Kernel.locate_mono hmono h.1, hmono _ h.2⟩

theorem locate_pathOf (hnul : '\x00' ∉ fc.cacheDir) (hwf : K.Wf) (hreach : InReach fc K)
    {e : List Text × Nat} (he : e ∈ itemsIn (resolve fc.cacheDir) K) :
    K.locate (pathOf fc e) = some e.1 := by
  obtain ⟨n, hloc, hname, -⟩ := item_name hwf he
  rw [pathOf, hloc, List.getLast?_concat]
  exact locate_name hnul hname hreach.1 hreach.2

/-- The names in the directory that `files_in_cache` returns. -/
theorem listing_items (hwf : K.Wf) (home : List Text) :
    (['.'] :: ['.', '.'] :: K.listing home).filter
        (fun n => n ≠ ['.'] ∧ n ≠ ['.', '.'] ∧ n ≠ cacheInfoName) =
      (itemsIn home K).map fun e => e.1.getLast?.getD [] := by
  rw [List.filter_cons_of_neg (by decide), List.filter_cons_of_neg (by decide), Kernel.listing_eq, itemsIn]
  have hnames := hwf.names
  generalize K.entries = l at hnames ⊢
  induction l with
  | nil => rfl
  | cons e l ih =>
      obtain ⟨hfirst, hrest⟩ := List.forall_mem_cons.mp hnames
      cases hname : Kernel.nameIn home e.1 with
      | none =>
          have hitem : ¬ IsItem home e.1 := by
            intro hitem
            obtain ⟨n, hloc, -⟩ := isItem_iff.mp hitem
            rw [Kernel.nameIn_eq_some.mpr hloc] at hname
            cases hname
          rw [List.map_cons, List.filterMap_cons_none hname, List.filter_cons_of_neg (by simpa using hitem)]
          exact ih hrest
      | some n =>
          have hloc := Kernel.nameIn_eq_some.mp hname
          have hn : IsFileName n := hfirst n (by rw [hloc]; exact List.mem_append_right home List.mem_cons_self)
          -- the two entries that are left out are not names of files
          have hdots : n ≠ ['.'] ∧ n ≠ ['.', '.'] := by
            constructor
            · rintro rfl
              exact absurd hn (by decide)
            · rintro rfl
              exact absurd hn (by decide)
          rw [List.map_cons, List.filterMap_cons_some hname]
          by_cases hinfo : n = cacheInfoName
          · have hitem : ¬ IsItem home e.1 := by
              rw [hloc, hinfo]
              exact fun h => h.2.2 rfl
            rw [List.filter_cons_of_neg (by simp [hinfo]), List.filter_cons_of_neg (by simpa using hitem)]
            exact ih hrest
          · have hitem : IsItem home e.1 := isItem_iff.mpr ⟨n, hloc, hinfo⟩
            rw [List.filter_cons_of_pos (by simp [hdots, hinfo]),
              List.filter_cons_of_pos (by simpa using hitem), List.map_cons, ih hrest, hloc,
              List.getLast?_concat]
            rfl

/-- `files_in_cache` returns the pathnames of the items, or the directory could not be opened. -/
theorem runs_filesInCache (hnul : '\x00' ∉ fc.cacheDir) (hwf : K.Wf) {r : Option (List Text)}
    (h : fc.filesInCache.Runs (Kernel.Works i) K t r K') :
    K' = K ∧ (r = none ∧ (∃ e ∈ t, succeeded e = false) ∨
      InReach fc K ∧ r = some ((itemsIn (resolve fc.cacheDir) K).map (pathOf fc))) := by
  obtain ⟨names, K₁, t', hdoes, rfl, rfl, rfl, rfl⟩ := runs_call_bind.mp h
  obtain ⟨hnames, rfl⟩ := Prod.mk.inj (Option.some.inj (Kernel.works_iff.mp hdoes))
  refine ⟨rfl, ?_⟩
  cases names with
  | none => exact .inl ⟨rfl, _, List.mem_singleton_self _, rfl⟩
  | some names =>
      right
      obtain ⟨loc, hloc, hlist⟩ := Option.bind_eq_some_iff.mp hnames
      have hhome : loc = resolve fc.cacheDir := by rw [Kernel.locate_eq hloc, cStr_of_notMem hnul]
      subst hhome
      split at hlist
      next hfolder =>
        obtain rfl := Option.some.inj hlist
        refine ⟨⟨hloc, hfolder⟩, ?_⟩
        rw [Option.map_some, listing_items hwf, List.map_map]
        rfl
      · cases hlist

theorem insertItem_map (e : List Text × Nat) (queue : List (List Text × Nat)) :
    FileCache.insertItem (itemInfo fc K e) (queue.map (itemInfo fc K)) =
      (insertBehind (keyOf K) e queue).map (itemInfo fc K) := by
  induction queue with
  | nil => rfl
  | cons x queue ih =>
      rw [List.map_cons, FileCache.insertItem]
      by_cases hlt : keyOf K e < keyOf K x
      · rw [insertBehind_cons_of_lt hlt]
        exact if_neg (UInt64.not_le.mpr hlt)
      · rw [insertBehind_cons_of_le (Nat.le_of_not_lt hlt), List.map_cons, ← ih]
        exact if_pos (Nat.le_of_not_lt hlt)

/-- `stat` reports the size and the access time of each file, and the files are put in order. -/
theorem runs_statFiles (hnul : '\x00' ∉ fc.cacheDir) (hwf : K.Wf) (hreach : InReach fc K)
    {l queue : List (List Text × Nat)} (hl : ∀ e ∈ l, e ∈ itemsIn (resolve fc.cacheDir) K)
    {r : Option (List FileCache.ItemInfo)}
    (h : (FileCache.statFiles (l.map (pathOf fc)) (queue.map (itemInfo fc K))).Runs (Kernel.Works i) K t r
      K') :
    K' = K ∧ r = some ((l.foldl (fun queue e => insertBehind (keyOf K) e queue) queue).map
      (itemInfo fc K)) := by
  induction l generalizing queue t with
  | nil =>
      obtain ⟨rfl, rfl, rfl⟩ := h
      exact ⟨rfl, rfl⟩
  | cons e l ih =>
      obtain ⟨he, hl⟩ := List.forall_mem_cons.mp hl
      obtain ⟨sb, K₁, t', hdoes, rfl, hrest⟩ := runs_call_bind.mp h
      obtain ⟨hsb, rfl⟩ := Prod.mk.inj (Option.some.inj (Kernel.works_iff.mp hdoes))
      have hino : K.inode (pathOf fc e) = some e.2 := by
        rw [Kernel.inode, locate_pathOf hnul hwf hreach he]
        exact hwf.lookup_entries.mpr (mem_itemsIn.mp he).1
      rw [hino] at hsb
      subst hsb
      refine ih (t := t') hl ?_
      rw [← insertItem_map]
      exact hrest

/-- The items are looked at in the order of their access times, and nothing changes. -/
theorem runs_statFiles_nil (hnul : '\x00' ∉ fc.cacheDir) (hwf : K.Wf) (hreach : InReach fc K)
    {r : Option (List FileCache.ItemInfo)}
    (h : (FileCache.statFiles ((itemsIn (resolve fc.cacheDir) K).map (pathOf fc)) []).Runs (Kernel.Works i) K t
      r K') :
    K' = K ∧ ∃ queue, Ordered (keyOf K) (itemsIn (resolve fc.cacheDir) K) queue ∧
      r = some (queue.map (itemInfo fc K)) := by
  have hitems : ∀ e ∈ itemsIn (resolve fc.cacheDir) K, e ∈ itemsIn (resolve fc.cacheDir) K := fun _ he => he
  have hnone : (FileCache.statFiles ((itemsIn (resolve fc.cacheDir) K).map (pathOf fc))
      (List.map (itemInfo fc K) [])).Runs (Kernel.Works i) K t r K' := h
  obtain ⟨hsame, hr⟩ := runs_statFiles hnul hwf hreach hitems hnone
  exact ⟨hsame, _, Ordered.nil.foldl (itemsIn (resolve fc.cacheDir) K), hr⟩

end Looking

/-! ## Removing files -/

/-- A lock that the caller does not wait for. -/
theorem exec_flock_nonblock {K : Kernel} {fd i : Nat} {x : OpenFile} (h : K.opened fd = some x)
    (mode : FlockMode) : Kernel.exec i (.flock fd mode true) K =
      if K.grants fd x.ino mode then some (true, K.setOpen fd (some { x with lock := some mode }))
      else some (false, K) := by
  rw [Kernel.exec, h]
  rfl

/-- Whatever a program does, it leads to a later state. -/
theorem later_of_runs {α : Type} {may : SysCall → Bool} {p : Sys α} {i : Nat} {K K' : Kernel} {t : Record} {a : α}
    (h : p.Runs (Kernel.Does may i) K t a K') (hwf : K.Wf) : K'.Wf ∧ K.Later K' :=
  h.preserves (.of_forall (P := fun _ => True) (fun _ => trivial) p) (Q := fun K₁ => K₁.Wf ∧ K.Later K₁)
    (fun _ _ _ _ _ hdoes h => ⟨h.1.does hdoes, h.2.trans (Kernel.later_of_does hdoes)⟩) ⟨hwf, .refl K⟩

theorem wf_of_runs {α : Type} {may : SysCall → Bool} {p : Sys α} {i : Nat} {K K' : Kernel} {t : Record} {a : α}
    (h : p.Runs (Kernel.Does may i) K t a K') (hwf : K.Wf) : K'.Wf := (later_of_runs h hwf).1

/-- A descriptor that was opened and closed again leaves no trace. -/
theorem opened_closed {K : Kernel} (hwf : K.Wf) (o : Option OpenFile) :
    Function.update (Function.update K.opened K.nextFd o) K.nextFd none = K.opened := by
  have hnone : K.opened K.nextFd = none := by
    rw [Option.eq_none_iff_forall_ne_some]
    intro o ho
    exact Nat.lt_irrefl _ (hwf.fd_lt _ o ho)
  rw [Function.update_idem, ← hnone, Function.update_eq_self]

section Removing

variable {fc : FileCache} {K K' : Kernel} {i : Nat} {t : Record} {e : List Text × Nat}

/-- To remove a file by its name is to remove it from the list. -/
theorem filter_location (hwf : K.Wf) (he : e ∈ K.files) :
    (K.files.filter fun e' => e'.1 ≠ e.1) = K.files.filter (· ∉ [e]) := by
  apply List.filter_congr
  intro e' he'
  rw [decide_eq_decide, List.mem_singleton, not_iff_not]
  exact ⟨fun hloc => List.inj_on_of_nodup_map hwf.files_locations he' he hloc, congrArg Prod.fst⟩

/-- A file that is still there can be removed. -/
theorem exec_remove_item (hnul : '\x00' ∉ fc.cacheDir) (hwf : K.Wf) (hreach : InReach fc K)
    (he : e ∈ itemsIn (resolve fc.cacheDir) K) (hfile : e ∈ K.files) {K₁ : Kernel}
    (hfiles : K₁.files = K.files) (hfolders : K₁.folders = K.folders) :
    Kernel.exec i (.remove (pathOf fc e)) K₁ = some (true, K₁.dropFile e.1) := by
  have hlocate : K₁.locate (pathOf fc e) = some e.1 :=
    Kernel.locate_mono (fun _ hloc => Kernel.isFolder_mono (fun _ he => hfolders ▸ he) hloc)
      (locate_pathOf hnul hwf hreach he)
  have hlookup : (K₁.files.lookup e.1).isSome = true := by
    rw [hfiles, hwf.lookup_files.mpr hfile]
    rfl
  rw [Kernel.exec, hlocate]
  exact if_pos hlookup

/-- What becomes of an item that has been opened: it is removed, unless somebody has a lock on it. -/
theorem runs_tryItem (hnul : '\x00' ∉ fc.cacheDir) (hwf : K.Wf) (hreach : InReach fc K)
    (he : e ∈ itemsIn (resolve fc.cacheDir) K) (hfile : e ∈ K.files) {removed size r : Nat}
    (h : (withItem K.nextFd do
      let locked ← lockTheItem K.nextFd .exclusive true
      if locked then
        let gone ← call (.remove (pathOf fc e))
        pure (if gone then (removed + size) % 2 ^ 64 else removed)
      else pure removed).Runs (Kernel.Works i) (K.addOpen i e.2) t r K') :
    isHeld K e = true ∧ r = removed ∧ Evicted K K' [] ∨
      isHeld K e = false ∧ r = (removed + size) % 2 ^ 64 ∧ Evicted K K' [e] := by
  have hwfOpen : (K.addOpen i e.2).Wf := hwf.addOpen i (hwf.entry_lt e (mem_itemsIn.mp he).1)
  have hwf' := wf_of_runs h hwfOpen
  obtain ⟨t', K₁, closed, rfl, hbody, hclose⟩ := runs_withItem h
  obtain ⟨-, rfl⟩ := Prod.mk.inj (Option.some.inj (Kernel.works_iff.mp hclose))
  obtain ⟨t₁, t₂, locked, K₂, rfl, hlock, hrest⟩ := Prog.runs_bind.mp hbody
  obtain ⟨granted, K₃, t₃, hflock, rfl, hgranted⟩ := runs_call_bind.mp hlock
  have hexec := Kernel.works_iff.mp hflock
  rw [exec_flock_nonblock Kernel.addOpen_opened_self] at hexec
  by_cases hheld : isHeld K e = true
  · -- the lock is refused
    have hgrants : (K.addOpen i e.2).grants K.nextFd e.2 .exclusive = false := by
      rw [← Bool.not_eq_true, grants_addOpen hwf (mem_itemsIn.mp he).1, hheld]
      exact Bool.true_eq_false_eq_False
    dsimp only at hexec
    rw [hgrants, if_neg Bool.false_ne_true] at hexec
    obtain ⟨rfl, rfl⟩ := Prod.mk.inj (Option.some.inj hexec)
    obtain ⟨-, rfl, rfl⟩ := hgranted
    obtain ⟨-, rfl, rfl⟩ := hrest
    refine .inl ⟨hheld, rfl, ⟨hwf', ?_, rfl, rfl, fun _ _ => rfl, opened_closed hwf _, Nat.le_succ _⟩⟩
    exact (Evicted.refl hwf).files
  · have hfree := Bool.eq_false_of_not_eq_true hheld
    have hgrants := (grants_addOpen (i := i) hwf (mem_itemsIn.mp he).1).mpr hfree
    dsimp only at hexec
    rw [hgrants, if_pos rfl] at hexec
    obtain ⟨rfl, rfl⟩ := Prod.mk.inj (Option.some.inj hexec)
    obtain ⟨touched, K₄, t₄, htouch, -, -, rfl, rfl⟩ := runs_call_bind.mp hgranted
    have htouch := Kernel.works_iff.mp htouch
    rw [Kernel.exec, Kernel.setOpen_opened_self] at htouch
    obtain ⟨-, rfl⟩ := Prod.mk.inj (Option.some.inj htouch)
    obtain ⟨gone, K₅, t₅, hremove, -, -, rfl, rfl⟩ := runs_call_bind.mp hrest
    have hremove := Kernel.works_iff.mp hremove
    have hgone := hremove.symm.trans (exec_remove_item hnul hwf hreach he hfile rfl rfl)
    obtain ⟨rfl, rfl⟩ := Prod.mk.inj (Option.some.inj hgone)
    have hfiles := filter_location hwf hfile
    refine .inr ⟨hfree, rfl, ⟨hwf', hfiles, rfl, rfl, ?_, ?_, Nat.le_succ _⟩⟩
    · intro ino hino
      exact Function.update_of_ne (hino e (List.mem_singleton_self e)).symm _ _
    · show Function.update (Function.update (Function.update K.opened K.nextFd _) K.nextFd _) K.nextFd none = _
      rw [Function.update_idem]
      exact opened_closed hwf _

theorem sum_sizes_cons (e : List Text × Nat) (queue : List (List Text × Nat)) :
    ((e :: queue).map (sizeOf K)).sum = sizeOf K e + (queue.map (sizeOf K)).sum := by
  rw [List.map_cons, List.sum_cons]

/-- The loop of `purge` has removed files from the front of those that nobody has locked. It has come to its end,
unless something in the directory cannot be opened as a file. -/
def LoopEnds (purgeSize removed : Nat) (queue : List (List Text × Nat)) (K K' : Kernel) (t : Record)
    (r : Option Nat) : Prop :=
  ∃ gone, Evicted K K' gone ∧ (∀ e ∈ gone, e ∈ queue ∧ e ∈ K.files) ∧
    (r = none ∧ (∃ e ∈ t, succeeded e = false) ∨
      gone = takeCounted (2 ^ 64) (sizeOf K) purgeSize removed (queue.filter fun e => !isHeld K e) ∧
        r = some ((removed + (gone.map (sizeOf K)).sum) % 2 ^ 64))

theorem Evicted.sizes {gone : List (List Text × Nat)} (h : Evicted K K' gone) : sizeOf K' = sizeOf K := by
  funext e
  rw [sizeOf, h.data]
  rfl

theorem Evicted.mem_of_mem {gone : List (List Text × Nat)} (h : Evicted K K' gone) (he : e ∈ K'.files) :
    e ∈ K.files :=
  List.mem_of_mem_filter (h.files ▸ he)

/-- An item that somebody has locked is passed over. -/
theorem LoopEnds.skip {K₁ : Kernel} {purgeSize removed : Nat} {queue : List (List Text × Nat)} {r : Option Nat}
    (hwf : K.Wf) (hfirst : Evicted K K₁ []) (hheld : isHeld K e = true)
    (h : LoopEnds purgeSize removed queue K₁ K' t r) (front : Record) :
    LoopEnds purgeSize removed (e :: queue) K K' (front ++ t) r := by
  obtain ⟨gone, hev, hgone, hends⟩ := h
  refine ⟨gone, hfirst.trans hev, ?_, ?_⟩
  · intro x hx
    obtain ⟨hmem, hx⟩ := hgone x hx
    exact ⟨List.mem_cons_of_mem e hmem, hfirst.mem_of_mem hx⟩
  · rw [List.filter_cons_of_neg (by rw [hheld]; decide)]
    simp only [hfirst.sizes, hfirst.held hwf] at hends
    refine hends.imp_left ?_
    rintro ⟨hnone, x, hx, hfailed⟩
    exact ⟨hnone, x, List.mem_append_right front hx, hfailed⟩

/-- The first item is removed. -/
theorem LoopEnds.take {K₁ : Kernel} {purgeSize removed : Nat} {queue : List (List Text × Nat)} {r : Option Nat}
    (hwf : K.Wf) (hfirst : Evicted K K₁ [e]) (hfile : e ∈ K.files) (hfree : isHeld K e = false)
    (hle : ¬ purgeSize < removed) (h : LoopEnds purgeSize ((removed + sizeOf K e) % 2 ^ 64) queue K₁ K' t r)
    (front : Record) : LoopEnds purgeSize removed (e :: queue) K K' (front ++ t) r := by
  obtain ⟨gone, hev, hgone, hends⟩ := h
  refine ⟨e :: gone, hfirst.trans hev, ?_, ?_⟩
  · refine List.forall_mem_cons.mpr ⟨⟨List.mem_cons_self, hfile⟩, fun x hx => ?_⟩
    obtain ⟨hmem, hx⟩ := hgone x hx
    exact ⟨List.mem_cons_of_mem e hmem, hfirst.mem_of_mem hx⟩
  · rcases hends with ⟨hnone, x, hx, hfailed⟩ | ⟨htake, hr⟩
    · exact .inl ⟨hnone, x, List.mem_append_right front hx, hfailed⟩
    · right
      simp only [hfirst.sizes, hfirst.held hwf] at htake hr
      rw [List.filter_cons_of_pos (by rw [hfree]; rfl), takeCounted_cons hle, ← htake, hr, sum_sizes_cons,
        Nat.mod_add_mod, Nat.add_assoc]
      exact ⟨rfl, rfl⟩

/-- One round of the loop of `purge`. Where the item cannot be opened as a file, it is the last one. -/
theorem runs_removeItems_cons {purgeSize : Nat} (hnul : '\x00' ∉ fc.cacheDir) (hwf : K.Wf) (hreach : InReach fc K)
    (he : e ∈ itemsIn (resolve fc.cacheDir) K) {item : FileCache.ItemInfo} (hname : item.name = pathOf fc e)
    {rest : List FileCache.ItemInfo} {removed : Nat} (hle : ¬ purgeSize < removed) {r : Option Nat}
    (h : (FileCache.removeItems purgeSize (item :: rest) removed).Runs (Kernel.Works i) K t r K') :
    r = none ∧ K' = K ∧ (∃ x ∈ t, succeeded x = false) ∨
      ∃ t₁ t₂ removed' K₁, t = t₁ ++ t₂ ∧
        (isHeld K e = true ∧ removed' = removed ∧ Evicted K K₁ [] ∨
          isHeld K e = false ∧ removed' = (removed + item.size) % 2 ^ 64 ∧ Evicted K K₁ [e] ∧ e ∈ K.files) ∧
        (FileCache.removeItems purgeSize rest removed').Runs (Kernel.Works i) K₁ t₂ r K' := by
  rw [FileCache.removeItems, if_neg hle] at h
  obtain ⟨opened, K₁, t₁, hopen, rfl, hnext⟩ := runs_call_bind.mp h
  rw [hname] at hopen hnext
  rcases Kernel.exec_openWrite (Kernel.works_iff.mp hopen) with ⟨-, rfl, rfl⟩ | ⟨ino, hino, rfl, rfl⟩
  · -- what cannot be opened
    obtain ⟨rfl, rfl, rfl⟩ := hnext
    exact .inl ⟨rfl, rfl, _, List.mem_singleton_self _, rfl⟩
  have hlookup : K.files.lookup e.1 = some ino := by
    rw [Kernel.fileInode, locate_pathOf hnul hwf hreach he] at hino
    exact hino
  have hentry := hwf.lookup_files.mp hlookup
  have hnumber : ino = e.2 := by
    have hlookup' := hwf.lookup_entries.mpr (mem_itemsIn.mp he).1
    rw [hwf.lookup_entries.mpr (Kernel.mem_entries_of_file hentry)] at hlookup'
    exact Option.some.inj hlookup'
  subst hnumber
  obtain ⟨t₂, t₃, removed', K₂, rfl, htry, hloop⟩ := Prog.runs_bind.mp hnext
  refine .inr ⟨_, t₃, removed', K₂, List.cons_append.symm, ?_, hloop⟩
  rcases runs_tryItem hnul hwf hreach he hentry htry with hheld | ⟨hfree, hremoved, hev⟩
  · exact .inl hheld
  · exact .inr ⟨hfree, hremoved, hev, hentry⟩

/-- What is still to come is still there after a round. -/
theorem Evicted.rest {queue gone : List (List Text × Nat)} {home : List Text} (h : Evicted K K' gone)
    (hfresh : e ∉ queue) (hgone : ∀ x ∈ gone, x = e) (hqueue : ∀ x ∈ queue, x ∈ itemsIn home K) :
    ∀ x ∈ queue, x ∈ itemsIn home K' := by
  intro x hx
  refine h.item (hqueue x hx) fun hmem => hfresh ?_
  rwa [← hgone x hmem]

/-- What becomes of the items, one after the other. -/
theorem runs_removeItems {purgeSize : Nat} (hnul : '\x00' ∉ fc.cacheDir) {queue : List (List Text × Nat)}
    {items : List FileCache.ItemInfo} {removed : Nat} {r : Option Nat} (hwf : K.Wf) (hreach : InReach fc K)
    (hitems : List.Forall₂ (fun item e => item.name = pathOf fc e ∧ item.size = sizeOf K e) items queue)
    (hqueue : ∀ e ∈ queue, e ∈ itemsIn (resolve fc.cacheDir) K) (hnodup : queue.Nodup)
    (hremoved : removed < 2 ^ 64)
    (h : (FileCache.removeItems purgeSize items removed).Runs (Kernel.Works i) K t r K') :
    LoopEnds purgeSize removed queue K K' t r := by
  induction queue generalizing K items removed t with
  | nil =>
      cases hitems
      obtain ⟨rfl, rfl, rfl⟩ := h
      exact ⟨[], .refl hwf, List.forall_mem_nil _, .inr ⟨rfl, congrArg some (Nat.mod_eq_of_lt hremoved).symm⟩⟩
  | cons e queue ih =>
      obtain ⟨item, rest, ⟨hname, hsize⟩, hrest, rfl⟩ := List.forall₂_cons_right_iff.mp hitems
      obtain ⟨he, hqueue⟩ := List.forall_mem_cons.mp hqueue
      obtain ⟨hfresh, hnodup⟩ := List.nodup_cons.mp hnodup
      by_cases hlt : purgeSize < removed
      · rw [FileCache.removeItems, if_pos hlt] at h
        obtain ⟨rfl, rfl, rfl⟩ := h
        exact ⟨[], .refl hwf, List.forall_mem_nil _,
          .inr ⟨(takeCounted_of_lt hlt _).symm, congrArg some (Nat.mod_eq_of_lt hremoved).symm⟩⟩
      rcases runs_removeItems_cons hnul hwf hreach he hname hlt h with
        ⟨rfl, rfl, hfailed⟩ | ⟨t₁, t₂, removed', K₁, rfl, hround, hloop⟩
      · exact ⟨[], .refl hwf, List.forall_mem_nil _, .inl ⟨rfl, hfailed⟩⟩
      -- the rest of the loop, from what is left
      have hgo : ∀ gone₁, Evicted K K₁ gone₁ → (∀ x ∈ gone₁, x = e) → removed' < 2 ^ 64 →
          LoopEnds purgeSize removed' queue K₁ K' t₂ r := by
        intro gone₁ hev hgone₁ hremoved'
        exact ih hev.wf (hreach.mono hev.folders) (hev.sizes ▸ hrest) (hev.rest hfresh hgone₁ hqueue) hnodup
          hremoved' hloop
      rcases hround with ⟨hheld, rfl, hev⟩ | ⟨hfree, rfl, hev, hfile⟩
      · exact (hgo [] hev (List.forall_mem_nil _) hremoved).skip hwf hev hheld _
      · have hends := hgo [e] hev (fun x hx => List.mem_singleton.mp hx) (Nat.mod_lt _ (Nat.two_pow_pos 64))
        rw [hsize] at hends
        exact hends.take hwf hev hfile hfree hlt _

end Removing

/-! ## The recorded size -/

section Recorded

variable {K K' : Kernel} {i f : Nat} {o : OpenFile} {t : Record}

theorem setOpen_setOpen (K : Kernel) (f : Nat) (a b : Option OpenFile) :
    (K.setOpen f a).setOpen f b = K.setOpen f b := by
  rw [Kernel.setOpen, Kernel.setOpen, Kernel.setOpen, Function.update_idem]

/-- To unlock a file changes its description, if there is one. -/
theorem works_unlock {r : Bool} (h : Kernel.Works i (.unlock f) K r K') : ∃ x, K' = K.setOpen f x := by
  have hexec := Kernel.works_iff.mp h
  cases ho : K.opened f with
  | none =>
      rw [Kernel.exec, ho] at hexec
      obtain ⟨-, rfl⟩ := Prod.mk.inj (Option.some.inj hexec)
      refine ⟨none, ?_⟩
      rw [Kernel.setOpen, ← ho, Function.update_eq_self]
  | some o =>
      rw [Kernel.exec_unlock ho] at hexec
      obtain ⟨-, rfl⟩ := Prod.mk.inj (Option.some.inj hexec)
      exact ⟨_, rfl⟩

/-- `get_cache_info_size` reads what is in the file. -/
theorem runs_recorded (ho : K.opened f = some o) {r : Nat}
    (h : (getCacheInfoSize f).Runs (Kernel.Works i) K t r K') :
    r = sizeIn (K.data o.ino) ∧ ∃ pos, K' = K.setOpen f (some { o with offset := pos }) := by
  obtain ⟨sought, K₁, t₁, hseek, rfl, hrest⟩ := runs_call_bind.mp h
  have hexec := (Kernel.exec_seek ho 0).symm.trans (Kernel.works_iff.mp hseek)
  obtain ⟨rfl, rfl⟩ := Prod.mk.inj (Option.some.inj hexec)
  obtain ⟨bytes, K₂, t₂, hread, rfl, hret⟩ := runs_call_bind.mp hrest
  have hexec := (Kernel.exec_read Kernel.setOpen_opened_self 8).symm.trans (Kernel.works_iff.mp hread)
  obtain ⟨rfl, rfl⟩ := Prod.mk.inj (Option.some.inj hexec)
  obtain ⟨-, rfl, rfl⟩ := hret
  exact ⟨sizeIn_take (K.data o.ino), _, setOpen_setOpen K f _ _⟩

/-- `update_cache_info_size` writes the size over the one that is there, or it fails. -/
theorem runs_update (ho : K.opened f = some o) {size : Nat} {r : Bool}
    (h : (updateCacheInfoSize f size).Runs (Kernel.Works i) K t r K') :
    r = true ∧ (∃ x, K' = (K.setData o.ino (overwrite (K.data o.ino) 0 (encodeSize size))).setOpen f x) ∨
      r = false ∧ Unchanged K K' ∧ ∃ e ∈ t, succeeded e = false := by
  obtain ⟨sought, K₁, t₁, hseek, rfl, hrest⟩ := runs_call_bind.mp h
  have hexec := (Kernel.exec_seek ho 0).symm.trans (Kernel.works_iff.mp hseek)
  obtain ⟨rfl, rfl⟩ := Prod.mk.inj (Option.some.inj hexec)
  obtain ⟨written, K₂, t₂, hwrite, rfl, rfl, rfl, rfl⟩ := runs_call_bind.mp hrest
  rcases Kernel.exec_write Kernel.setOpen_opened_self (Kernel.works_iff.mp hwrite) with
    ⟨rfl, -, rfl⟩ | ⟨rfl, rfl⟩
  · left
    refine ⟨by simp, _, setOpen_setOpen (K.setData o.ino _) f _ _⟩
  · refine .inr ⟨rfl, Kernel.unchanged_setOpen f _, _, List.mem_cons_of_mem _ (List.mem_singleton_self _), rfl⟩

end Recorded

/-! ## `purge` -/

/-- What `purge` leaves when it has removed these files: all others are as they were. -/
structure Purged (home : List Text) (K K' : Kernel) (gone : List (List Text × Nat)) : Prop where
  present : ∀ e ∈ gone, e ∈ K.files
  files : K'.files = K.files.filter (· ∉ gone)
  folders : K'.folders = K.folders
  data : ∀ e ∈ K'.files, e.1 ≠ home ++ [cacheInfoName] → K'.data e.2 = K.data e.2
  atime : ∀ e ∈ K'.files, K'.atime e.2 = K.atime e.2

section Purge

variable {fc : FileCache} {K K' : Kernel} {i f : Nat} {o : OpenFile} {t : Record}

/-- The lock of the cache is no lock on an item. -/
theorem held_setOpen {x : OpenFile} {e : List Text × Nat} (hwf : K.Wf) (hwf' : (K.setOpen f (some x)).Wf)
    (ho : K.opened f = some o) (hx : x.ino = o.ino) (hne : e.2 ≠ o.ino) :
    isHeld (K.setOpen f (some x)) e = isHeld K e := by
  rw [Bool.eq_iff_iff, isHeld_iff hwf', isHeld_iff hwf]
  refine exists_congr fun fd => ?_
  by_cases hfd : fd = f
  · subst hfd
    rw [Kernel.setOpen_opened_self, ho]
    refine iff_of_false ?_ ?_
    · rintro ⟨y, hy, hino, -⟩
      obtain rfl := Option.some.inj hy
      exact hne (hino.symm.trans hx)
    · rintro ⟨y, hy, hino, -⟩
      obtain rfl := Option.some.inj hy
      exact hne hino.symm
  · rw [Kernel.setOpen_opened_of_ne hfd]

theorem Attached.ino_ne (h : Attached fc f o K) {e : List Text × Nat} (he : e ∈ itemsIn (resolve fc.cacheDir) K) :
    e.2 ≠ o.ino := by
  obtain ⟨hentry, hitem⟩ := mem_itemsIn.mp he
  intro hino
  have heq := h.wf.eq_of_ino hentry (Kernel.mem_entries_of_file h.info) hino
  exact hitem.2.2 (congrArg Prod.fst heq)

theorem Attached.recorded (h : Attached fc f o K) :
    recordedSize (resolve fc.cacheDir) K = sizeIn (K.data o.ino) :=
  recordedSize_eq (h.wf.lookup_files.mpr h.info)

/-- The object keeps its descriptor when that is locked or moved. -/
theorem Attached.setOpen (h : Attached fc f o K) {x : OpenFile} (hx : x.ino = o.ino)
    (hwf : (K.setOpen f (some x)).Wf) : Attached fc f x (K.setOpen f (some x)) where
  wf := hwf
  noNul := h.noNul
  fd := h.fd
  opened := Kernel.setOpen_opened_self
  info := hx ▸ h.info

/-- These files are to be removed from a cache: of the items that nobody has locked the shortest front that is
larger than `purge_size`, with the items in the order of their last access. -/
def Evicts (fc : FileCache) (K K' : Kernel) (gone : List (List Text × Nat)) : Prop :=
  ∃ queue, Ordered (atimeOf K) (itemsIn (resolve fc.cacheDir) K) queue ∧
    Takes (sizeOf K) fc.purgeSize (queue.filter fun e => !isHeld K e) gone ∧
      Purged (resolve fc.cacheDir) K K' gone

/-- These files have been removed: the front that the loop of `purge` takes, with the items in the order of their
keys. -/
def Removes (fc : FileCache) (K K' : Kernel) (gone : List (List Text × Nat)) : Prop :=
  ∃ queue, Ordered (keyOf K) (itemsIn (resolve fc.cacheDir) K) queue ∧
    gone = takeCounted (2 ^ 64) (sizeOf K) fc.purgeSize 0 (queue.filter fun e => !isHeld K e) ∧
      Purged (resolve fc.cacheDir) K K' gone

/-- The lock and the offset of the descriptor for `cache_info` do not matter. -/
theorem Removes.of_setOpen (h : Attached fc f o K) {x : OpenFile} (hwf : (K.setOpen f (some x)).Wf)
    (hx : x.ino = o.ino) {gone : List (List Text × Nat)}
    (hremoves : Removes fc (K.setOpen f (some x)) K' gone) : Removes fc K K' gone := by
  obtain ⟨queue, hordered, htake, hpurged⟩ := hremoves
  refine ⟨queue, hordered, ?_, ⟨hpurged.present, hpurged.files, hpurged.folders, hpurged.data, hpurged.atime⟩⟩
  have hheld : queue.filter (fun e => !isHeld (K.setOpen f (some x)) e) =
      queue.filter fun e => !isHeld K e := by
    apply List.filter_congr
    intro e he
    rw [held_setOpen h.wf hwf h.opened hx (h.ino_ne (hordered.1.mem_iff.mp he))]
  rw [htake, hheld]
  rfl

/-- What `purge` does with the lock of the cache. -/
def purgeLocked (fc : FileCache) (info : Nat) : Sys Bool := do
  let recorded ← getCacheInfoSize info
  if recorded < fc.maxCacheSizeInBytes then pure true
  else
    let files ← fc.filesInCache
    match files with
    | none => pure false
    | some files =>
      let items ← FileCache.statFiles files []
      match items with
      | none => pure false
      | some items =>
        let removed ← FileCache.removeItems fc.purgeSize items 0
        match removed with
        | none => pure false
        | some removed =>
          let left ← call (.subtract recorded removed)
          updateCacheInfoSize info left

/-- What `purge` does after its loop, with the bytes that have been removed. -/
def purgeRest (info recorded : Nat) : Option Nat → Sys Bool
  | none => pure false
  | some removed => do
    let left ← call (.subtract recorded removed)
    updateCacheInfoSize info left

theorem purge_eq (fc : FileCache) : fc.purge = withCacheLock fc.cacheInfoFd false (purgeLocked fc) := rfl

/-- The loop of `purge` takes a front of what nobody has locked. -/
theorem runs_purgeItems (h : Attached fc f o K) (hreach : InReach fc K) {queue : List (List Text × Nat)}
    (hordered : Ordered (keyOf K) (itemsIn (resolve fc.cacheDir) K) queue) {removed : Option Nat}
    (hrun : (FileCache.removeItems fc.purgeSize (queue.map (itemInfo fc K)) 0).Runs (Kernel.Works i) K t removed
      K') :
    ∃ gone, Evicted K K' gone ∧ (∀ e ∈ gone, e ∈ itemsIn (resolve fc.cacheDir) K ∧ e ∈ K.files) ∧
      (removed = none ∧ (∃ e ∈ t, succeeded e = false) ∨
        gone = takeCounted (2 ^ 64) (sizeOf K) fc.purgeSize 0 (queue.filter fun e => !isHeld K e) ∧
          removed = some ((gone.map (sizeOf K)).sum % 2 ^ 64)) := by
  have hperm := hordered.1
  have hnodup : queue.Nodup := hperm.nodup_iff.mpr (h.wf.locations.of_map.filter _)
  have hinfos : List.Forall₂ (fun item e => item.name = pathOf fc e ∧ item.size = sizeOf K e)
      (queue.map (itemInfo fc K)) queue := by
    rw [List.forall₂_map_left_iff, List.forall₂_same]
    exact fun e _ => ⟨rfl, rfl⟩
  obtain ⟨gone, hev, hgone, hends⟩ := runs_removeItems h.noNul h.wf hreach hinfos
    (fun e he => hperm.mem_iff.mp he) hnodup (Nat.two_pow_pos 64) hrun
  rw [Nat.zero_add] at hends
  exact ⟨gone, hev, fun e he => ⟨hperm.mem_iff.mp (hgone e he).1, (hgone e he).2⟩, hends⟩

theorem info_not_gone {home : List Text} {gone : List (List Text × Nat)}
    (hgone : ∀ e ∈ gone, e ∈ itemsIn home K) (ino : Nat) : (home ++ [cacheInfoName], ino) ∉ gone :=
  fun hmem => (mem_itemsIn.mp (hgone _ hmem)).2.2.2 rfl

/-- Where the loops are over, the rest of the recorded size is written. -/
theorem runs_purgeRest (h : Attached fc f o K) {K₁ : Kernel} {gone : List (List Text × Nat)}
    (hev : Evicted K K₁ gone) (hgone : ∀ e ∈ gone, e ∈ itemsIn (resolve fc.cacheDir) K ∧ e ∈ K.files)
    {removed : Nat} {b : Bool}
    (hrun : (do
      let left ← call (.subtract (recordedSize (resolve fc.cacheDir) K) removed)
      updateCacheInfoSize f left : Sys Bool).Runs (Kernel.Works i) K₁ t b K')
    (hok : ∀ e ∈ t, succeeded e = true) :
    b = true ∧ Purged (resolve fc.cacheDir) K K' gone ∧
      recordedSize (resolve fc.cacheDir) K' =
        (recordedSize (resolve fc.cacheDir) K + 2 ^ 64 - removed % 2 ^ 64) % 2 ^ 64 := by
  have hwf' := wf_of_runs hrun hev.wf
  obtain ⟨left, K₂, t₁, hsubtract, rfl, hupdate⟩ := runs_call_bind.mp hrun
  obtain ⟨rfl, rfl⟩ := Prod.mk.inj (Option.some.inj (Kernel.works_iff.mp hsubtract))
  have ho : K₁.opened f = some o := by rw [hev.opened, h.opened]
  rcases runs_update ho hupdate with ⟨rfl, x, rfl⟩ | ⟨-, -, e, he, hfailed⟩
  swap
  · rw [hok e (List.mem_cons_of_mem _ he)] at hfailed
    cases hfailed
  -- `cache_info` is not among the items that are gone
  have hinfo : (resolve fc.cacheDir ++ [cacheInfoName], o.ino) ∈ K₁.files := by
    rw [hev.files]
    exact List.mem_filter.mpr ⟨h.info, decide_eq_true (info_not_gone (fun e he => (hgone e he).1) o.ino)⟩
  refine ⟨rfl, ⟨fun e he => (hgone e he).2, hev.files, hev.folders, ?_, ?_⟩, ?_⟩
  · intro e he hloc
    have hino : e.2 ≠ o.ino := by
      intro hino
      have heq := hev.wf.eq_of_ino (Kernel.mem_entries_of_file he) (Kernel.mem_entries_of_file hinfo) hino
      exact hloc (congrArg Prod.fst heq)
    -- only `cache_info` is written to
    rw [← hev.data]
    exact Function.update_of_ne hino _ _
  · intro e he
    refine hev.atime e.2 fun e' he' hino => ?_
    have he : e ∈ K₁.files := he
    rw [hev.files, List.mem_filter, decide_eq_true_eq] at he
    have heq := h.wf.eq_of_ino (mem_itemsIn.mp (hgone e' he').1).1 (Kernel.mem_entries_of_file he.1) hino
    exact he.2 (heq ▸ he')
  · have hsize : ∀ K₂ : Kernel, K₂.files = K₁.files →
        recordedSize (resolve fc.cacheDir) K₂ = sizeIn (K₂.data o.ino) := by
      intro K₂ hfiles
      refine recordedSize_eq ?_
      rw [hfiles]
      exact hev.wf.lookup_files.mpr hinfo
    rw [hsize]
    swap
    · rfl
    show sizeIn (Function.update K₁.data o.ino _ o.ino) = _
    rw [Function.update_self]
    exact sizeIn_overwrite _ (Nat.mod_lt _ (Nat.two_pow_pos 64))

/-- The descriptor for `cache_info` is moved. Where the recorded size is below the maximum nothing else is done;
else the files are looked at, the loop removes some, and the rest is recorded. -/
theorem runs_purgeLocked_cases (hnul : '\x00' ∉ fc.cacheDir) (hwf : K.Wf) (ho : K.opened f = some o) {b : Bool}
    (hrun : (purgeLocked fc f).Runs (Kernel.Works i) K t b K') (hok : ∀ e ∈ t, succeeded e = true) :
    ∃ K₀, (∃ pos, K₀ = K.setOpen f (some { o with offset := pos })) ∧ K₀.Wf ∧
      (sizeIn (K.data o.ino) < fc.maxCacheSizeInBytes ∧ b = true ∧ K' = K₀ ∨
        fc.maxCacheSizeInBytes ≤ sizeIn (K.data o.ino) ∧ InReach fc K₀ ∧ ∃ queue t₁ t₂ removed K₁,
          Ordered (keyOf K₀) (itemsIn (resolve fc.cacheDir) K₀) queue ∧
          (FileCache.removeItems fc.purgeSize (queue.map (itemInfo fc K₀)) 0).Runs (Kernel.Works i) K₀ t₁ removed
            K₁ ∧
          (purgeRest f (sizeIn (K.data o.ino)) removed).Runs (Kernel.Works i) K₁ t₂ b K' ∧
          (∀ e ∈ t₁, succeeded e = true) ∧ ∀ e ∈ t₂, succeeded e = true) := by
  obtain ⟨t₁, t₂, recorded, K₀, rfl, hget, hrest⟩ := Prog.runs_bind.mp hrun
  obtain ⟨-, hok⟩ := List.forall_mem_append.mp hok
  have hwf₀ := wf_of_runs hget hwf
  obtain ⟨rfl, hpos⟩ := runs_recorded ho hget
  refine ⟨K₀, hpos, hwf₀, ?_⟩
  by_cases hlt : sizeIn (K.data o.ino) < fc.maxCacheSizeInBytes
  · rw [if_pos hlt] at hrest
    obtain ⟨rfl, rfl, rfl⟩ := hrest
    exact .inl ⟨hlt, rfl, rfl⟩
  rw [if_neg hlt] at hrest
  right
  obtain ⟨t₃, t₄, files, K₂, rfl, hfiles, hrest⟩ := Prog.runs_bind.mp hrest
  obtain ⟨hok₃, hok⟩ := List.forall_mem_append.mp hok
  obtain ⟨hsame, ⟨-, e, he, hfailed⟩ | ⟨hreach, rfl⟩⟩ := runs_filesInCache hnul hwf₀ hfiles
  · rw [hok₃ e he] at hfailed
    cases hfailed
  rw [hsame] at hrest
  obtain ⟨t₅, t₆, items, K₃, rfl, hstat, hrest⟩ := Prog.runs_bind.mp hrest
  obtain ⟨-, hok⟩ := List.forall_mem_append.mp hok
  obtain ⟨hsame', queue, hordered, rfl⟩ := runs_statFiles_nil hnul hwf₀ hreach hstat
  rw [hsame'] at hrest
  obtain ⟨t₇, t₈, removed, K₄, rfl, hremove, hrest⟩ := Prog.runs_bind.mp hrest
  obtain ⟨hok₇, hok₈⟩ := List.forall_mem_append.mp hok
  refine ⟨Nat.le_of_not_lt hlt, hreach, queue, t₇, t₈, removed, K₄, hordered, hremove, ?_, hok₇, hok₈⟩
  cases removed with
  | none => exact hrest
  | some removed => exact hrest

/-- Where the recorded size is below the maximum nothing is done; else the files are looked at, removed, and the
rest is recorded. -/
theorem runs_purgeLocked (h : Attached fc f o K) {b : Bool}
    (hrun : (purgeLocked fc f).Runs (Kernel.Works i) K t b K') (hok : ∀ e ∈ t, succeeded e = true) :
    b = true ∧
      (recordedSize (resolve fc.cacheDir) K < fc.maxCacheSizeInBytes → Unchanged K K' ∧ K'.atime = K.atime) ∧
      (fc.maxCacheSizeInBytes ≤ recordedSize (resolve fc.cacheDir) K → ∃ gone, Removes fc K K' gone ∧
        recordedSize (resolve fc.cacheDir) K' =
          (recordedSize (resolve fc.cacheDir) K + 2 ^ 64 - (gone.map (sizeOf K)).sum % 2 ^ 64) % 2 ^ 64) := by
  obtain ⟨K₀, ⟨pos, rfl⟩, hwf₀, hcases⟩ := runs_purgeLocked_cases h.noNul h.wf h.opened hrun hok
  rw [← h.recorded] at hcases
  rcases hcases with
    ⟨hlt, rfl, rfl⟩ | ⟨hle, hreach, queue, t₁, t₂, removed, K₁, hordered, hremove, hrest, hok₁, hok₂⟩
  · exact ⟨rfl, fun _ => ⟨Kernel.unchanged_setOpen f _, rfl⟩, fun hle => absurd hlt (Nat.not_lt.mpr hle)⟩
  have h₀ : Attached fc f { o with offset := pos } _ := h.setOpen rfl hwf₀
  obtain ⟨gone, hev, hgone, ⟨-, e, he, hfailed⟩ | ⟨htake, rfl⟩⟩ := runs_purgeItems h₀ hreach hordered hremove
  · rw [hok₁ e he] at hfailed
    cases hfailed
  obtain ⟨rfl, hpurged, hleft⟩ := runs_purgeRest h₀ hev hgone hrest hok₂
  rw [Nat.mod_mod] at hleft
  refine ⟨rfl, fun hlt => absurd hlt (Nat.not_lt.mpr hle), fun _ => ⟨gone, ?_, hleft⟩⟩
  exact Removes.of_setOpen h hwf₀ rfl ⟨queue, hordered, htake, hpurged⟩

/-- What a client without a lock does not wait for. -/
def waits : SysCall → Bool
  | .flock _ _ nonblock => !nonblock
  | _ => false

theorem exists_works {c : SysCall} (hc : waits c = false) (K : Kernel) : ∃ r K', Kernel.Works i c K r K' := by
  cases hexec : Kernel.exec i c K with
  | some out => exact ⟨out.1, out.2, Kernel.works_iff.mpr hexec⟩
  | none =>
      obtain ⟨fd, mode, x, rfl, -, -⟩ := Kernel.exec_eq_none hexec
      cases hc

/-- The calls of the loop that looks at the files. -/
theorem every_statFiles {P : SysCall → Prop} (hstat : ∀ path, P (.stat path)) (files : List Text)
    (items : List FileCache.ItemInfo) : (FileCache.statFiles files items).Every P := by
  induction files generalizing items with
  | nil => exact trivial
  | cons file files ih =>
      refine ⟨hstat file, fun sb => ?_⟩
      cases sb with
      | none => exact trivial
      | some sb => exact ih _

/-- The calls of the loop that removes files. -/
theorem every_removeItems {P : SysCall → Prop} (hopen : ∀ path, P (.openWrite path))
    (hlock : ∀ fd, P (.flock fd .exclusive true)) (htouch : ∀ fd, P (.futimes fd))
    (hremove : ∀ path, P (.remove path)) (hclose : ∀ fd, P (.close fd)) (purgeSize : Nat)
    (items : List FileCache.ItemInfo) (removed : Nat) :
    (FileCache.removeItems purgeSize items removed).Every P := by
  induction items generalizing removed with
  | nil => exact trivial
  | cons item items ih =>
      rw [FileCache.removeItems]
      split
      · exact trivial
      · refine ⟨hopen _, fun opened => ?_⟩
        cases opened with
        | none => exact trivial
        | some fd =>
            refine ⟨hlock fd, fun locked => ?_⟩
            cases locked with
            | false => exact ⟨hclose fd, fun _ => ih removed⟩
            | true => exact ⟨htouch fd, fun _ => ⟨hremove _, fun _ => ⟨hclose fd, fun _ => ih _⟩⟩⟩

/-- With the lock of the cache, `purge` waits for nothing. -/
theorem waits_purgeLocked (fc : FileCache) (info : Nat) :
    (purgeLocked fc info).Every fun c => waits c = false := by
  have hget : (getCacheInfoSize info).Every fun c => waits c = false := every_getCacheInfoSize rfl rfl
  refine hget.bind fun recorded => ?_
  split
  · exact trivial
  · refine ⟨rfl, fun names => ?_⟩
    cases names with
    | none => exact trivial
    | some names =>
        have hstat := every_statFiles (P := fun c => waits c = false) (fun _ => rfl)
        refine (hstat _ []).bind fun items => ?_
        cases items with
        | none => exact trivial
        | some items =>
            have hremove := every_removeItems (P := fun c => waits c = false) (fun _ => rfl) (fun _ => rfl)
              (fun _ => rfl) (fun _ => rfl) (fun _ => rfl) fc.purgeSize items 0
            refine hremove.bind fun removed => ?_
            cases removed with
            | none => exact trivial
            | some removed => exact ⟨rfl, fun left => every_updateCacheInfoSize rfl fun _ => rfl⟩

/-! ## When `purge` keeps to the access times -/

def unlockedItems (home : List Text) (K : Kernel) : List (List Text × Nat) :=
  (itemsIn home K).filter fun e => !isHeld K e

/-- Those that were last read before 1970, the one whose access is longest ago first. -/
def itemsBefore (home : List Text) (K : Kernel) : List (List Text × Nat) :=
  inOrder (atimeOf K) ((unlockedItems home K).filter fun e => atimeOf K e < 0)

/-- Those that have been read since 1970, the one whose access is longest ago first. -/
def itemsSince (home : List Text) (K : Kernel) : List (List Text × Nat) :=
  inOrder (atimeOf K) ((unlockedItems home K).filter fun e => !decide (atimeOf K e < 0))

/-- The files that are to be removed are recorded, and the keys have no say in which these are. -/
structure Purgeable (fc : FileCache) (K : Kernel) : Prop where
  recorded : ∀ gone, Takes (sizeOf K) fc.purgeSize
      (itemsBefore (resolve fc.cacheDir) K ++ itemsSince (resolve fc.cacheDir) K) gone →
    (gone.map (sizeOf K)).sum ≤ recordedSize (resolve fc.cacheDir) K
  order : AllNeeded (sizeOf K) fc.purgeSize (itemsBefore (resolve fc.cacheDir) K)
    (itemsSince (resolve fc.cacheDir) K)

section Keys

variable {home : List Text} {queue : List (List Text × Nat)}

/-- A time before 1970 has a key above those of all later times. -/
theorem key_eq (K : Kernel) (e : List Text × Nat) :
    (keyOf K e : Int) = if atimeOf K e < 0 then atimeOf K e + 2 ^ 64 else atimeOf K e := by
  rw [keyOf, atimeOf, ← Int64.toNat_toBitVec, ← Int64.toInt_toBitVec, BitVec.toInt_eq_toNat_cond]
  have hlt := (K.atime e.2).toBitVec.isLt
  split <;> split <;> omega

theorem atime_lt (K : Kernel) (e : List Text × Nat) : atimeOf K e < 2 ^ 63 ∧ -2 ^ 63 ≤ atimeOf K e :=
  ⟨Int64.toInt_lt _, Int64.le_toInt _⟩

theorem nodup_unlockedItems (hwf : K.Wf) (home : List Text) : (unlockedItems home K).Nodup :=
  (hwf.locations.of_map.filter _).filter _

/-- By their access times the items before 1970 come first. -/
theorem unlocked_by_atime (hwf : K.Wf) (h : Ordered (atimeOf K) (itemsIn home K) queue) :
    queue.filter (fun e => !isHeld K e) = itemsBefore home K ++ itemsSince home K := by
  refine (h.filter _).split (nodup_unlockedItems hwf home) ?_
  intro a _ ha b _ hb
  rw [decide_eq_true_eq] at ha
  rw [decide_eq_false_iff_not] at hb
  omega

/-- By their keys they come last. -/
theorem unlocked_by_key (hwf : K.Wf) (h : Ordered (keyOf K) (itemsIn home K) queue) :
    queue.filter (fun e => !isHeld K e) = itemsSince home K ++ itemsBefore home K := by
  have hnodup := nodup_unlockedItems hwf home
  have hsplit := (h.filter fun e => !isHeld K e).split hnodup
    (p := fun e => !decide (atimeOf K e < 0)) (fun a _ ha b _ hb => by
      have hka := key_eq K a
      have hkb := key_eq K b
      have hbound := atime_lt K a
      have hbound' := atime_lt K b
      simp only [Bool.not_eq_true', Bool.not_eq_false', decide_eq_true_eq, decide_eq_false_iff_not] at ha hb
      rw [if_neg ha] at hka
      rw [if_pos hb] at hkb
      omega)
  simp only [Bool.not_not] at hsplit
  rw [hsplit, itemsSince, itemsBefore]
  -- on either side of 1970 the keys are in the order of the times
  congr 1
  · refine inOrder_congr (hnodup.filter _) fun a ha b hb => ?_
    have hka := key_eq K a
    have hkb := key_eq K b
    have ha := (List.mem_filter.mp ha).2
    have hb := (List.mem_filter.mp hb).2
    simp only [Bool.not_eq_true', decide_eq_false_iff_not] at ha hb
    rw [if_neg ha] at hka
    rw [if_neg hb] at hkb
    omega
  · refine inOrder_congr (hnodup.filter _) fun a ha b hb => ?_
    have hka := key_eq K a
    have hkb := key_eq K b
    have ha := (List.mem_filter.mp ha).2
    have hb := (List.mem_filter.mp hb).2
    rw [decide_eq_true_eq] at ha hb
    rw [if_pos ha] at hka
    rw [if_pos hb] at hkb
    omega

/-- The files that are gone are determined by those that are left. -/
theorem Purged.same {gone gone' : List (List Text × Nat)} (h : Purged home K K' gone)
    (h' : Purged home K K' gone') : ∀ e, e ∈ gone ↔ e ∈ gone' := by
  have hside : ∀ {x y : List (List Text × Nat)}, Purged home K K' x → Purged home K K' y → ∀ e ∈ x, e ∈ y := by
    intro x y hx hy e he
    by_contra hnot
    have hmem : e ∈ K'.files := by
      rw [hy.files]
      exact List.mem_filter.mpr ⟨hx.present e he, decide_eq_true hnot⟩
    rw [hx.files, List.mem_filter, decide_eq_true_eq] at hmem
    exact hmem.2 he
  exact fun e => ⟨hside h h' e, hside h' h e⟩

theorem Purged.of_same {gone gone' : List (List Text × Nat)} (h : Purged home K K' gone)
    (hsame : ∀ e, e ∈ gone' ↔ e ∈ gone) : Purged home K K' gone' where
  present := fun e he => h.present e ((hsame e).mp he)
  files := by
    rw [h.files]
    exact List.filter_congr fun e _ => decide_eq_decide.mpr (not_congr (hsame e).symm)
  folders := h.folders
  data := h.data
  atime := h.atime

/-- What the loop removes is what is to be removed, and it can be taken from the recorded size, just if that is
what the items and their access times are like. -/
theorem Removes.evicts_iff (hwf : K.Wf) {gone' : List (List Text × Nat)} (h : Removes fc K K' gone')
    (hrecorded : recordedSize (resolve fc.cacheDir) K' =
      (recordedSize (resolve fc.cacheDir) K + 2 ^ 64 - (gone'.map (sizeOf K)).sum % 2 ^ 64) % 2 ^ 64) :
    (∃ gone, Evicts fc K K' gone ∧ recordedSize (resolve fc.cacheDir) K' + (gone.map (sizeOf K)).sum =
      recordedSize (resolve fc.cacheDir) K) ↔ Purgeable fc K := by
  obtain ⟨queue', hordered', htake, hpurged'⟩ := h
  rw [unlocked_by_key hwf hordered'] at htake
  have hlt := recordedSize_lt (resolve fc.cacheDir) K
  have hordered := ordered_inOrder (atimeOf K) (itemsIn (resolve fc.cacheDir) K)
  have hqueue := unlocked_by_atime hwf hordered
  have hnodup : (itemsBefore (resolve fc.cacheDir) K ++ itemsSince (resolve fc.cacheDir) K).Nodup := by
    rw [← hqueue]
    exact (hordered.1.nodup_iff.mpr (hwf.locations.of_map.filter _)).filter _
  have hnodup' := List.nodup_append_comm.mp hnodup
  have htakes' := takes_takeOver (sizeOf K) fc.purgeSize
    (itemsSince (resolve fc.cacheDir) K ++ itemsBefore (resolve fc.cacheDir) K)
  -- the same files come to the same total
  have hsums : ∀ {x y : List (List Text × Nat)}, x.Nodup → y.Nodup → (∀ e, e ∈ x ↔ e ∈ y) →
      (x.map (sizeOf K)).sum = (y.map (sizeOf K)).sum := fun hx hy hsame =>
    (((List.perm_ext_iff_of_nodup hx hy).mpr hsame).map _).sum_eq
  constructor
  · rintro ⟨gone, ⟨queue, hqueued, htakes, hpurged⟩, hsum⟩
    rw [unlocked_by_atime hwf hqueued] at htakes
    have hsame := hpurged.same hpurged'
    have htotal := hsums (hnodup.sublist htakes.sublist)
      (htake ▸ hnodup'.sublist (takeCounted_sublist _ _ _)) hsame
    rw [takeCounted_eq (.inl (by rw [← htake]; omega))] at htake
    refine ⟨fun x hx => ?_, (takes_swap_iff hnodup htakes').mp ⟨gone, htakes, htake ▸ hsame⟩⟩
    rw [hx.unique htakes]
    omega
  · rintro ⟨hle, horder⟩
    obtain ⟨gone, htakes, hsame⟩ := (takes_swap_iff hnodup htakes').mpr horder
    have hle := hle gone htakes
    have htotal := hsums (hnodup.sublist htakes.sublist) (hnodup'.sublist htakes'.sublist) hsame
    rw [takeCounted_eq (.inr (by omega))] at htake
    rw [← htake] at hsame htotal
    refine ⟨gone, ⟨_, hordered, hqueue ▸ htakes, hpurged'.of_same hsame⟩, ?_⟩
    rw [hrecorded, ← htotal]
    omega

end Keys

/-- `purge` returns once it has the lock of the cache, and if no call fails it returns true. Below the maximum
nothing is changed. Else it removes the shortest front of the unlocked items that is larger than `purge_size`, in
the order of their last access, and lowers the recorded size by what it has removed, just if that is recorded and
the items before 1970 do not matter. -/
theorem purge_evicts_iff (h : Attached fc f o K) (i : Nat) :
    (K.grants f o.ino .exclusive = true → ∃ t b K', fc.purge.Runs (Kernel.Works i) K t b K') ∧
    ∀ t b K', fc.purge.Runs (Kernel.Works i) K t b K' → (∀ e ∈ t, succeeded e = true) →
      b = true ∧
      (recordedSize (resolve fc.cacheDir) K < fc.maxCacheSizeInBytes → Unchanged K K' ∧ K'.atime = K.atime) ∧
      (0 < fc.maxCacheSizeInBytes → fc.maxCacheSizeInBytes ≤ recordedSize (resolve fc.cacheDir) K →
        ((∃ gone, Evicts fc K K' gone ∧ recordedSize (resolve fc.cacheDir) K' + (gone.map (sizeOf K)).sum =
          recordedSize (resolve fc.cacheDir) K) ↔ Purgeable fc K)) := by
  rw [purge_eq, h.fd]
  constructor
  · intro hgrants
    -- the lock is all that is waited for
    have hlock : Kernel.Works i (.flock f .exclusive false) K true
        (K.setOpen f (some { o with lock := some .exclusive })) := by
      rw [Kernel.works_iff, Kernel.exec, h.opened]
      exact if_pos hgrants
    have hevery : (do
        let result ← purgeLocked fc f
        let _ ← call (.unlock f)
        pure result : Sys Bool).Every fun c => waits c = false :=
      (waits_purgeLocked fc f).bind fun result => ⟨rfl, fun _ => trivial⟩
    obtain ⟨t, b, K', hrun⟩ := hevery.exists_runs (fun c K hc => exists_works hc K) _
    exact ⟨_, b, K', true, _, t, hlock, rfl, hrun⟩
  · intro t b K' hrun hok
    rcases runs_withCacheLock hrun with ⟨hnone, -⟩ | ⟨f', locked, K₁, t', K₂, r, hf, hlock, rfl, hunlock, hbody⟩
    · cases hnone
    obtain rfl := Option.some.inj hf
    obtain ⟨-, hrest⟩ := List.forall_mem_cons.mp hok
    obtain ⟨hbodyOk, -⟩ := List.forall_mem_append.mp hrest
    obtain ⟨hgranted, -, hK₁⟩ | ⟨hrefused, -, hnonblock⟩ :=
      Kernel.exec_flock h.opened (Kernel.works_iff.mp hlock)
    swap
    · cases hnonblock
    subst hK₁
    rcases hbody with ⟨-, hbody⟩ | ⟨hrefused, -⟩
    swap
    · rw [hgranted] at hrefused
      cases hrefused
    -- it starts with the lock on `cache_info` and nothing else changed
    have hwf₁ : (K.setOpen f (some { o with lock := some .exclusive })).Wf :=
      h.wf.exec (Kernel.works_iff.mp hlock)
    have h₁ : Attached fc f { o with lock := some .exclusive } _ := h.setOpen rfl hwf₁
    obtain ⟨hb, hbelow, habove⟩ := runs_purgeLocked h₁ hbody hbodyOk
    obtain ⟨x, rfl⟩ := works_unlock hunlock
    refine ⟨hb, ?_, ?_⟩
    · intro hlt
      obtain ⟨hsame, hatime⟩ := hbelow hlt
      exact ⟨⟨hsame.files, hsame.folders, hsame.data⟩, hatime⟩
    · intro _ hle
      obtain ⟨gone, hremoves, hleft⟩ := habove hle
      refine Removes.evicts_iff h.wf ?_ hleft
      obtain ⟨queue, hordered, htake, hpurged⟩ := Removes.of_setOpen h hwf₁ rfl hremoves
      exact ⟨queue, hordered, htake, hpurged.present, hpurged.files, hpurged.folders, hpurged.data, hpurged.atime⟩

end Purge

/-- A cache with two items of three and two bytes, of which the second has been read before the first, and this
recorded size. -/
def twoItems (recorded : Nat) : Kernel where
  files := [([['c'], ['a']], 3), ([['c'], ['b']], 4), ([['c'], cacheInfoName], 2)]
  folders := [([], 0), ([['c']], 1)]
  data := fun ino =>
    if ino = 2 then encodeSize recorded else if ino = 3 then [1, 2, 3] else if ino = 4 then [4, 5] else []
  atime := fun ino => if ino = 3 then 8 else 7
  opened := fun _ => none
  nextIno := 5
  nextFd := 0
  now := 9
  sources := fun _ => none

/-- An object for that cache. -/
def overTwoItems (maximum : Nat) : FileCache := ⟨['/', 'c'], maximum, 1, some 0⟩

theorem attached_overTwoItems (recorded maximum : Nat) :
    Attached (overTwoItems maximum) 0 ⟨2, 0, none, 0⟩ ((twoItems recorded).addOpen 0 2) where
  wf := by
    have hwf : (twoItems 0).Wf :=
      Kernel.wf_of_closed (fun _ => rfl) (by decide) (by decide) (by decide) (by decide)
    have hwf' : (twoItems recorded).Wf := { hwf with }
    exact hwf'.addOpen 0 (show 2 < 5 by decide)
  noNul := show '\x00' ∉ ['/', 'c'] by decide
  fd := rfl
  opened := rfl
  info := List.mem_cons_of_mem _ (List.mem_cons_of_mem _ List.mem_cons_self)

theorem purgeable_overTwoItems : Purgeable (overTwoItems 5) ((twoItems 5).addOpen 0 2) where
  recorded := by
    intro gone hgone
    have htakes := takes_takeOver (sizeOf ((twoItems 5).addOpen 0 2)) (overTwoItems 5).purgeSize
      (itemsBefore [['c']] ((twoItems 5).addOpen 0 2) ++ itemsSince [['c']] ((twoItems 5).addOpen 0 2))
    rw [hgone.unique htakes]
    decide
  order := by
    have hnone : itemsBefore [['c']] ((twoItems 5).addOpen 0 2) = [] := by decide
    intro e he
    rw [show resolve (overTwoItems 5).cacheDir = [['c']] by decide, hnone] at he
    cases he

/-- Where both items are recorded, the older one is removed and the size of the other stays. -/
theorem purge_evicts_older : ∃ t K' gone,
    (overTwoItems 5).purge.Runs (Kernel.Works 0) ((twoItems 5).addOpen 0 2) t true K' ∧
      Evicts (overTwoItems 5) ((twoItems 5).addOpen 0 2) K' gone ∧ recordedSize [['c']] K' = 3 := by
  have hplay : (Prog.play (Kernel.attempt (fun _ => false) 0) (List.replicate 18 none) (overTwoItems 5).purge
      ((twoItems 5).addOpen 0 2)).any (fun out =>
        decide (out.2.1 = true ∧ recordedSize [['c']] out.2.2 = 3) && out.1.all succeeded) = true := by decide
  obtain ⟨t, b, K', hrun, hq⟩ := Prog.exists_runs hplay
  rw [Bool.and_eq_true, decide_eq_true_eq, List.all_eq_true] at hq
  obtain ⟨⟨rfl, hrecorded⟩, hok⟩ := hq
  obtain ⟨-, -, habove⟩ := (purge_evicts_iff (attached_overTwoItems 5 5) 0).2 t true K' hrun hok
  obtain ⟨gone, hevicts, -⟩ := (habove (by decide) (by decide)).mpr purgeable_overTwoItems
  exact ⟨t, K', gone, hrun, hevicts, hrecorded⟩

/-- Where only one byte is recorded, the size of the older item cannot be taken from it. -/
theorem purge_wraps :
    ¬ ∀ (fc : FileCache) (f : Nat) (o : OpenFile) (K : Kernel) (i : Nat) (t : Record) (b : Bool) (K' : Kernel),
      Attached fc f o K → fc.purge.Runs (Kernel.Works i) K t b K' → (∀ e ∈ t, succeeded e = true) →
      0 < fc.maxCacheSizeInBytes → fc.maxCacheSizeInBytes ≤ recordedSize (resolve fc.cacheDir) K →
      ∃ gone, Evicts fc K K' gone ∧
        recordedSize (resolve fc.cacheDir) K' + (gone.map (sizeOf K)).sum =
          recordedSize (resolve fc.cacheDir) K := by
  intro h
  have hplay : (Prog.play (Kernel.attempt (fun _ => false) 0) (List.replicate 18 none) (overTwoItems 1).purge
      ((twoItems 1).addOpen 0 2)).any (fun out =>
        decide (recordedSize [['c']] out.2.2 = 2 ^ 64 - 1) && out.1.all succeeded) = true := by decide
  obtain ⟨t, b, K', hrun, hq⟩ := Prog.exists_runs hplay
  rw [Bool.and_eq_true, decide_eq_true_eq, List.all_eq_true] at hq
  obtain ⟨hrecorded, hok⟩ := hq
  obtain ⟨gone, -, hleft⟩ := h (overTwoItems 1) 0 _ _ 0 t b K' (attached_overTwoItems 1 1) hrun hok (by decide)
    (by decide)
  have hbefore : recordedSize [['c']] ((twoItems 1).addOpen 0 2) = 1 := by decide
  have hhome : resolve (overTwoItems 1).cacheDir = [['c']] := by decide
  rw [hhome, hrecorded, hbefore] at hleft
  omega

end Skunk.BesUtils
