import Mathlib.Algebra.GroupWithZero.Nat
import Mathlib.Algebra.Order.BigOperators.Group.List
import Mathlib.Algebra.Order.Group.Nat
import Mathlib.Data.List.Nodup
import Mathlib.Logic.Function.Basic
import Skunk.Effect.Prog
import Skunk.Posix.FileSystem

/-!
# System calls on shared files

A kernel that several clients call: a tree of folders and regular files, and the open file descriptions,
each with an offset and perhaps a lock. Names and contents are kept apart, as in the real thing: a file
that is removed while it is open keeps its contents.

The lock of `flock(2)` belongs to the open file description. Whoever asks for it competes with the
*other* descriptions of the same file only, and a request that has to wait has no outcome at all: `exec`
answers `none`. A descriptor stands for its description; numbers are never used twice.

A `write` stores all of its bytes, or else it counts as failed, though Linux writes no more than 0x7ffff000
bytes at once; what a write that comes short leaves behind is said in `Posix.Faults`. An access time is a
`time_t` of 64 bits.

Symbolic links, access rights and other file systems are left out, every path is taken from the root, and
a folder is never removed.
-/

namespace Skunk.Posix

/-- The name of a file in a folder. -/
def IsFileName (n : Text) : Prop := ¬ IsSpecial n ∧ '/' ∉ n ∧ '\x00' ∉ n

instance (n : Text) : Decidable (IsFileName n) := inferInstanceAs (Decidable (_ ∧ _))

inductive FlockMode
  | shared | exclusive
  deriving DecidableEq, Repr

/-- An open file description, with the client that opened it. -/
structure OpenFile where
  ino : Nat
  offset : Nat
  lock : Option FlockMode
  opener : Nat
  deriving DecidableEq, Repr

/-- The calls that are modelled. `mkdirP` and `readdir` stand for the calls of `BESUtil::mkdir_p` and for
`opendir`, `readdir` and `closedir`; `source` for opening, reading and closing a file that nobody changes
meanwhile, though a `read` of it may fail. `subtract` is no system call but the machine's subtraction of
64-bit numbers, which is a call here so that a run shows its operands. -/
inductive SysCall
  | stat (path : Text)
  | mkdirP (path : Text)
  | create (path : Text)
  | openRead (path : Text)
  | openWrite (path : Text)
  | close (fd : Nat)
  | flock (fd : Nat) (mode : FlockMode) (nonblock : Bool)
  | unlock (fd : Nat)
  | futimes (fd : Nat)
  | seek (fd pos : Nat)
  | read (fd count : Nat)
  | write (fd : Nat) (bytes : List UInt8)
  | fstat (fd : Nat)
  | remove (path : Text)
  | readdir (path : Text)
  | source (path : Text)
  | subtract (a b : Nat)

/-- A file elsewhere that is to be copied: what is in it, what `fstat` says is its size, and how many bytes can be
read before a `read` fails. -/
structure Source where
  contents : List UInt8
  size : Nat
  readable : Nat
  deriving DecidableEq, Repr

/-- What is read of it, up to the first `read` that returns nothing or fails. The buffer is no larger than the
size, and into a buffer of no bytes nothing is read. -/
def Source.given (s : Source) : List UInt8 := if s.size = 0 then [] else s.contents.take s.readable

/-- What a call answers: nothing or `false` if it fails. `stat` gives the size and the access time. -/
@[reducible] def SysCall.Reply : SysCall → Type
  | .stat _ => Option (Nat × Int64)
  | .mkdirP _ => Unit
  | .create _ | .openRead _ | .openWrite _ => Option Nat
  | .close _ | .flock _ _ _ | .unlock _ | .futimes _ | .seek _ _ | .remove _ => Bool
  | .read _ _ => Option (List UInt8)
  | .source _ => Option Source
  | .write _ _ | .fstat _ => Option Nat
  | .readdir _ => Option (List Text)
  | .subtract _ _ => Nat

abbrev sysCalls : Effect.Interface := ⟨SysCall, SysCall.Reply⟩

/-- A file is named by the names on the way to it, and known by its number. -/
structure Kernel where
  files : List (List Text × Nat)
  folders : List (List Text × Nat)
  data : Nat → List UInt8
  atime : Nat → Int64
  opened : Nat → Option OpenFile
  nextIno : Nat
  nextFd : Nat
  now : Int64
  sources : Text → Option Source

/-- A file after `bytes` have been written at `pos`; a gap in front of them is filled with zeros. -/
def overwrite (old : List UInt8) (pos : Nat) (bytes : List UInt8) : List UInt8 :=
  if bytes = [] then old
  else old.take pos ++ List.replicate (pos - old.length) 0 ++ bytes ++ old.drop (pos + bytes.length)

theorem overwrite_end (old bytes : List UInt8) : overwrite old old.length bytes = old ++ bytes := by
  unfold overwrite
  split
  next h => rw [h, List.append_nil]
  · rw [List.take_length, Nat.sub_self, List.drop_eq_nil_of_le (Nat.le_add_right _ _)]
    simp

theorem overwrite_start (old : List UInt8) {bytes : List UInt8} (h : bytes ≠ []) :
    overwrite old 0 bytes = bytes ++ old.drop bytes.length := by
  simp [overwrite, h]

namespace Kernel

variable (K : Kernel)

def entries : List (List Text × Nat) := K.files ++ K.folders

def isFolder (loc : List Text) : Bool := (K.folders.lookup loc).isSome

/-- The walk of the pieces of a path; each step starts in a folder. -/
def locateFrom : List Text → List Text → Option (List Text)
  | cur, [] => some cur
  | cur, p :: ps => if K.isFolder cur then locateFrom (walk cur p) ps else none

/-- What a path names, whether that exists or not; the folder in front of it exists. -/
def locate (path : Text) : Option (List Text) :=
  if cStr path = [] then none else K.locateFrom [] (pieces (cStr path))

def inode (path : Text) : Option Nat := (K.locate path).bind fun loc => K.entries.lookup loc

def fileInode (path : Text) : Option Nat := (K.locate path).bind fun loc => K.files.lookup loc

def used : Nat := (K.files.map fun e => (K.data e.2).length).sum

/-- Whether a lock on the file would go with those of the other descriptions. -/
def grants (fd ino : Nat) (mode : FlockMode) : Bool :=
  (List.range K.nextFd).all fun other =>
    match K.opened other with
    | none => true
    | some o =>
      other = fd || o.ino ≠ ino || o.lock = none || (o.lock = some .shared && mode = .shared)

def listing (loc : List Text) : List Text :=
  K.entries.filterMap fun e =>
    match e.1.getLast? with
    | some n => if e.1.dropLast = loc then some n else none
    | none => none

/-! ### What calls change -/

/-- A new empty file, open. -/
def addFile (i : Nat) (loc : List Text) : Kernel :=
  { K with
    files := (loc, K.nextIno) :: K.files
    data := Function.update K.data K.nextIno []
    opened := Function.update K.opened K.nextFd (some ⟨K.nextIno, 0, none, i⟩)
    nextIno := K.nextIno + 1
    nextFd := K.nextFd + 1 }

/-- One more description of a file. -/
def addOpen (i ino : Nat) : Kernel :=
  { K with
    opened := Function.update K.opened K.nextFd (some ⟨ino, 0, none, i⟩)
    nextFd := K.nextFd + 1 }

/-- A description is changed, or gone. -/
def setOpen (fd : Nat) (o : Option OpenFile) : Kernel :=
  { K with opened := Function.update K.opened fd o }

def setData (ino : Nat) (bytes : List UInt8) : Kernel :=
  { K with data := Function.update K.data ino bytes }

def dropFile (loc : List Text) : Kernel :=
  { K with files := K.files.filter fun e => e.1 ≠ loc }

def addFolder (loc : List Text) : Kernel :=
  { K with
    folders := (loc, K.nextIno) :: K.folders
    data := Function.update K.data K.nextIno []
    nextIno := K.nextIno + 1 }

/-- The folders on the way that are not there. -/
def makeFolders : Kernel → List Text → List Text → Kernel
  | K, _, [] => K
  | K, cur, p :: ps =>
    if K.isFolder cur then
      if (K.entries.lookup (walk cur p)).isSome then makeFolders K (walk cur p) ps
      else makeFolders (K.addFolder (walk cur p)) (walk cur p) ps
    else K

/-! ### The calls -/

/-- A call of client `i`: what it answers and what is left, or nothing while it has to wait. -/
def exec (i : Nat) : (c : SysCall) → Kernel → Option (c.Reply × Kernel)
  | .stat path, K =>
    some ((K.inode path).map fun ino => ((K.data ino).length, K.atime ino), K)
  | .mkdirP path, K => some ((), K.makeFolders [] (pieces (cStr path)))
  | .create path, K =>
    match K.locate path with
    | none => some (none, K)
    | some loc =>
      if (K.entries.lookup loc).isSome then some (none, K)
      else some (some K.nextFd, K.addFile i loc)
  | .openRead path, K =>
    match K.inode path with
    | none => some (none, K)
    | some ino => some (some K.nextFd, K.addOpen i ino)
  | .openWrite path, K =>
    match K.fileInode path with
    | none => some (none, K)
    | some ino => some (some K.nextFd, K.addOpen i ino)
  | .close fd, K => some ((K.opened fd).isSome, K.setOpen fd none)
  | .flock fd mode nonblock, K =>
    match K.opened fd with
    | none => some (false, K)
    | some o =>
      if K.grants fd o.ino mode then some (true, K.setOpen fd (some { o with lock := some mode }))
      else if nonblock then some (false, K)
      else none
  | .unlock fd, K =>
    match K.opened fd with
    | none => some (false, K)
    | some o => some (true, K.setOpen fd (some { o with lock := none }))
  | .futimes fd, K =>
    match K.opened fd with
    | none => some (false, K)
    | some o => some (true, { K with atime := Function.update K.atime o.ino K.now })
  | .seek fd pos, K =>
    match K.opened fd with
    | none => some (false, K)
    | some o => some (true, K.setOpen fd (some { o with offset := pos }))
  | .read fd count, K =>
    match K.opened fd with
    | none => some (none, K)
    | some o =>
      let bytes := ((K.data o.ino).drop o.offset).take count
      some (some bytes, K.setOpen fd (some { o with offset := o.offset + bytes.length }))
  | .write fd bytes, K =>
    match K.opened fd with
    | none => some (none, K)
    | some o =>
      let K' := (K.setData o.ino (overwrite (K.data o.ino) o.offset bytes)).setOpen fd
        (some { o with offset := o.offset + bytes.length })
      -- no file system holds 2^64 bytes
      if K'.used < 2 ^ 64 then some (some bytes.length, K') else some (none, K)
  | .fstat fd, K => some ((K.opened fd).map fun o => (K.data o.ino).length, K)
  | .remove path, K =>
    match K.locate path with
    | none => some (false, K)
    | some loc =>
      if (K.files.lookup loc).isSome then some (true, K.dropFile loc) else some (false, K)
  | .readdir path, K =>
    some ((K.locate path).bind fun loc =>
      if K.isFolder loc then some (['.'] :: ['.', '.'] :: K.listing loc) else none, K)
  | .source path, K => some (K.sources path, K)
  | .subtract a b, K => some ((a + 2 ^ 64 - b % 2 ^ 64) % 2 ^ 64, K)

/-- What changes by itself: the order in which a folder lists its files, access times, the clock and the
files that are read as sources. -/
structure Drift (K K' : Kernel) : Prop where
  files : K'.files.Perm K.files
  folders : K'.folders = K.folders
  data : K'.data = K.data
  opened : K'.opened = K.opened
  nextIno : K'.nextIno = K.nextIno
  nextFd : K'.nextFd = K.nextFd

section Fields

variable {K : Kernel} {i fd ino : Nat} {loc : List Text} {o : Option OpenFile} {bytes : List UInt8}

@[simp] theorem addFile_opened_self :
    (K.addFile i loc).opened K.nextFd = some ⟨K.nextIno, 0, none, i⟩ := Function.update_self _ _ _

theorem addFile_opened_of_ne (h : fd ≠ K.nextFd) : (K.addFile i loc).opened fd = K.opened fd :=
  Function.update_of_ne h _ _

@[simp] theorem addFile_data_self : (K.addFile i loc).data K.nextIno = [] := Function.update_self _ _ _

theorem addFile_data_of_ne (h : ino ≠ K.nextIno) : (K.addFile i loc).data ino = K.data ino :=
  Function.update_of_ne h _ _

@[simp] theorem addFile_files : (K.addFile i loc).files = (loc, K.nextIno) :: K.files := rfl

@[simp] theorem addOpen_opened_self :
    (K.addOpen i ino).opened K.nextFd = some ⟨ino, 0, none, i⟩ := Function.update_self _ _ _

theorem addOpen_opened_of_ne (h : fd ≠ K.nextFd) : (K.addOpen i ino).opened fd = K.opened fd :=
  Function.update_of_ne h _ _

@[simp] theorem setOpen_opened_self : (K.setOpen fd o).opened fd = o := Function.update_self _ _ _

theorem setOpen_opened_of_ne {g : Nat} (h : g ≠ fd) : (K.setOpen fd o).opened g = K.opened g :=
  Function.update_of_ne h _ _

@[simp] theorem setData_data_self : (K.setData ino bytes).data ino = bytes := Function.update_self _ _ _

theorem setData_data_of_ne {n : Nat} (h : n ≠ ino) : (K.setData ino bytes).data n = K.data n :=
  Function.update_of_ne h _ _

theorem exec_seek {x : OpenFile} (h : K.opened fd = some x) (pos : Nat) :
    exec i (.seek fd pos) K = some (true, K.setOpen fd (some { x with offset := pos })) := by
  rw [exec, h]

theorem exec_read {x : OpenFile} (h : K.opened fd = some x) (count : Nat) :
    exec i (.read fd count) K =
      some (some (((K.data x.ino).drop x.offset).take count), K.setOpen fd (some { x with
        offset := x.offset + (((K.data x.ino).drop x.offset).take count).length })) := by
  rw [exec, h]

/-- A write that is not refused is complete, and there was room for it. -/
theorem exec_write {x : OpenFile} (h : K.opened fd = some x) {r : Option Nat} {K' : Kernel}
    (hexec : exec i (.write fd bytes) K = some (r, K')) :
    r = some bytes.length ∧ K'.used < 2 ^ 64 ∧
        K' = (K.setData x.ino (overwrite (K.data x.ino) x.offset bytes)).setOpen fd
          (some { x with offset := x.offset + bytes.length }) ∨
      r = none ∧ K' = K := by
  rw [exec, h] at hexec
  dsimp only at hexec
  split at hexec
  next hused =>
    obtain ⟨rfl, rfl⟩ := Prod.mk.inj (Option.some.inj hexec)
    exact .inl ⟨rfl, hused, rfl⟩
  · obtain ⟨rfl, rfl⟩ := Prod.mk.inj (Option.some.inj hexec)
    exact .inr ⟨rfl, rfl⟩

/-- A lock is granted or, if nobody is to wait for it, refused. -/
theorem exec_flock {x : OpenFile} (h : K.opened fd = some x) {mode : FlockMode} {nonblock r : Bool}
    {K' : Kernel} (hexec : exec i (.flock fd mode nonblock) K = some (r, K')) :
    r = true ∧ K.grants fd x.ino mode = true ∧
        K' = K.setOpen fd (some { x with lock := some mode }) ∨
      r = false ∧ K' = K ∧ nonblock = true := by
  rw [exec, h] at hexec
  dsimp only at hexec
  split at hexec
  next hgrants =>
    obtain ⟨rfl, rfl⟩ := Prod.mk.inj (Option.some.inj hexec)
    exact .inl ⟨rfl, hgrants, rfl⟩
  · split at hexec
    next hnb =>
      obtain ⟨rfl, rfl⟩ := Prod.mk.inj (Option.some.inj hexec)
      exact .inr ⟨rfl, rfl, hnb⟩
    · cases hexec

theorem exec_unlock {x : OpenFile} (h : K.opened fd = some x) :
    exec i (.unlock fd) K = some (true, K.setOpen fd (some { x with lock := none })) := by
  rw [exec, h]

/-- A file is created only where there was nothing. -/
theorem exec_create {path : Text} {r : Option Nat} {K' : Kernel}
    (hexec : exec i (.create path) K = some (r, K')) :
    r = none ∧ K' = K ∨ ∃ loc, K.locate path = some loc ∧ K.entries.lookup loc = none ∧
      r = some K.nextFd ∧ K' = K.addFile i loc := by
  rw [exec] at hexec
  split at hexec
  · obtain ⟨rfl, rfl⟩ := Prod.mk.inj (Option.some.inj hexec)
    exact .inl ⟨rfl, rfl⟩
  next loc hloc =>
    split at hexec
    · obtain ⟨rfl, rfl⟩ := Prod.mk.inj (Option.some.inj hexec)
      exact .inl ⟨rfl, rfl⟩
    next hnew =>
      obtain ⟨rfl, rfl⟩ := Prod.mk.inj (Option.some.inj hexec)
      exact .inr ⟨loc, hloc, Option.not_isSome_iff_eq_none.mp hnew, rfl, rfl⟩

/-- Anything that is there can be opened for reading. -/
theorem exec_openRead {path : Text} {r : Option Nat} {K' : Kernel}
    (hexec : exec i (.openRead path) K = some (r, K')) :
    K.inode path = none ∧ r = none ∧ K' = K ∨
      ∃ n, K.inode path = some n ∧ r = some K.nextFd ∧ K' = K.addOpen i n := by
  rw [exec] at hexec
  split at hexec
  next hnone =>
    obtain ⟨rfl, rfl⟩ := Prod.mk.inj (Option.some.inj hexec)
    exact .inl ⟨hnone, rfl, rfl⟩
  next n hn =>
    obtain ⟨rfl, rfl⟩ := Prod.mk.inj (Option.some.inj hexec)
    exact .inr ⟨n, hn, rfl, rfl⟩

/-- Only a file can be opened for writing. -/
theorem exec_openWrite {path : Text} {r : Option Nat} {K' : Kernel}
    (hexec : exec i (.openWrite path) K = some (r, K')) :
    K.fileInode path = none ∧ r = none ∧ K' = K ∨
      ∃ n, K.fileInode path = some n ∧ r = some K.nextFd ∧ K' = K.addOpen i n := by
  rw [exec] at hexec
  split at hexec
  next hnone =>
    obtain ⟨rfl, rfl⟩ := Prod.mk.inj (Option.some.inj hexec)
    exact .inl ⟨hnone, rfl, rfl⟩
  next n hn =>
    obtain ⟨rfl, rfl⟩ := Prod.mk.inj (Option.some.inj hexec)
    exact .inr ⟨n, hn, rfl, rfl⟩

/-- Only a file is removed, and only from its place. -/
theorem exec_remove {path : Text} {r : Bool} {K' : Kernel}
    (hexec : exec i (.remove path) K = some (r, K')) :
    r = false ∧ K' = K ∨ ∃ loc n, K.locate path = some loc ∧ K.files.lookup loc = some n ∧
      r = true ∧ K' = K.dropFile loc := by
  rw [exec] at hexec
  split at hexec
  · obtain ⟨rfl, rfl⟩ := Prod.mk.inj (Option.some.inj hexec)
    exact .inl ⟨rfl, rfl⟩
  next loc hloc =>
    split at hexec
    next hfile =>
      obtain ⟨rfl, rfl⟩ := Prod.mk.inj (Option.some.inj hexec)
      obtain ⟨n, hn⟩ := Option.isSome_iff_exists.mp hfile
      exact .inr ⟨loc, n, hloc, hn, rfl, rfl⟩
    · obtain ⟨rfl, rfl⟩ := Prod.mk.inj (Option.some.inj hexec)
      exact .inl ⟨rfl, rfl⟩

/-- Only a request for a lock has to wait, and only one that may. -/
theorem exec_eq_none {c : SysCall} (h : exec i c K = none) :
    ∃ fd mode x, c = .flock fd mode false ∧ K.opened fd = some x ∧ K.grants fd x.ino mode = false := by
  cases c with
  | flock fd mode nonblock =>
      rw [exec] at h
      split at h
      · cases h
      next x hx =>
        split at h
        · cases h
        next hgrants =>
          split at h
          · cases h
          next hnb =>
            refine ⟨fd, mode, x, ?_, hx, by simpa using hgrants⟩
            rw [Bool.not_eq_true] at hnb
            rw [hnb]
  | create path | openRead path | openWrite path | unlock fd | futimes fd | seek fd pos
  | read fd count | remove path =>
      rw [exec] at h
      repeat' split at h
      all_goals cases h
  | write fd bytes =>
      rw [exec] at h
      split at h
      · cases h
      · dsimp only at h
        split at h
        · cases h
        · cases h
  | stat path | mkdirP path | close fd | fstat fd | readdir path | source path | subtract a b => cases h

end Fields

/-! ## Well-formed kernels -/

/-- Locations and numbers are used once, numbers are given out in order, names are names, and an exclusive
lock is the only lock on its file. -/
structure Wf : Prop where
  locations : (K.entries.map Prod.fst).Nodup
  inodes : (K.entries.map Prod.snd).Nodup
  names : ∀ e ∈ K.entries, ∀ n ∈ e.1, IsFileName n
  entry_lt : ∀ e ∈ K.entries, e.2 < K.nextIno
  ino_lt : ∀ fd o, K.opened fd = some o → o.ino < K.nextIno
  fd_lt : ∀ fd o, K.opened fd = some o → fd < K.nextFd
  alone : ∀ fd fd' o o', K.opened fd = some o → K.opened fd' = some o' → fd ≠ fd' → o.ino = o'.ino →
    o.lock = some .exclusive → o'.lock = none

variable {K}

theorem lookup_eq_some_iff_mem {l : List (List Text × Nat)} (h : (l.map Prod.fst).Nodup)
    {loc : List Text} {ino : Nat} : l.lookup loc = some ino ↔ (loc, ino) ∈ l := by
  induction l with
  | nil => simp
  | cons e l ih =>
      obtain ⟨loc', ino'⟩ := e
      rw [List.map_cons, List.nodup_cons] at h
      rw [List.lookup_cons, List.mem_cons, Prod.mk.injEq]
      by_cases hloc : loc = loc'
      · subst hloc
        have hnot : (loc, ino) ∉ l := fun hmem => h.1 (List.mem_map.mpr ⟨_, hmem, rfl⟩)
        simp [hnot, eq_comm]
      · have hbeq : (loc == loc') = false := by simpa using hloc
        simp only [hbeq, ih h.2, hloc, false_and, false_or]

theorem Wf.files_locations (h : K.Wf) : (K.files.map Prod.fst).Nodup := by
  have := h.locations
  rw [entries, List.map_append] at this
  exact this.of_append_left

theorem mem_entries_of_file {e : List Text × Nat} (h : e ∈ K.files) : e ∈ K.entries :=
  List.mem_append_left _ h

theorem mem_entries_of_folder {e : List Text × Nat} (h : e ∈ K.folders) : e ∈ K.entries :=
  List.mem_append_right _ h

theorem Wf.lookup_files (h : K.Wf) {loc : List Text} {ino : Nat} :
    K.files.lookup loc = some ino ↔ (loc, ino) ∈ K.files :=
  lookup_eq_some_iff_mem h.files_locations

theorem Wf.lookup_entries (h : K.Wf) {loc : List Text} {ino : Nat} :
    K.entries.lookup loc = some ino ↔ (loc, ino) ∈ K.entries :=
  lookup_eq_some_iff_mem h.locations

/-- A file has one number. -/
theorem Wf.ino_eq (h : K.Wf) {loc : List Text} {ino ino' : Nat} (hmem : (loc, ino) ∈ K.files)
    (hmem' : (loc, ino') ∈ K.files) : ino = ino' := by
  have h1 := h.lookup_files.mpr hmem
  rw [h.lookup_files.mpr hmem'] at h1
  exact (Option.some.inj h1).symm

/-- A number has one place. -/
theorem Wf.eq_of_ino (h : K.Wf) {e e' : List Text × Nat} (hmem : e ∈ K.entries)
    (hmem' : e' ∈ K.entries) (hino : e.2 = e'.2) : e = e' :=
  List.inj_on_of_nodup_map h.inodes hmem hmem' hino

/-- With nothing open, only the names and the numbers matter. -/
theorem wf_of_closed (hclosed : ∀ fd, K.opened fd = none) (hlocations : (K.entries.map Prod.fst).Nodup)
    (hinodes : (K.entries.map Prod.snd).Nodup) (hnames : ∀ e ∈ K.entries, ∀ n ∈ e.1, IsFileName n)
    (hlt : ∀ e ∈ K.entries, e.2 < K.nextIno) : K.Wf where
  locations := hlocations
  inodes := hinodes
  names := hnames
  entry_lt := hlt
  ino_lt := by
    intro fd o ho
    rw [hclosed] at ho
    cases ho
  fd_lt := by
    intro fd o ho
    rw [hclosed] at ho
    cases ho
  alone := by
    intro fd fd' o o' ho
    rw [hclosed] at ho
    cases ho

/-! ### Looking up paths -/

/-- A walk that succeeds goes where the pieces lead. -/
theorem locateFrom_eq {cur : List Text} {ps : List Text} {loc : List Text}
    (h : K.locateFrom cur ps = some loc) : loc = ps.foldl walk cur := by
  induction ps generalizing cur with
  | nil => exact (Option.some.inj h).symm
  | cons p ps ih =>
      rw [locateFrom] at h
      split at h
      · exact ih h
      · cases h

theorem locate_eq {path : Text} {loc : List Text} (h : K.locate path = some loc) :
    loc = resolve (cStr path) := by
  rw [locate] at h
  split at h
  · cases h
  · exact locateFrom_eq h

theorem locateFrom_append {cur : List Text} (ps qs : List Text) :
    K.locateFrom cur (ps ++ qs) = (K.locateFrom cur ps).bind fun loc => K.locateFrom loc qs := by
  induction ps generalizing cur with
  | nil => rfl
  | cons p ps ih =>
      rw [List.cons_append, locateFrom, locateFrom]
      split
      · exact ih
      · rfl

/-- More folders, no path lost. -/
theorem locateFrom_mono {K' : Kernel} (h : ∀ loc, K.isFolder loc → K'.isFolder loc) {cur ps loc : List Text}
    (hloc : K.locateFrom cur ps = some loc) : K'.locateFrom cur ps = some loc := by
  induction ps generalizing cur with
  | nil => exact hloc
  | cons p ps ih =>
      rw [locateFrom] at hloc ⊢
      split at hloc
      next hfolder =>
        rw [if_pos (h cur hfolder)]
        exact ih hloc
      · cases hloc

theorem locate_mono {K' : Kernel} (h : ∀ loc, K.isFolder loc → K'.isFolder loc) {path : Text}
    {loc : List Text} (hloc : K.locate path = some loc) : K'.locate path = some loc := by
  rw [locate] at hloc ⊢
  split at hloc
  · cases hloc
  next hpath =>
    rw [if_neg hpath]
    exact locateFrom_mono h hloc

/-- Where the names of a walk come from. -/
theorem walk_names {cur : List Text} {p : Text} (hcur : ∀ n ∈ cur, IsFileName n) (hslash : '/' ∉ p)
    (hnul : '\x00' ∉ p) : ∀ n ∈ walk cur p, IsFileName n := by
  intro n hn
  by_cases hp : IsSpecial p
  · rcases hp with rfl | rfl | rfl
    · exact hcur n hn
    · exact hcur n hn
    · exact hcur n (List.dropLast_subset _ hn)
  · rw [walk_of_not_special hp] at hn
    rcases List.mem_append.mp hn with hn | hn
    · exact hcur n hn
    · obtain rfl := List.mem_singleton.mp hn
      exact ⟨hp, hslash, hnul⟩

theorem mem_pieces {s p : Text} (h : p ∈ pieces s) : '/' ∉ p ∧ ∀ c ∈ p, c ∈ s := by
  induction s generalizing p with
  | nil =>
      obtain rfl := List.mem_singleton.mp h
      simp
  | cons c cs ih =>
      by_cases hc : c = '/'
      · subst hc
        rw [pieces_slash] at h
        rcases List.mem_cons.mp h with rfl | h
        · simp
        · exact ⟨(ih h).1, fun d hd => List.mem_cons_of_mem _ ((ih h).2 d hd)⟩
      · obtain ⟨q, qs, hqs⟩ := List.exists_cons_of_ne_nil (pieces_ne_nil cs)
        simp only [pieces, hc, if_false, hqs] at h
        rcases List.mem_cons.mp h with rfl | h
        · have hq := ih (p := q) (by rw [hqs]; exact List.mem_cons_self)
          refine ⟨?_, ?_⟩
          · rw [List.mem_cons, not_or]
            exact ⟨fun hslash => hc hslash.symm, hq.1⟩
          · intro d hd
            rcases List.mem_cons.mp hd with rfl | hd
            · exact List.mem_cons_self
            · exact List.mem_cons_of_mem _ (hq.2 d hd)
        · have hp := ih (p := p) (by rw [hqs]; exact List.mem_cons_of_mem _ h)
          exact ⟨hp.1, fun d hd => List.mem_cons_of_mem _ (hp.2 d hd)⟩

theorem foldl_walk_names {cur : List Text} {ps : List Text} (hcur : ∀ n ∈ cur, IsFileName n)
    (hps : ∀ p ∈ ps, '/' ∉ p ∧ '\x00' ∉ p) : ∀ n ∈ ps.foldl walk cur, IsFileName n := by
  induction ps generalizing cur with
  | nil => exact hcur
  | cons p ps ih =>
      rw [List.foldl_cons]
      have hp := hps p List.mem_cons_self
      exact ih (walk_names hcur hp.1 hp.2) fun q hq => hps q (List.mem_cons_of_mem p hq)

theorem pieces_cStr {path p : Text} (h : p ∈ pieces (cStr path)) : '/' ∉ p ∧ '\x00' ∉ p :=
  ⟨(mem_pieces h).1, fun hnul => notMem_cStr path ((mem_pieces h).2 _ hnul)⟩

theorem locate_names {path : Text} {loc : List Text} (h : K.locate path = some loc) :
    ∀ n ∈ loc, IsFileName n := by
  rw [locate_eq h]
  exact foldl_walk_names (by simp) fun p hp => pieces_cStr hp

theorem isFolder_iff {loc : List Text} : K.isFolder loc ↔ ∃ ino, (loc, ino) ∈ K.folders := by
  unfold isFolder
  induction K.folders with
  | nil => simp
  | cons e l ih =>
      obtain ⟨b, n⟩ := e
      rw [List.lookup_cons]
      by_cases hb : loc = b
      · simp [hb]
      · have hbeq : (loc == b) = false := by simpa using hb
        simp only [hbeq, ih, List.mem_cons, Prod.mk.injEq, hb, false_and, false_or]

theorem isFolder_mono {K' : Kernel} (h : ∀ e ∈ K.folders, e ∈ K'.folders) {loc : List Text}
    (hloc : K.isFolder loc) : K'.isFolder loc := by
  obtain ⟨ino, hino⟩ := isFolder_iff.mp hloc
  exact isFolder_iff.mpr ⟨ino, h _ hino⟩

/-! ### Listing a folder -/

/-- The name of a location in a folder. -/
def nameIn (loc loc' : List Text) : Option Text :=
  match loc'.getLast? with
  | some n => if loc'.dropLast = loc then some n else none
  | none => none

theorem nameIn_eq_some {loc loc' : List Text} {n : Text} :
    nameIn loc loc' = some n ↔ loc' = loc ++ [n] := by
  unfold nameIn
  constructor
  · intro h
    split at h
    next m hm =>
      split at h
      next hdrop =>
        obtain rfl := Option.some.inj h
        rw [← hdrop]
        exact (List.dropLast_append_getLast? m hm).symm
      · cases h
    · cases h
  · rintro rfl
    simp

theorem listing_eq (loc : List Text) :
    K.listing loc = (K.entries.map Prod.fst).filterMap (nameIn loc) := by
  rw [List.filterMap_map]
  rfl

theorem mem_listing {loc : List Text} {n : Text} :
    n ∈ K.listing loc ↔ ∃ ino, (loc ++ [n], ino) ∈ K.entries := by
  rw [listing_eq, List.mem_filterMap]
  constructor
  · rintro ⟨loc', hmem, hname⟩
    obtain ⟨e, he, rfl⟩ := List.mem_map.mp hmem
    exact ⟨e.2, by rw [← nameIn_eq_some.mp hname]; exact he⟩
  · rintro ⟨ino, hmem⟩
    exact ⟨loc ++ [n], List.mem_map.mpr ⟨_, hmem, rfl⟩, nameIn_eq_some.mpr rfl⟩

theorem Wf.listing_nodup (h : K.Wf) (loc : List Text) : (K.listing loc).Nodup := by
  rw [listing_eq]
  refine h.locations.filterMap ?_
  intro a b n ha hb
  rw [nameIn_eq_some.mp ha, nameIn_eq_some.mp hb]

/-! ### Calls keep kernels well-formed -/

/-- Two locks on one file that go together. -/
def Compatible (l l' : Option FlockMode) : Prop :=
  (l = some .exclusive → l' = none) ∧ (l' = some .exclusive → l = none)

theorem compatible_none (l : Option FlockMode) : Compatible none l := ⟨nofun, fun _ => rfl⟩

/-- A description is changed, is new or is gone. -/
theorem Wf.setOpen (h : K.Wf) {fd : Nat} {o : Option OpenFile}
    (hlt : ∀ x, o = some x → x.ino < K.nextIno ∧ fd < K.nextFd)
    (hlock : ∀ x, o = some x → ∀ fd' y, K.opened fd' = some y → fd' ≠ fd → y.ino = x.ino →
      Compatible x.lock y.lock) : (K.setOpen fd o).Wf where
  locations := h.locations
  inodes := h.inodes
  names := h.names
  entry_lt := h.entry_lt
  ino_lt := by
    intro g x hx
    by_cases hg : g = fd
    · subst hg
      exact (hlt x (by simpa [Kernel.setOpen] using hx)).1
    · exact h.ino_lt g x (by simpa [Kernel.setOpen, hg] using hx)
  fd_lt := by
    intro g x hx
    by_cases hg : g = fd
    · subst hg
      exact (hlt x (by simpa [Kernel.setOpen] using hx)).2
    · exact h.fd_lt g x (by simpa [Kernel.setOpen, hg] using hx)
  alone := by
    intro g g' x y hx hy hne hino hex
    by_cases hg : g = fd
    · subst hg
      have hy' : K.opened g' = some y := by simpa [Kernel.setOpen, Ne.symm hne] using hy
      exact (hlock x (by simpa [Kernel.setOpen] using hx) g' y hy' (Ne.symm hne) hino.symm).1 hex
    · have hx' : K.opened g = some x := by simpa [Kernel.setOpen, hg] using hx
      by_cases hg' : g' = fd
      · subst hg'
        exact (hlock y (by simpa [Kernel.setOpen] using hy) g x hx' hg hino).2 hex
      · exact h.alone g g' x y hx' (by simpa [Kernel.setOpen, hg'] using hy) hne hino hex

theorem Wf.setOffset (h : K.Wf) {fd : Nat} {o : OpenFile} (ho : K.opened fd = some o) (pos : Nat) :
    (K.setOpen fd (some { o with offset := pos })).Wf := by
  refine h.setOpen ?_ ?_
  · rintro x ⟨⟩
    exact ⟨h.ino_lt fd o ho, h.fd_lt fd o ho⟩
  · rintro x ⟨⟩ fd' y hy hne hino
    exact ⟨h.alone fd fd' o y ho hy (Ne.symm hne) hino.symm,
      h.alone fd' fd y o hy ho hne hino⟩

theorem Wf.setLock (h : K.Wf) {fd : Nat} {o : OpenFile} (ho : K.opened fd = some o)
    {l : Option FlockMode} (hlock : ∀ fd' y, K.opened fd' = some y → fd' ≠ fd → y.ino = o.ino →
      Compatible l y.lock) : (K.setOpen fd (some { o with lock := l })).Wf := by
  refine h.setOpen ?_ ?_
  · rintro x ⟨⟩
    exact ⟨h.ino_lt fd o ho, h.fd_lt fd o ho⟩
  · rintro x ⟨⟩
    exact hlock

theorem Wf.addOpen (h : K.Wf) (i : Nat) {ino : Nat} (hino : ino < K.nextIno) :
    (K.addOpen i ino).Wf := by
  have hnext : ({ K with nextFd := K.nextFd + 1 } : Kernel).Wf :=
    { h with fd_lt := fun fd o ho => Nat.lt_succ_of_lt (h.fd_lt fd o ho) }
  show (({ K with nextFd := K.nextFd + 1 } : Kernel).setOpen K.nextFd (some ⟨ino, 0, none, i⟩)).Wf
  refine hnext.setOpen ?_ ?_
  · rintro x ⟨⟩
    exact ⟨hino, Nat.lt_succ_self _⟩
  · rintro x ⟨⟩ fd' y - - -
    exact compatible_none _

/-- One more entry, with the next number. -/
theorem Wf.addEntry (h : K.Wf) {K' : Kernel} {loc : List Text}
    (hentries : K'.entries.Perm ((loc, K.nextIno) :: K.entries)) (hopened : K'.opened = K.opened)
    (hino : K'.nextIno = K.nextIno + 1) (hfd : K'.nextFd = K.nextFd)
    (hnew : K.entries.lookup loc = none) (hnames : ∀ n ∈ loc, IsFileName n) : K'.Wf where
  locations := by
    rw [(hentries.map Prod.fst).nodup_iff, List.map_cons, List.nodup_cons]
    refine ⟨?_, h.locations⟩
    rw [List.mem_map]
    rintro ⟨⟨loc', ino⟩, hmem, rfl⟩
    -- nothing was at the location
    rw [h.lookup_entries.mpr hmem] at hnew
    cases hnew
  inodes := by
    rw [(hentries.map Prod.snd).nodup_iff, List.map_cons, List.nodup_cons]
    refine ⟨?_, h.inodes⟩
    rw [List.mem_map]
    rintro ⟨e, hmem, he⟩
    -- the number is above those that are taken
    exact absurd (h.entry_lt e hmem) (by rw [he]; exact Nat.lt_irrefl _)
  names := by
    intro e he
    rcases List.mem_cons.mp (hentries.mem_iff.mp he) with rfl | he
    · exact hnames
    · exact h.names e he
  entry_lt := by
    intro e he
    rw [hino]
    rcases List.mem_cons.mp (hentries.mem_iff.mp he) with rfl | he
    · exact Nat.lt_succ_self _
    · exact Nat.lt_succ_of_lt (h.entry_lt e he)
  ino_lt := by
    intro fd o ho
    rw [hino]
    rw [hopened] at ho
    exact Nat.lt_succ_of_lt (h.ino_lt fd o ho)
  fd_lt := by
    rw [hopened, hfd]
    exact h.fd_lt
  alone := by
    rw [hopened]
    exact h.alone

theorem Wf.addFolder (h : K.Wf) {loc : List Text} (hnew : K.entries.lookup loc = none)
    (hnames : ∀ n ∈ loc, IsFileName n) : (K.addFolder loc).Wf :=
  h.addEntry List.perm_middle rfl rfl rfl hnew hnames

theorem Wf.addFile (h : K.Wf) (i : Nat) {loc : List Text} (hnew : K.entries.lookup loc = none)
    (hnames : ∀ n ∈ loc, IsFileName n) : (K.addFile i loc).Wf := by
  have hfile : ({ K with
      files := (loc, K.nextIno) :: K.files
      data := Function.update K.data K.nextIno []
      nextIno := K.nextIno + 1 } : Kernel).Wf :=
    h.addEntry (List.Perm.refl _) rfl rfl rfl hnew hnames
  exact hfile.addOpen i (Nat.lt_succ_self _)

theorem Wf.setData (h : K.Wf) (ino : Nat) (bytes : List UInt8) : (K.setData ino bytes).Wf := { h with }

theorem Wf.dropFile (h : K.Wf) (loc : List Text) : (K.dropFile loc).Wf := by
  have hsub : (K.dropFile loc).entries.Sublist K.entries :=
    List.Sublist.append_right List.filter_sublist _
  exact { h with
    locations := (hsub.map Prod.fst).nodup h.locations
    inodes := (hsub.map Prod.snd).nodup h.inodes
    names := fun e he => h.names e (hsub.subset he)
    entry_lt := fun e he => h.entry_lt e (hsub.subset he) }

theorem Wf.makeFolders (h : K.Wf) {cur ps : List Text} (hcur : ∀ n ∈ cur, IsFileName n)
    (hps : ∀ p ∈ ps, '/' ∉ p ∧ '\x00' ∉ p) : (K.makeFolders cur ps).Wf := by
  induction ps generalizing K cur with
  | nil => exact h
  | cons p ps ih =>
      have hp := hps p List.mem_cons_self
      have hnames := walk_names hcur hp.1 hp.2
      have hrest : ∀ q ∈ ps, '/' ∉ q ∧ '\x00' ∉ q := fun q hq => hps q (List.mem_cons_of_mem p hq)
      rw [Kernel.makeFolders]
      split
      · split
        · exact ih h hnames hrest
        next hnew => exact ih (h.addFolder (Option.not_isSome_iff_eq_none.mp hnew) hnames) hnames hrest
      · exact h

/-- What a lock that is granted goes with. -/
theorem grants_iff (h : K.Wf) {fd ino : Nat} {mode : FlockMode} :
    K.grants fd ino mode ↔ ∀ fd' o, K.opened fd' = some o → fd' ≠ fd → o.ino = ino →
      o.lock = none ∨ o.lock = some .shared ∧ mode = .shared := by
  rw [grants, List.all_eq_true]
  constructor
  · intro hall fd' o ho hne hino
    have := hall fd' (List.mem_range.mpr (h.fd_lt fd' o ho))
    rw [ho] at this
    simpa [hne, hino] using this
  · intro hall fd' _
    cases ho : K.opened fd' with
    | none => rfl
    | some o =>
        by_cases hne : fd' = fd
        · simp [hne]
        · by_cases hino : o.ino = ino
          · simpa [hne, hino] using hall fd' o ho hne hino
          · simp [hino]

theorem compatible_of_granted {l : Option FlockMode} {mode : FlockMode}
    (h : l = none ∨ l = some .shared ∧ mode = .shared) : Compatible (some mode) l := by
  rcases h with rfl | ⟨rfl, rfl⟩
  · exact ⟨fun _ => rfl, nofun⟩
  · exact ⟨nofun, nofun⟩

/-- Every call keeps the kernel well-formed. -/
theorem Wf.exec (h : K.Wf) {i : Nat} {c : SysCall} {r : c.Reply} {K' : Kernel}
    (hexec : exec i c K = some (r, K')) : K'.Wf := by
  cases c with
  | stat path | fstat fd | readdir path | source path | subtract a b =>
      obtain ⟨-, rfl⟩ := Prod.mk.inj (Option.some.inj hexec)
      exact h
  | mkdirP path =>
      obtain ⟨-, rfl⟩ := Prod.mk.inj (Option.some.inj hexec)
      exact h.makeFolders (by simp) fun p hp => pieces_cStr hp
  | create path =>
      rcases exec_create hexec with ⟨-, rfl⟩ | ⟨loc, hloc, hnew, -, rfl⟩
      · exact h
      · exact h.addFile i hnew (locate_names hloc)
  | openRead path =>
      rcases exec_openRead hexec with ⟨-, -, rfl⟩ | ⟨ino, hino, -, rfl⟩
      · exact h
      · obtain ⟨loc, -, hlook⟩ := Option.bind_eq_some_iff.mp hino
        exact h.addOpen i (h.entry_lt _ (h.lookup_entries.mp hlook))
  | openWrite path =>
      rcases exec_openWrite hexec with ⟨-, -, rfl⟩ | ⟨ino, hino, -, rfl⟩
      · exact h
      · obtain ⟨loc, -, hlook⟩ := Option.bind_eq_some_iff.mp hino
        exact h.addOpen i (h.entry_lt _ (mem_entries_of_file (h.lookup_files.mp hlook)))
  | close fd =>
      obtain ⟨-, rfl⟩ := Prod.mk.inj (Option.some.inj hexec)
      -- what is closed has no file and no lock
      exact h.setOpen nofun nofun
  | flock fd mode nonblock =>
      cases ho : K.opened fd with
      | none =>
          rw [Kernel.exec, ho] at hexec
          obtain ⟨-, rfl⟩ := Prod.mk.inj (Option.some.inj hexec)
          exact h
      | some o =>
          rcases exec_flock ho hexec with ⟨-, hgrants, rfl⟩ | ⟨-, rfl, -⟩
          · -- the lock is granted if it is compatible with the others
            exact h.setLock ho fun fd' y hy hne hino =>
              compatible_of_granted ((grants_iff h).mp hgrants fd' y hy hne hino)
          · exact h
  | unlock fd =>
      cases ho : K.opened fd with
      | none =>
          rw [Kernel.exec, ho] at hexec
          obtain ⟨-, rfl⟩ := Prod.mk.inj (Option.some.inj hexec)
          exact h
      | some o =>
          rw [exec_unlock ho] at hexec
          obtain ⟨-, rfl⟩ := Prod.mk.inj (Option.some.inj hexec)
          exact h.setLock ho fun _ _ _ _ _ => compatible_none _
  | futimes fd =>
      rw [Kernel.exec] at hexec
      split at hexec
      · obtain ⟨-, rfl⟩ := Prod.mk.inj (Option.some.inj hexec)
        exact h
      next o ho =>
        obtain ⟨-, rfl⟩ := Prod.mk.inj (Option.some.inj hexec)
        exact { h with }
  | seek fd pos =>
      rw [Kernel.exec] at hexec
      split at hexec
      · obtain ⟨-, rfl⟩ := Prod.mk.inj (Option.some.inj hexec)
        exact h
      next o ho =>
        obtain ⟨-, rfl⟩ := Prod.mk.inj (Option.some.inj hexec)
        exact h.setOffset ho pos
  | read fd count =>
      rw [Kernel.exec] at hexec
      split at hexec
      · obtain ⟨-, rfl⟩ := Prod.mk.inj (Option.some.inj hexec)
        exact h
      next o ho =>
        obtain ⟨-, rfl⟩ := Prod.mk.inj (Option.some.inj hexec)
        exact h.setOffset ho _
  | write fd bytes =>
      cases ho : K.opened fd with
      | none =>
          rw [Kernel.exec, ho] at hexec
          obtain ⟨-, rfl⟩ := Prod.mk.inj (Option.some.inj hexec)
          exact h
      | some o =>
          rcases exec_write ho hexec with ⟨-, -, rfl⟩ | ⟨-, rfl⟩
          · exact (h.setData o.ino _).setOffset ho _
          · exact h
  | remove path =>
      rcases exec_remove hexec with ⟨-, rfl⟩ | ⟨loc, -, -, -, -, rfl⟩
      · exact h
      · exact h.dropFile loc

theorem Wf.drift {K' : Kernel} (h : K.Wf) (hdrift : Drift K K') : K'.Wf := by
  have hentries : K'.entries.Perm K.entries := by
    rw [entries, entries, hdrift.folders]
    exact hdrift.files.append_right _
  refine ⟨?_, ?_, fun e he => h.names e (hentries.mem_iff.mp he), ?_, ?_, ?_, ?_⟩
  · exact (hentries.map Prod.fst).nodup_iff.mpr h.locations
  · exact (hentries.map Prod.snd).nodup_iff.mpr h.inodes
  · intro e he
    rw [hdrift.nextIno]
    exact h.entry_lt e (hentries.mem_iff.mp he)
  · rw [hdrift.opened, hdrift.nextIno]
    exact h.ino_lt
  · rw [hdrift.opened, hdrift.nextFd]
    exact h.fd_lt
  · rw [hdrift.opened]
    exact h.alone

end Kernel

end Skunk.Posix
