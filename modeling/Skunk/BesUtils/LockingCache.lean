import Mathlib.Logic.Function.Basic
import Skunk.Posix.Path

/-!
# What the metadata store has from `BESFileLockingCache`

The store keeps each response in a file of its own and locks the file while it works on it. The operations
that do this are inherited, from a class that is not in the repository. So they are a parameter: a
`LockingCache` is any functions that do what that class documents of them. Locks and the maintenance of
the size may fail at any point; unlocking and removing a file do not.
-/

namespace Skunk.BesUtils

open Skunk.Posix

/-- What the store throws, or lets pass that others have thrown. -/
inductive StoreException
  | internal (message : Text)
  | notFound (message : Text)
  | thrown
  deriving DecidableEq, Repr

/-! ## The cache directory -/

structure ItemFile where
  text : Text
  mtime : Nat
  deriving DecidableEq, Repr

inductive LockMode
  | shared
  | exclusive
  deriving DecidableEq, Repr

/-- The files in the cache directory, the locks that the store holds, newest first, and the time. `lmt` is
when a dataset was last modified, for the type of its handler and its real name. -/
structure Disk where
  files : Text → Option ItemFile
  locks : List (Text × LockMode)
  lmt : Text → Text → Nat
  now : Nat

/-- The newest lock on a file becomes a shared one. -/
def shareNewest (name : Text) : List (Text × LockMode) → List (Text × LockMode)
  | [] => []
  | (n, mode) :: locks => if n = name then (n, .shared) :: locks else (n, mode) :: shareNewest name locks

/-- The newest lock on a file is gone. -/
def dropNewest (name : Text) : List (Text × LockMode) → List (Text × LockMode)
  | [] => []
  | (n, mode) :: locks => if n = name then locks else (n, mode) :: dropNewest name locks

@[simp] theorem dropNewest_cons (name : Text) (mode : LockMode) (locks : List (Text × LockMode)) :
    dropNewest name ((name, mode) :: locks) = locks := by
  rw [dropNewest, if_pos rfl]

@[simp] theorem dropNewest_shareNewest (name : Text) (locks : List (Text × LockMode)) :
    dropNewest name (shareNewest name locks) = dropNewest name locks := by
  induction locks with
  | nil => rfl
  | cons l locks ih =>
      obtain ⟨n, mode⟩ := l
      by_cases hn : n = name
      · simp [shareNewest, dropNewest, hn]
      · simp [shareNewest, dropNewest, hn, ih]

namespace Disk

def lock (name : Text) (mode : LockMode) (d : Disk) : Disk := { d with locks := (name, mode) :: d.locks }

def share (name : Text) (d : Disk) : Disk := { d with locks := shareNewest name d.locks }

def unlock (name : Text) (d : Disk) : Disk := { d with locks := dropNewest name d.locks }

/-- A new empty file, locked. -/
def create (name : Text) (d : Disk) : Disk :=
  { d with
    files := Function.update d.files name (some ⟨[], d.now⟩)
    locks := (name, .exclusive) :: d.locks }

def remove (name : Text) (d : Disk) : Disk := { d with files := Function.update d.files name none }

def append (name text : Text) (d : Disk) : Disk :=
  { d with
    files := Function.update d.files name (some ⟨((d.files name).elim [] ItemFile.text) ++ text, d.now⟩) }

variable {name other text : Text} {mode : LockMode} {d : Disk}

@[simp] theorem locks_lock : (d.lock name mode).locks = (name, mode) :: d.locks := rfl
@[simp] theorem files_lock : (d.lock name mode).files = d.files := rfl
@[simp] theorem locks_share : (d.share name).locks = shareNewest name d.locks := rfl
@[simp] theorem files_share : (d.share name).files = d.files := rfl
@[simp] theorem locks_unlock : (d.unlock name).locks = dropNewest name d.locks := rfl
@[simp] theorem files_unlock : (d.unlock name).files = d.files := rfl
@[simp] theorem locks_create : (d.create name).locks = (name, .exclusive) :: d.locks := rfl
@[simp] theorem locks_remove : (d.remove name).locks = d.locks := rfl
@[simp] theorem locks_append : (d.append name text).locks = d.locks := rfl

@[simp] theorem unlock_lock : (d.lock name mode).unlock name = d := by
  simp [lock, unlock]

theorem files_create (h : other ≠ name) : (d.create name).files other = d.files other := by
  simp [create, h]

theorem files_remove (h : other ≠ name) : (d.remove name).files other = d.files other := by
  simp [remove, h]

@[simp] theorem files_remove_self : (d.remove name).files name = none := by
  simp [remove]

theorem files_append (h : other ≠ name) : (d.append name text).files other = d.files other := by
  simp [append, h]

/-- What was written into a new file is all there is in it. -/
@[simp] theorem files_append_create :
    ((d.create name).append name text).files name = some ⟨text, d.now⟩ := by
  simp [create, append]

end Disk

/-! ## The operations -/

/-- The operations of `BESFileLockingCache`, and what they do. -/
structure LockingCache where
  /-- `get_cache_file_name`, without mangling. -/
  cacheFileName : Text → Text
  isUnlimited : Bool
  createAndLock : Text → Disk → Except StoreException Bool × Disk
  getReadLock : Text → Disk → Except StoreException Bool × Disk
  getExclusiveLock : Text → Disk → Except StoreException Bool × Disk
  exclusiveToSharedLock : Text → Disk → Except StoreException Unit × Disk
  unlockAndClose : Text → Disk → Disk
  updateCacheInfo : Text → Disk → Except StoreException Nat × Disk
  cacheTooBig : Nat → Bool
  updateAndPurge : Text → Disk → Except StoreException Unit × Disk
  purgeFile : Text → Disk → Disk
  createAndLock_cases (name : Text) (d : Disk) :
    d.files name = none ∧ createAndLock name d = (.ok true, d.create name) ∨
      createAndLock name d = (.ok false, d) ∨ ∃ e, createAndLock name d = (.error e, d)
  getReadLock_cases (name : Text) (d : Disk) :
    (d.files name).isSome ∧ getReadLock name d = (.ok true, d.lock name .shared) ∨
      getReadLock name d = (.ok false, d) ∨ ∃ e, getReadLock name d = (.error e, d)
  getExclusiveLock_cases (name : Text) (d : Disk) :
    getExclusiveLock name d = (.ok true, d.lock name .exclusive) ∨
      getExclusiveLock name d = (.ok false, d) ∨ ∃ e, getExclusiveLock name d = (.error e, d)
  exclusiveToSharedLock_cases (name : Text) (d : Disk) :
    exclusiveToSharedLock name d = (.ok (), d.share name) ∨
      ∃ e, exclusiveToSharedLock name d = (.error e, d)
  unlockAndClose_eq (name : Text) (d : Disk) : unlockAndClose name d = d.unlock name
  updateCacheInfo_eq (name : Text) (d : Disk) : ∃ r, updateCacheInfo name d = (r, d)
  /-- Only other files are removed. -/
  updateAndPurge_eq (name : Text) (d : Disk) : ∃ r files, updateAndPurge name d = (r, { d with files }) ∧
    files name = d.files name ∧ ∀ other, files other = none ∨ files other = d.files other
  purgeFile_eq (name : Text) (d : Disk) : purgeFile name d = d.remove name

/-- Every lock that can be had is given. -/
structure LockingCache.LocksSucceed (c : LockingCache) : Prop where
  create (name : Text) (d : Disk) : d.files name = none →
    c.createAndLock name d = (.ok true, d.create name)
  notCreated (name : Text) (d : Disk) : (d.files name).isSome → c.createAndLock name d = (.ok false, d)
  read (name : Text) (d : Disk) : (d.files name).isSome → (name, .exclusive) ∉ d.locks →
    c.getReadLock name d = (.ok true, d.lock name .shared)
  exclusive (name : Text) (d : Disk) : (∀ mode, (name, mode) ∉ d.locks) →
    c.getExclusiveLock name d = (.ok true, d.lock name .exclusive)

/-- Keys for names, no limit, and every lock given. -/
def plainCache : LockingCache where
  cacheFileName key := key
  isUnlimited := true
  createAndLock name d := if (d.files name).isNone then (.ok true, d.create name) else (.ok false, d)
  getReadLock name d := if (d.files name).isSome then (.ok true, d.lock name .shared) else (.ok false, d)
  getExclusiveLock name d := (.ok true, d.lock name .exclusive)
  exclusiveToSharedLock name d := (.ok (), d.share name)
  unlockAndClose name d := d.unlock name
  updateCacheInfo _ d := (.ok 0, d)
  cacheTooBig _ := false
  updateAndPurge _ d := (.ok (), d)
  purgeFile name d := d.remove name
  createAndLock_cases name d := by
    cases hfile : d.files name with
    | none => exact .inl ⟨rfl, by simp⟩
    | some f => exact .inr (.inl (by simp))
  getReadLock_cases name d := by
    cases hfile : d.files name with
    | none => exact .inr (.inl (by simp))
    | some f => exact .inl ⟨rfl, by simp⟩
  getExclusiveLock_cases _ _ := .inl rfl
  exclusiveToSharedLock_cases _ _ := .inl rfl
  unlockAndClose_eq _ _ := rfl
  updateCacheInfo_eq _ _ := ⟨_, rfl⟩
  updateAndPurge_eq _ d := ⟨_, d.files, rfl, rfl, fun _ => .inr rfl⟩
  purgeFile_eq _ _ := rfl

theorem plainCache_locksSucceed : plainCache.LocksSucceed where
  create name d h := by simp [plainCache, h]
  notCreated name d h := by
    obtain ⟨f, hf⟩ := Option.isSome_iff_exists.mp h
    simp [plainCache, hf]
  read name d h _ := by simp [plainCache, h]
  exclusive _ _ _ := rfl

end Skunk.BesUtils
