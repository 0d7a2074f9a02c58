import Skunk.BesUtils.CacheLayout
import Skunk.Effect.Discipline

/-!
# What a process has in hand

A cache as one process sees it, by its own calls alone: the descriptors that it has for `cache_info`, the
lock of the cache, the files that it has created with what it has written into them (`Draft`), and the
files that it has opened because they were there (`Reading`).

The rules that all operations keep to are a discipline on this: files are created, opened and removed only
with the cache locked, a file that has been created is locked before anything else is done, only such a
file and `cache_info` are ever written to, and what `put` and `put_data` close holds what they were asked
to put.
-/

namespace Skunk.BesUtils

open Effect Posix

/-- How far a process is with a file that it has created. -/
inductive Stage
  | created | locked | closed
  deriving DecidableEq, Repr

/-- A file that a process has created in an operation, the `turn`-th of its operations, and what it has written
into it. -/
structure Draft where
  fd : Nat
  ino : Nat
  path : Text
  op : Option CacheOp
  turn : Nat
  bytes : List UInt8
  offset : Nat
  stage : Stage
  failed : Bool

/-- A file that a process has opened in an operation, because it was there. -/
structure Reading where
  fd : Nat
  path : Text
  op : Option CacheOp

/-- What a process has been told in an operation of a file that it was to put. -/
structure Asked where
  turn : Nat
  fileName : Text
  reply : Option Source

/-- What a process has in hand: its operation, the number of those that it has begun, and what it has gathered. -/
structure Hand where
  op : Option CacheOp
  turn : Nat
  infos : List Nat
  inside : Option Nat
  drafts : List Draft
  readings : List Reading
  sources : List Asked

def infoPath (dir : Text) : Text := pathConcat dir cacheInfoName

/-- The pathname of an item. -/
def IsKeyPath (dir path : Text) : Prop := ∃ key, IsKey key ∧ path = pathConcat dir key

/-- The key under which an operation puts something. -/
def CacheOp.puts : CacheOp → Option Text
  | .put key _ | .putData key _ | .putItem key => some key
  | _ => none

/-- The file holds what the operation was asked to put; the owner of a `PutItem` writes what it likes. -/
def Draft.Exact (p : Draft) (sources : List Asked) : Prop :=
  match p.op with
  | some (.putData _ data) => p.bytes = data
  | some (.put _ fileName) => ∃ s : Source, ⟨p.turn, fileName, some s⟩ ∈ sources ∧ p.bytes = s.given
  | _ => True

/-- The same, unless a call has failed on the way. -/
def Draft.Whole (p : Draft) (sources : List Asked) : Prop :=
  p.Exact sources ∨ p.failed = true ∨
    ∃ key fileName, p.op = some (.put key fileName) ∧ ⟨p.turn, fileName, none⟩ ∈ sources

namespace Hand

def new : Hand := ⟨none, 0, [], none, [], [], []⟩

variable (h : Hand)

/-- All descriptors that the process has had, but for those that it opened for reading and closed. -/
def fds : List Nat := h.infos ++ h.drafts.map Draft.fd ++ h.readings.map Reading.fd

/-- Something is done with the file of a descriptor, if the process has created it. -/
def edit (fd : Nat) (g : Draft → Draft) : Hand :=
  { h with drafts := h.drafts.map fun p => if p.fd = fd then g p else p }

/-- One more file has been created. -/
def drafting (p : Draft) : Hand := { h with drafts := p :: h.drafts }

/-- One more file has been opened. -/
def reading (r : Reading) : Hand := { h with readings := r :: h.readings }

/-- No file is created and not locked yet. -/
def Settled : Prop := ∀ p ∈ h.drafts, p.stage ≠ .created

/-- The process has locked the cache, and is not about to lock a file that it has just created. -/
def Busy : Prop := h.inside ≠ none ∧ h.Settled

/-- What the process has in hand after a call. -/
def next (dir : Text) (h : Hand) (K : Kernel) : (c : SysCall) → c.Reply → Hand
  | .create path, some fd =>
    if path = infoPath dir then { h with infos := fd :: h.infos }
    else h.drafting ⟨fd, K.nextIno, path, h.op, h.turn, [], 0, .created, false⟩
  | .openRead path, some fd => h.reading ⟨fd, path, h.op⟩
  | .openWrite path, some fd =>
    if path = infoPath dir then { h with infos := fd :: h.infos } else h.reading ⟨fd, path, h.op⟩
  | .close fd, _ =>
    { h.edit fd fun p => { p with stage := .closed } with
      readings := h.readings.filter fun r => r.fd ≠ fd }
  | .flock fd _ _, true =>
    if fd ∈ h.infos then { h with inside := some fd }
    else h.edit fd fun p => { p with stage := .locked }
  | .unlock _, _ => { h with inside := none }
  | .seek fd pos, true => h.edit fd fun p => { p with offset := pos }
  | .write fd bytes, some _ =>
    h.edit fd fun p => { p with
      bytes := overwrite p.bytes p.offset bytes
      offset := p.offset + bytes.length }
  | .write fd _, none => h.edit fd fun p => { p with failed := true }
  | .source fileName, reply => { h with sources := ⟨h.turn, fileName, reply⟩ :: h.sources }
  | _, _ => h

/-- The calls that the process may make. -/
def Ok (dir : Text) : SysCall → Prop
  | .create path => path = infoPath dir ∨
      h.Busy ∧ ∃ key, IsKey key ∧ path = pathConcat dir key ∧ h.op.bind CacheOp.puts = some key
  | .openRead path => h.Busy ∧ ∃ key, IsKey key ∧ path = pathConcat dir key ∧ h.op = some (.get key)
  | .openWrite path => path = infoPath dir ∨ h.Busy ∧ IsKeyPath dir path
  | .remove path => h.Busy ∧ IsKeyPath dir path
  | .close fd => (∃ r ∈ h.readings, r.fd = fd) ∨
      ∃ p ∈ h.drafts, p.fd = fd ∧ p.stage = .locked ∧ p.Whole h.sources
  | .flock fd mode nonblock =>
      (fd ∈ h.infos ∧ mode = .exclusive ∧ nonblock = false ∧ h.inside = none) ∨
      (∃ p ∈ h.drafts, p.fd = fd ∧ p.stage = .created ∧ mode = .exclusive ∧ nonblock = false) ∨
      (h.Busy ∧ (∃ r ∈ h.readings, r.fd = fd) ∧ nonblock = true)
  | .unlock fd => h.inside = some fd ∧ h.Settled
  | .seek fd _ | .write fd _ => fd ∈ h.infos ∨ ∃ p ∈ h.drafts, p.fd = fd ∧ p.stage = .locked
  | .read fd _ => fd ∈ h.infos
  | _ => True

/-- The replies that a process reckons with: a descriptor is new, a lock that it waits for is granted in
the end, what is written is written as a whole, and a folder lists names. -/
def Expects : (c : SysCall) → c.Reply → Prop
  | .create _, some fd | .openRead _, some fd | .openWrite _, some fd => fd ∉ h.fds
  | .flock _ _ false, r => r = true
  | .write _ bytes, some n => n = bytes.length
  | .readdir _, some names => ∀ n ∈ names, n = ['.'] ∨ n = ['.', '.'] ∨ IsFileName n
  | _, _ => True

end Hand

/-- The rules of a cache in `dir`. -/
def rules (dir : Text) : Discipline sysCalls Kernel Hand CacheOp where
  started := fun op h => { h with op := some op, turn := h.turn + 1 }
  next := Hand.next dir
  ok := fun h c => h.Ok dir c
  expects := Hand.Expects

/-! ## Paths -/

section Paths

variable {dir key : Text}

theorem isKey_ne (h : IsKey key) : pathConcat dir key ≠ infoPath dir := by
  intro heq
  have hloc := resolve_pathConcat dir h.1
  rw [heq, infoPath, resolve_pathConcat dir isFileName_cacheInfoName] at hloc
  apply h.2
  simpa using hloc.symm

end Paths

/-! ## Small steps -/

namespace Hand

variable {h : Hand} {fd : Nat} {g : Draft → Draft} {p : Draft} {r : Reading}

@[simp] theorem mem_fds : fd ∈ h.fds ↔
    fd ∈ h.infos ∨ (∃ p ∈ h.drafts, p.fd = fd) ∨ ∃ r ∈ h.readings, r.fd = fd := by
  simp [fds]

theorem map_edit (hfd : ∀ p ∈ h.drafts, p.fd ≠ fd) :
    (h.drafts.map fun p => if p.fd = fd then g p else p) = h.drafts := by
  calc (h.drafts.map fun p => if p.fd = fd then g p else p)
      = h.drafts.map id := List.map_congr_left fun p hp => if_neg (hfd p hp)
    _ = h.drafts := List.map_id _

/-- Nothing is done with a file that is not the process's. -/
theorem edit_eq_self (hfd : ∀ p ∈ h.drafts, p.fd ≠ fd) : h.edit fd g = h := by
  rw [edit, map_edit hfd]

theorem ne_of_new (hfd : fd ∉ h.fds) : ∀ p ∈ h.drafts, p.fd ≠ fd := by
  intro p hp heq
  apply hfd
  simp only [mem_fds]
  exact .inr (.inl ⟨p, hp, heq⟩)

theorem edit_drafting (hp : p.fd = fd) (hfd : fd ∉ h.fds) :
    (h.drafting p).edit fd g = h.drafting (g p) := by
  simp only [edit, drafting, List.map_cons, if_pos hp, map_edit (ne_of_new hfd)]

/-- A descriptor for `cache_info` is none of a file that the process has created. -/
theorem ne_of_info (hnodup : h.fds.Nodup) (hfd : fd ∈ h.infos) : ∀ p ∈ h.drafts, p.fd ≠ fd := by
  rintro p hp rfl
  rw [fds, List.append_assoc] at hnodup
  exact (List.nodup_append.mp hnodup).2.2 p.fd hfd p.fd
    (List.mem_append_left _ (List.mem_map_of_mem hp)) rfl

theorem ne_of_reading (hnodup : h.fds.Nodup) (hr : r ∈ h.readings) : ∀ p ∈ h.drafts, p.fd ≠ r.fd := by
  intro p hp heq
  exact (List.nodup_append.mp hnodup).2.2 p.fd
    (List.mem_append_right _ (List.mem_map_of_mem hp)) r.fd (List.mem_map_of_mem hr) heq

theorem fds_edit (hg : ∀ p ∈ h.drafts, p.fd = fd → (g p).fd = p.fd) : (h.edit fd g).fds = h.fds := by
  have hmap : (h.drafts.map fun p => if p.fd = fd then g p else p).map Draft.fd =
      h.drafts.map Draft.fd := by
    rw [List.map_map]
    apply List.map_congr_left
    intro p hp
    by_cases heq : p.fd = fd
    · simp [heq, hg p hp heq]
    · simp [heq]
  simp only [fds, edit, hmap]

/-- A process that is in the locked section and has settled what it has created. -/
structure Inside (f : Nat) (h : Hand) : Prop where
  inside : h.inside = some f
  info : f ∈ h.infos
  settled : h.Settled
  nodup : h.fds.Nodup

theorem Inside.busy {f : Nat} (hin : h.Inside f) : h.Busy :=
  ⟨by rw [hin.inside]; exact nofun, hin.settled⟩

/-- A process between its operations. -/
structure Outside (h : Hand) : Prop where
  inside : h.inside = none
  settled : h.Settled
  nodup : h.fds.Nodup

theorem Outside.enter {f : Nat} (hout : h.Outside) (hf : f ∈ h.infos) :
    ({ h with inside := some f } : Hand).Inside f :=
  ⟨rfl, hf, hout.settled, hout.nodup⟩

theorem Inside.read {f : Nat} (hin : h.Inside f) (fileName : Text) (reply : Option Source) :
    ({ h with sources := ⟨h.turn, fileName, reply⟩ :: h.sources } : Hand).Inside f :=
  ⟨hin.inside, hin.info, hin.settled, hin.nodup⟩

theorem Inside.draft {f : Nat} (hin : h.Inside f) (hp : p.stage ≠ .created) (hfd : p.fd ∉ h.fds) :
    (h.drafting p).Inside f where
  inside := hin.inside
  info := hin.info
  settled := by
    intro q hq
    rcases List.mem_cons.mp hq with rfl | hq
    · exact hp
    · exact hin.settled q hq
  nodup := by
    have hperm : (h.drafting p).fds.Perm (p.fd :: h.fds) := by
      simp only [fds, drafting, List.map_cons, List.append_assoc]
      exact List.perm_middle
    exact hperm.nodup_iff.mpr (List.nodup_cons.mpr ⟨hfd, hin.nodup⟩)

theorem Inside.reading {f : Nat} (hin : h.Inside f) (hfd : r.fd ∉ h.fds) : (h.reading r).Inside f where
  inside := hin.inside
  info := hin.info
  settled := hin.settled
  nodup := by
    have hperm : (h.reading r).fds.Perm (r.fd :: h.fds) := by
      simp only [fds, Hand.reading, List.map_cons]
      exact List.perm_middle
    exact hperm.nodup_iff.mpr (List.nodup_cons.mpr ⟨hfd, hin.nodup⟩)

end Hand

end Skunk.BesUtils
