import Skunk.Effect.Trace
import Skunk.NetCDF.Dap
import Mathlib.Data.Finset.Lattice.Fold
import Mathlib.Order.Lattice.Nat

/-!
# Opening, reading and closing

The rest of the netCDF library: calls that read data, and `nc_open` and `nc_close`. A program over
`ncAccess` can do everything with an open file but open or close one; a program over `ncCalls` can do
all of it.

`NcWorld` is a library that may do anything allowed to it: any call may fail at any point, and the
answers are arbitrary. What it does keep is the set of open handles.
-/

namespace Skunk.NetCDF

open Skunk.Effect

/-! ## Calls -/

/-- The type in memory that a call converts to; `native` is the variable's own. -/
inductive MemType
  | native | schar | short | float | double | text | string
  deriving DecidableEq, Repr

/-- What a reading call leaves in its buffer: bytes, or pointers to strings. -/
structure NcData where
  bytes : List UInt8
  strings : List String
  deriving DecidableEq

/-- Nothing. -/
def NcData.empty : NcData := ⟨[], []⟩

/-- The calls that use an open file. `room` is the size of the buffer in bytes. -/
inductive NcAccess
  | inquire (q : NcInquiry)
  | ncGetVar (ncid varid : Nat) (mem : MemType) (room : Nat)
  | ncGetVar1 (ncid varid : Nat) (cor : List Nat) (mem : MemType) (room : Nat)
  | ncGetVara (ncid varid : Nat) (cor edg : List Nat) (mem : MemType) (room : Nat)
  | ncGetVars (ncid varid : Nat) (cor edg : List Nat) (step : List Int) (mem : MemType)
      (room : Nat)
  | ncGetAtt (ncid : Nat) (varid : Option Nat) (name : String) (room : Nat)
  | ncFreeString (n : Int)

/-- The out-parameters of these calls. -/
@[reducible] def NcAccess.Out : NcAccess → Type
  | .inquire q => q.Out
  | .ncFreeString _ => Unit
  | _ => NcData

/-- Calls that use an open file, as an interface. -/
abbrev ncAccess : Interface where
  Call := NcAccess
  Reply := fun c => NcReply c.Out

inductive NcCall
  | access (c : NcAccess)
  | ncOpen (path : String)
  | ncClose (ncid : Nat)

/-- The out-parameters: `nc_open` leaves a handle. -/
@[reducible] def NcCall.Out : NcCall → Type
  | .access c => c.Out
  | .ncOpen _ => Nat
  | .ncClose _ => Unit

abbrev ncCalls : Interface where
  Call := NcCall
  Reply := fun c => NcReply c.Out

/-- Inquiries are among the calls that use a file. -/
def inquiries : Embedding ncInquiry ncAccess := ⟨.inquire, fun _ r => r⟩

/-- The calls that use a file are among all calls. -/
def accesses : Embedding ncAccess ncCalls := ⟨.access, fun _ r => r⟩

/-! ## Functions that read -/

/-- A function of the handler that works on an open file and may throw. -/
abbrev Acc (α : Type) : Type := Throwing ncAccess NcError α

/-- A function of the handler that opens and closes files itself. -/
abbrev Session (α : Type) : Type := Throwing ncCalls NcError α

def acc (c : NcAccess) : Acc (NcReply c.Out) := @Throwing.request ncAccess NcError c

/-- Make a call and throw `e` of the status unless that is `NC_NOERR`. -/
def accOrThrow (c : NcAccess) (e : Int → NcError) : Acc c.Out := do
  let r ← acc c
  if r.status ≠ ncNoErr then throw (e r.status)
  return r.out

/-- A function that inquires, where files are read. -/
def inquiring {α : Type} (x : Inq α) : Acc α := Throwing.lift inquiries x

/-- A function that works on an open file, where files are opened. -/
def accessing {α : Type} (x : Acc α) : Session α := Throwing.lift accesses x

/-- `nc_open(path, NC_NOWRITE, &ncid)`; throws `e` of the status unless that is `NC_NOERR`. -/
def openOrThrow (path : String) (e : Int → NcError) : Session Nat := do
  let r ← @Throwing.request ncCalls NcError (.ncOpen path)
  if r.status ≠ ncNoErr then throw (e r.status)
  return r.out

/-- `nc_close(ncid)`: its status. -/
def closeFile (ncid : Nat) : Session Int := do
  let r ← @Throwing.request ncCalls NcError (.ncClose ncid)
  return r.status

/-- Open `path`, use the file and close it. Nothing closes it when `use` throws. -/
def usingFile {α : Type} (path : String) (openError : Int → NcError) (closeError : NcError)
    (use : Nat → Acc α) : Session α := do
  let ncid ← openOrThrow path openError
  let a ← accessing (use ncid)
  let status ← closeFile ncid
  if status ≠ ncNoErr then throw closeError
  return a

theorem every_accOrThrow {P : NcAccess → Prop} {c : NcAccess} (h : P c) (e : Int → NcError) :
    @Throwing.Every ncAccess NcError (no_index c.Out) P (accOrThrow c e) := by
  have hacc : @Throwing.Every ncAccess NcError (NcReply c.Out) P (acc c) := ⟨h, fun _ => trivial⟩
  refine Throwing.Every.bind hacc fun r => ?_
  by_cases hs : r.status ≠ ncNoErr
  · rw [if_pos hs]
    exact Throwing.Every.bind (Throwing.every_throw _) fun _ => Throwing.every_pure _
  · rw [if_neg hs]
    exact Throwing.every_pure _

theorem every_inquiring {P : NcAccess → Prop} (hP : ∀ q, P (.inquire q)) {α : Type} (x : Inq α) :
    Throwing.Every P (inquiring x) :=
  Throwing.Every.lift (Throwing.Every.of_forall hP x)

section Eval

variable {lib : (c : NcAccess) → NcReply c.Out}

theorem eval_acc (c : NcAccess) :
    @Throwing.eval ncAccess NcError (no_index (NcReply c.Out)) lib (acc c) = .ok (lib c) := rfl

theorem eval_accOrThrow (c : NcAccess) (e : Int → NcError) :
    @Throwing.eval ncAccess NcError (no_index c.Out) lib (accOrThrow c e) =
      if (lib c).status = ncNoErr then .ok (lib c).out else .error (e (lib c).status) := by
  rw [accOrThrow, Throwing.eval_bind, eval_acc, ok_bind]
  by_cases hs : (lib c).status = ncNoErr <;> simp [hs]

theorem eval_accOrThrow_ok {c : NcAccess} {a : c.Out} (e : Int → NcError) (h : lib c = .ok a) :
    @Throwing.eval ncAccess NcError (no_index c.Out) lib (accOrThrow c e) = .ok a := by
  rw [eval_accOrThrow, h]
  rfl

theorem everyMade_accOrThrow {P : NcAccess → Prop} {c : NcAccess} {e : Int → NcError} :
    @Throwing.EveryMade ncAccess NcError (no_index c.Out) lib P (accOrThrow c e) ↔ P c := by
  have hacc : @Throwing.EveryMade ncAccess NcError (NcReply c.Out) lib P (acc c) ↔ P c :=
    and_iff_left trivial
  rw [accOrThrow, Throwing.everyMade_bind]
  refine (and_iff_left ?_).trans hacc
  intro r _
  split <;> trivial

/-- The library answers inquiries about the dataset `f` as that is. -/
def Reports (f : NcFile) (lib : (c : NcAccess) → NcReply c.Out) : Prop :=
  ∀ q, lib (.inquire q) = f.answer q

theorem Reports.eval {f : NcFile} (h : Reports f lib) {q : NcInquiry} {a : q.Out} (e : Int → NcError)
    (ha : f.answer q = .ok a) :
    @Throwing.eval ncAccess NcError (no_index q.Out) lib (accOrThrow (.inquire q) e) = .ok a :=
  eval_accOrThrow_ok e ((h q).trans ha)

end Eval

/-! ## A library that opens every file -/

/-- It answers the other calls like `lib`. -/
def opening (lib : (c : NcAccess) → NcReply c.Out) : (c : NcCall) → NcReply c.Out
  | .access c => lib c
  | .ncOpen _ => (.ok 1 : NcReply Nat)
  | .ncClose _ => .ok ()

section Opening

variable {lib : (c : NcAccess) → NcReply c.Out} {α : Type} {path : String} {openError : Int → NcError}
  {closeError : NcError}

theorem eval_usingFile (use : Nat → Acc α) :
    Throwing.eval (opening lib) (usingFile path openError closeError use) = Throwing.eval lib (use 1) := by
  have hopen : Throwing.eval (opening lib) (openOrThrow path openError) = .ok 1 := rfl
  have hclose : Throwing.eval (opening lib) (closeFile 1) = .ok ncNoErr := rfl
  have huse : Throwing.eval (opening lib) (accessing (use 1)) = Throwing.eval lib (use 1) :=
    Throwing.eval_lift accesses _ _
  rw [usingFile, Throwing.eval_bind, hopen, ok_bind, Throwing.eval_bind, huse]
  cases Throwing.eval lib (use 1) with
  | error e => rfl
  | ok a =>
      rw [ok_bind, Throwing.eval_bind, hclose]
      rfl

/-- Between `nc_open` and `nc_close` the calls are those of `use`. -/
theorem everyMade_usingFile {P : NcCall → Prop} (hopen : P (.ncOpen path)) (hclose : P (.ncClose 1))
    (use : Nat → Acc α) :
    Throwing.EveryMade (opening lib) P (usingFile path openError closeError use) ↔
      Throwing.EveryMade lib (fun c => P (.access c)) (use 1) := by
  have hopened : Throwing.EveryMade (opening lib) P (openOrThrow path openError) := ⟨hopen, trivial⟩
  have heval : Throwing.eval (opening lib) (openOrThrow path openError) = .ok 1 := rfl
  rw [usingFile, Throwing.everyMade_bind_ok hopened heval, Throwing.everyMade_bind]
  refine (and_iff_left ?_).trans (Throwing.everyMade_lift accesses _)
  intro a _
  exact ⟨hclose, trivial⟩

end Opening

/-! ## A library that may fail at any point -/

/-- The state of the library. Its `n`-th call is answered by `answers n` or, for `nc_open` and
`nc_close`, has the status `status n`. -/
structure NcWorld where
  answers : Nat → (c : NcAccess) → NcReply c.Out
  status : Nat → Int
  calls : Nat
  handles : Finset Nat

namespace NcWorld

def tick (w : NcWorld) : NcWorld := { w with calls := w.calls + 1 }

def nextStatus (w : NcWorld) : Int := w.status w.calls

def fresh (w : NcWorld) : Nat := w.handles.sup id + 1

def opened (w : NcWorld) : NcWorld := { w.tick with handles := insert w.fresh w.handles }

def closed (w : NcWorld) (ncid : Nat) : NcWorld :=
  { w.tick with handles := w.handles.erase ncid }

/-- What the library does. Closing a handle that is not open is an error. -/
def step : (c : NcCall) → NcWorld → NcReply c.Out × NcWorld
  | .access c, w => (w.answers w.calls c, w.tick)
  | .ncOpen _, w =>
    if w.nextStatus = ncNoErr then (.ok w.fresh, w.opened) else (.fail w.nextStatus 0, w.tick)
  | .ncClose ncid, w =>
    if ncid ∉ w.handles then (.fail ncEBadId (), w.tick)
    else if w.nextStatus = ncNoErr then (.ok (), w.closed ncid)
    else (.fail w.nextStatus (), w.tick)

theorem fresh_notMem (w : NcWorld) : w.fresh ∉ w.handles := by
  intro hmem
  have hle : w.fresh ≤ w.handles.sup id := Finset.le_sup (f := id) hmem
  exact Nat.not_succ_le_self _ hle

@[simp] theorem handles_tick (w : NcWorld) : w.tick.handles = w.handles := rfl

@[simp] theorem handles_opened (w : NcWorld) :
    w.opened.handles = insert w.fresh w.handles := rfl

@[simp] theorem handles_closed (w : NcWorld) (ncid : Nat) :
    (w.closed ncid).handles = w.handles.erase ncid := rfl

section Exec

variable {α β : Type}

/-- The outcome of a session, and the world after it. -/
def exec (x : Session α) (w : NcWorld) : Except NcError α × NcWorld :=
  Throwing.run (I := ncCalls) step x w

@[simp] theorem exec_pure (a : α) (w : NcWorld) : exec (pure a) w = (.ok a, w) := rfl

@[simp] theorem exec_throw (e : NcError) (w : NcWorld) :
    exec (throw e : Session α) w = (.error e, w) := rfl

@[simp] theorem exec_ofExcept (x : Except NcError α) (w : NcWorld) :
    exec (Throwing.ofExcept x) w = (x, w) := rfl

theorem exec_bind_ok {x : Session α} {f : α → Session β} {w w' : NcWorld} {a : α}
    (h : exec x w = (.ok a, w')) : exec (x >>= f) w = exec (f a) w' :=
  Throwing.run_bind_ok (I := ncCalls) step h

theorem exec_bind_error {x : Session α} {f : α → Session β} {w w' : NcWorld} {e : NcError}
    (h : exec x w = (.error e, w')) : exec (x >>= f) w = (.error e, w') :=
  Throwing.run_bind_error (I := ncCalls) step h

/-- Using a file opens and closes none. -/
theorem handles_exec_accessing (x : Acc α) (w : NcWorld) :
    (exec (accessing x) w).2.handles = w.handles := by
  rw [exec, accessing, Throwing.run_lift]
  have hcall : ∀ (c : NcAccess) (w' : NcWorld), w'.handles = w.handles →
      (accesses.restrict step c w').2.handles = w.handles := fun _ _ h => h
  exact Throwing.run_preserves (accesses.restrict step) (P := fun w' => w'.handles = w.handles)
    hcall x w rfl

end Exec

end NcWorld

end Skunk.NetCDF
