import Skunk.NetCDF.Library

/-!
# The DAP side of the handler

The variables that the handler builds (libdap's `BaseType` and the `NC...` classes derived from it),
the exceptions it throws, and the options of `DataAccessNetCDF`.
-/

namespace Skunk.NetCDF

open Skunk.Effect

/-- The static options of `DataAccessNetCDF`; all are false unless something sets them. The last field is
the compiler's: of the arguments `bt->name()` and `bt.release()` of one call, C++ leaves open which is
evaluated first. -/
structure Config where
  showSharedDims : Bool := false
  ignoreUnknownTypes : Bool := false
  promoteByteToShort : Bool := false
  releaseFirst : Bool := false
  deriving DecidableEq, Repr

/-- How a function of the handler ends when it does not return. `undefined` is not an exception: it
marks what C++ leaves undefined, a write past a buffer or a null pointer followed. -/
inductive NcError
  | error (code : Option Int) (msg : String)
  | internalErr (msg : String)
  | badCast
  | undefined
  deriving DecidableEq, Repr

/-! ## Variables -/

/-- The classes of scalar variables. -/
inductive ScalarClass
  | ncStr | ncByte | ncInt16 | ncUInt16 | ncInt32 | ncUInt32 | ncFloat32 | ncFloat64
  deriving DecidableEq, Repr

/-- A dimension of a DAP array, with the constraint on it. -/
structure ArrayDim where
  size : Nat
  name : String
  start : Int
  stride : Int
  stop : Int
  deriving DecidableEq, Repr

/-- The dimension that `append_dim(size, name)` adds: all of it is selected. The name is empty for
`append_dim(size)`. -/
def ArrayDim.whole (size : Nat) (name : String) : ArrayDim := ⟨size, name, 0, 1, size - 1⟩

@[simp] theorem ArrayDim.size_whole (size : Nat) (name : String) :
    (ArrayDim.whole size name).size = size := rfl

/-- A DAP variable. `dataset` is the file that it will be read from. -/
inductive BaseType
  | scalar (cls : ScalarClass) (name dataset : String)
  | ncArray (name dataset : String) (var : BaseType) (dims : List ArrayDim)
  | ncStructure (name dataset : String) (vars : List BaseType)
  | ncGrid (name dataset : String) (arrayVar : BaseType) (maps : List BaseType)

namespace BaseType

def name : BaseType → String
  | .scalar _ n _ => n
  | .ncArray n _ _ _ => n
  | .ncStructure n _ _ => n
  | .ncGrid n _ _ _ => n

def setName (n : String) : BaseType → BaseType
  | .scalar c _ d => .scalar c n d
  | .ncArray _ d v dims => .ncArray n d v dims
  | .ncStructure _ d vs => .ncStructure n d vs
  | .ncGrid _ d a ms => .ncGrid n d a ms

/-- `new NCArray(name, dataset, v)`: an array without dimensions. An array as template gives its
own template and its dimensions to the new one. -/
def newNCArray (name dataset : String) : BaseType → BaseType
  | .ncArray _ _ v dims => .ncArray name dataset v dims
  | v => .ncArray name dataset v []

/-- `append_dim`. Only arrays have it. -/
def appendDim (b : BaseType) (dim : ArrayDim) : BaseType :=
  match b with
  | .ncArray n d v dims => .ncArray n d v (dims ++ [dim])
  | b => b

def appendDims (b : BaseType) (dims : List ArrayDim) : BaseType := dims.foldl appendDim b

@[simp] theorem appendDims_ncArray (n d : String) (v : BaseType) (dims more : List ArrayDim) :
    (ncArray n d v dims).appendDims more = ncArray n d v (dims ++ more) := by
  induction more generalizing dims with
  | nil => simp [appendDims]
  | cons x xs ih =>
      have h := ih (dims ++ [x])
      simpa [appendDims, appendDim] using h

@[simp] theorem newNCArray_scalar (n d : String) (c : ScalarClass) (m e : String) :
    newNCArray n d (.scalar c m e) = .ncArray n d (.scalar c m e) [] := rfl

@[simp] theorem newNCArray_ncStructure (n d m e : String) (vs : List BaseType) :
    newNCArray n d (.ncStructure m e vs) = .ncArray n d (.ncStructure m e vs) [] := rfl

@[simp] theorem newNCArray_ncArray (n d m e : String) (v : BaseType) (dims : List ArrayDim) :
    newNCArray n d (.ncArray m e v dims) = .ncArray n d v dims := rfl

/-- Whatever the template, it is an array. -/
theorem newNCArray_eq (n d : String) (b : BaseType) :
    ∃ v dims, newNCArray n d b = .ncArray n d v dims := by
  cases b <;> exact ⟨_, _, rfl⟩

@[simp] theorem name_scalar (c : ScalarClass) (n d : String) : (scalar c n d).name = n := rfl

end BaseType

/-- The class that stands for an atomic type; the 64-bit integers have none. -/
def scalarClass (cfg : Config) : AtomicType → Option ScalarClass
  | .string => some .ncStr
  | .char => some .ncStr
  | .byte => some (if cfg.promoteByteToShort then .ncInt16 else .ncByte)
  | .ubyte => some .ncByte
  | .short => some .ncInt16
  | .ushort => some .ncUInt16
  | .int => some .ncInt32
  | .uint => some .ncUInt32
  | .float => some .ncFloat32
  | .double => some .ncFloat64
  | .int64 => none
  | .uint64 => none

/-! ## Functions that inquire -/

/-- A function of the handler that inquires about the open file and may throw. -/
abbrev Inq (α : Type) : Type := Throwing ncInquiry NcError α

def inq (c : NcInquiry) : Inq (NcReply c.Out) := @Throwing.request ncInquiry NcError c

/-- Make an inquiry and throw `e` of the status unless that is `NC_NOERR`. -/
def inqOrThrow (c : NcInquiry) (e : Int → NcError) : Inq c.Out := do
  let r ← inq c
  if r.status ≠ ncNoErr then throw (e r.status)
  return r.out

/-- Make an inquiry whose status nobody looks at, into buffers that hold nothing yet: reading them
after a failure is undefined. -/
def inqUnchecked (c : NcInquiry) : Inq c.Out := inqOrThrow c fun _ => .undefined

/-- A name arrives in a buffer of `size` chars, which must have room for the final NUL. -/
def nameBuf (size : Nat) (name : String) : Except NcError String :=
  if name.utf8ByteSize < size then .ok name else .error .undefined

def deref {α : Type} : Option α → Except NcError α
  | some a => .ok a
  | none => .error .undefined

@[simp] theorem deref_some {α : Type} (a : α) : deref (some a) = .ok a := rfl

variable (lib : (c : NcInquiry) → NcReply c.Out)

@[simp] theorem eval_inq (c : NcInquiry) :
    @Throwing.eval ncInquiry NcError (no_index (NcReply c.Out)) lib (inq c) = .ok (lib c) := rfl

theorem eval_inqOrThrow (c : NcInquiry) (e : Int → NcError) :
    @Throwing.eval ncInquiry NcError (no_index c.Out) lib (inqOrThrow c e) =
      if (lib c).status = ncNoErr then .ok (lib c).out else .error (e (lib c).status) := by
  simp only [inqOrThrow, Throwing.eval_bind, eval_inq]
  by_cases hs : (lib c).status = ncNoErr <;> simp [hs]

variable {lib}

theorem eval_inqOrThrow_ok {c : NcInquiry} {a : c.Out} (e : Int → NcError) (h : lib c = .ok a) :
    @Throwing.eval ncInquiry NcError (no_index c.Out) lib (inqOrThrow c e) = .ok a := by
  rw [eval_inqOrThrow, h]
  rfl

end Skunk.NetCDF
