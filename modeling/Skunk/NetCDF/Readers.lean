import Mathlib.Algebra.Group.Int.Defs
import Skunk.NetCDF.Access

/-!
# `read()`: the variable classes

Every variable class reads its own values: `read` opens the dataset, finds the variable by name, reads
into a buffer, hands parts of the buffer to the variables (`val2buf`) and closes the dataset again.
What happens between `nc_open` and `nc_close` is the `values` of each class.

`val2buf` is recorded as a `Fill`: which variable gets which part of the buffer. Buffers are as large
as memory allows; a count is an `int` or a `long` where the source has one, and wraps around.
-/

namespace Skunk.NetCDF

open Skunk.Effect

/-! ## Integers -/

def toSizeT (x : Int) : Nat := (x % 2 ^ 64).toNat

def toLong (x : Int) : Int := x.bmod (2 ^ 64)

def toInt (x : Int) : Int := x.bmod (2 ^ 32)

/-! ## What is stored where -/

/-- From a variable to one inside it. -/
inductive Hop
  | member (name : String)
  | element (i : Nat)
  deriving DecidableEq, Repr

/-- What `val2buf` gets, as a part of the buffer that starts at an offset: its bytes as they are,
signed bytes as shorts, rows of characters as strings, or pointers to strings. -/
inductive Stored
  | raw (offset : Int)
  | shorts (offset : Int) (count : Int)
  | rows (offset : Int) (count width : Int)
  | pointers (offset : Int) (count : Int)
  deriving DecidableEq, Repr

/-- The variable at the end of `path` gets `stored`. -/
structure Fill where
  path : List Hop
  stored : Stored
  deriving DecidableEq, Repr

/-- The same, seen from a variable that contains this one. -/
def Fill.under (hops : List Hop) (f : Fill) : Fill := { f with path := hops ++ f.path }

/-- The buffer, once something has been read into it, and what was stored from it. -/
abbrev Values : Type := Option NcData × List Fill

/-! ## The shape of `read` -/

def openError (dataset : String) (status : Int) : NcError :=
  .error (some status) ("Could not open the dataset's file (" ++ dataset ++ ")")

/-- `read`: nothing if the values are there already; else open the dataset, get the values, close
it. -/
def readDataset (dataset : String) (readP : Bool) (values : Nat → Acc Values) : Session Values :=
  if readP then return (none, [])
  else usingFile dataset (openError dataset) (.internalErr "Could not close the dataset!") values

/-- One value for the variable itself. -/
def oneValue (d : NcData) : Values := (some d, [⟨[], .raw 0⟩])

/-! ## Scalars -/

namespace NCByte

def values (name : String) (ncid : Nat) : Acc Values := do
  let varid ← accOrThrow (.inquire (.ncInqVarid ncid name)) fun status =>
    .internalErr ("Could not get variable ID for: " ++ name ++ ". (error: " ++ toString status
      ++ ").")
  let d ← accOrThrow (.ncGetVar ncid varid .native 1) fun status =>
    .error (some status) ("Could not read the variable '" ++ name ++ "'.")
  return oneValue d

def read (name dataset : String) (readP : Bool) : Session Values :=
  readDataset dataset readP (values name)

end NCByte

/-- The exception for a scalar whose data cannot be read. -/
def couldNotRead (name : String) (status : Int) : NcError :=
  .error (some status) ("Could not read the variable `" ++ name ++ "'.")

/-- The exception for a variable that `nc_inq_var` does not find. -/
def couldNotInquire (name : String) (status : Int) : NcError :=
  .error (some status) ("Could not read information about the variable `" ++ name ++ "'.")

/-- `nc_inq_varid`, then `nc_get_var` into `room` bytes. -/
def wholeScalar (idMsg name : String) (room : Nat) (ncid : Nat) : Acc Values := do
  let varid ← accOrThrow (.inquire (.ncInqVarid ncid name)) fun status => .error (some status) idMsg
  let d ← accOrThrow (.ncGetVar ncid varid .native room) (couldNotRead name)
  return oneValue d

namespace NCInt32

def values (name : String) (ncid : Nat) : Acc Values :=
  wholeScalar "Could not get variable ID." name 8 ncid

def read (name dataset : String) (readP : Bool) : Session Values :=
  readDataset dataset readP (values name)

end NCInt32

namespace NCUInt16

def values (name : String) (ncid : Nat) : Acc Values :=
  wholeScalar "Could not get variable ID." name 2 ncid

def read (name dataset : String) (readP : Bool) : Session Values :=
  readDataset dataset readP (values name)

end NCUInt16

namespace NCUInt32

def values (name : String) (ncid : Nat) : Acc Values :=
  wholeScalar "Could not get variable ID during read." name 4 ncid

def read (name dataset : String) (readP : Bool) : Session Values :=
  readDataset dataset readP (values name)

end NCUInt32

/-- `nc_inq_varid` and `nc_inq_var`, then a check of the type, then `nc_get_var1_...` at the corner. -/
def typedScalar (idMsg name : String) (accepts : NcType → Bool) (typeMsg : String) (mem : MemType)
    (room : Nat) (ncid : Nat) : Acc Values := do
  let varid ← accOrThrow (.inquire (.ncInqVarid ncid name)) fun status => .error (some status) idMsg
  let v ← accOrThrow (.inquire (.ncInqVar ncid varid)) (couldNotInquire name)
  if ¬ accepts v.type then throw (.internalErr typeMsg)
  let d ← accOrThrow (.ncGetVar1 ncid varid (List.replicate v.ndims 0) mem room) (couldNotRead name)
  return oneValue d

/-- `datatype == t`. -/
def NcType.is (t : AtomicType) : NcType → Bool
  | .atomic t' => t = t'
  | _ => false

namespace NCInt16

def values (cfg : Config) (name : String) (ncid : Nat) : Acc Values :=
  let idMsg := "Could not get variable ID for '" ++ name ++ "'."
  if cfg.promoteByteToShort then
    typedScalar idMsg name (fun type => type.is .short || type.is .byte)
      "Entered NCInt16::read() with non-Int16 or Byte variable (NC.PromoteByteToShort set)!"
      .schar 1 ncid
  else
    typedScalar idMsg name (NcType.is .short)
      "Entered NCInt16::read() with non-Int16 variable (NC.PromoteByteToShort not set)!"
      .short 2 ncid

def read (cfg : Config) (name dataset : String) (readP : Bool) : Session Values :=
  readDataset dataset readP (values cfg name)

end NCInt16

namespace NCFloat32

def values (name : String) (ncid : Nat) : Acc Values :=
  typedScalar ("Could not get variable ID for '" ++ name ++ "'.") name (NcType.is .float)
    "Entered NCFloat32::read() with non-float variable!" .float 4 ncid

def read (name dataset : String) (readP : Bool) : Session Values :=
  readDataset dataset readP (values name)

end NCFloat32

namespace NCFloat64

def values (name : String) (ncid : Nat) : Acc Values :=
  typedScalar "Could not get variable ID." name (NcType.is .double)
    "Entered NCFloat64::read() with non-float64 variable!" .double 8 ncid

def read (name dataset : String) (readP : Bool) : Session Values :=
  readDataset dataset readP (values name)

end NCFloat64

namespace NCStr

/-- The exception for a string whose data cannot be read. -/
def couldNotReadData (name : String) (status : Int) : NcError :=
  .error (some status) ("Could not read data from the variable `" ++ name ++ "'.")

def values (name : String) (ncid : Nat) : Acc Values := do
  let varid ← accOrThrow (.inquire (.ncInqVarid ncid name)) fun status =>
    .error (some status) "Could not get variable ID."
  let v ← accOrThrow (.inquire (.ncInqVar ncid varid)) (couldNotInquire name)
  match v.type with
  | .atomic .char =>
    if v.ndims = 1 then
      let dimIds ← accOrThrow (.inquire (.ncInqVardimid ncid varid)) fun status =>
        .error (some status) ("Could not read the dimension id of `" ++ name ++ "'.")
      let dimId ← Throwing.ofExcept (deref dimIds.head?)
      let dimSize ← accOrThrow (.inquire (.ncInqDimlen ncid dimId)) fun status =>
        .error (some status) ("Could not read  the dimension size of `" ++ name ++ "'.")
      let d ← accOrThrow (.ncGetVara ncid varid [0] [dimSize] .text (dimSize + 1))
        (couldNotReadData name)
      return (some d, [⟨[], .rows 0 1 dimSize⟩])
    else if v.ndims = 0 then
      let d ← accOrThrow (.ncGetVar ncid varid .text 2) (couldNotReadData name)
      return (some d, [⟨[], .rows 0 1 1⟩])
    else
      throw (.error none ("Multidimensional character array found in string class while reading '"
        ++ name ++ "'."))
  | .atomic .string =>
    let d ← accOrThrow (.ncGetVar1 ncid varid (List.replicate v.ndims 0) .string 8)
      (couldNotReadData name)
    let _ ← acc (.ncFreeString 1)
    return (some d, [⟨[], .pointers 0 1⟩])
  | _ => throw (.internalErr "Entered String read method with an unrecognized datatype!")

/-- `NCStr::read` returns without `nc_close`. -/
def read (name dataset : String) (readP : Bool) : Session Values := do
  if readP then return (none, [])
  else
    let ncid ← openOrThrow dataset (openError dataset)
    accessing (values name ncid)

end NCStr

/-! ## Arrays -/

/-- The hyperslab arrays: `capacity` entries each, those past the lists being zero. -/
structure Slab where
  capacity : Nat
  cor : List Nat
  edg : List Nat
  step : List Int
  hasStride : Bool

/-- `MAX_NC_DIMS`, the size of the arrays in `NCArray::read`. -/
def maxNcDims : Nat := 1024

/-- What is written for one dimension. -/
structure SlabDim where
  cor : Nat
  edg : Nat
  step : Int
  deriving DecidableEq, Repr

/-- `((stop - start) / stride) + 1`, of `int`s. There is no quotient by zero, and that of the smallest `int`
by `-1` is no `int`. -/
def edge (start stride stop : Int) : Except NcError Int :=
  let length := toInt (stop - start)
  if stride = 0 ∨ stride = -1 ∧ length = -2 ^ 31 then .error .undefined
  else .ok (toInt (Int.tdiv length stride + 1))

/-- One round of the loop of `format_constraint`: `start`, `stride` and `stop` are `int`s there. -/
def ArrayDim.format (d : ArrayDim) : Except NcError SlabDim := do
  let start := toInt d.start
  let stride := toInt d.stride
  let stop := toInt d.stop
  let count ← edge start stride stop
  return ⟨toSizeT start, toSizeT count, stride⟩

/-- `format_constraint`: the corners, edges and strides, and the number of elements. -/
def formatConstraint (capacity : Nat) (dims : List ArrayDim) : Except NcError (Slab × Int) := do
  let written ← dims.mapM ArrayDim.format
  return (⟨capacity, written.map SlabDim.cor, written.map SlabDim.edg, written.map SlabDim.step,
      written.any fun w => w.step ≠ 1⟩,
    written.foldl (fun nels w => toLong (nels * w.edg)) 1)

/-- Entry `n` of an array that is zero past the list becomes `a`. -/
def setEntry {α : Type} (zero : α) (n : Nat) (a : α) (l : List α) : List α :=
  (l ++ List.replicate (n + 1 - l.length) zero).set n a

/-- `cor[n] = 0; edg[n] = size; if (has_stride) step[n] = 1`. -/
def Slab.wholeDim (s : Slab) (n size : Nat) : Except NcError Slab :=
  if n < s.capacity then
    .ok { s with
      cor := setEntry 0 n 0 s.cor
      edg := setEntry 0 n size s.edg
      step := if s.hasStride then setEntry 0 n 1 s.step else s.step }
  else .error .undefined

/-- `nc_get_vars` or `nc_get_vara`, as `has_stride` says. -/
def getSlab (ncid varid : Nat) (s : Slab) (mem : MemType) (room : Nat) (e : Int → NcError) :
    Acc NcData :=
  if s.hasStride then accOrThrow (.ncGetVars ncid varid s.cor s.edg s.step mem room) e
  else accOrThrow (.ncGetVara ncid varid s.cor s.edg mem room) e

/-- Read into the buffer unless it has values. -/
def unlessThere (values : Option NcData) (x : Acc NcData) : Acc NcData :=
  match values with
  | some d => pure d
  | none => x

/-- The sizes of a variable's dimensions, one inquiry after the other. -/
def dimSizes (name : String) (ncid : Nat) : List Nat → Acc (List Nat)
  | [] => pure []
  | d :: ds => do
    let size ← accOrThrow (.inquire (.ncInqDimlen ncid d)) fun status =>
      .error (some status) ("Could not read dimension information about the variable `" ++ name
        ++ "'.")
    let sizes ← dimSizes name ncid ds
    return size :: sizes

namespace NCArray

/-- `do_cardinal_array_read` of an array `name` with template `var`. A buffer in `values` means
`has_values`. -/
def doCardinalArrayRead (cfg : Config) (name : String) (var : BaseType) (ncid varid : Nat)
    (datatype : NcType) (values : Option NcData) (valuesOffset nels : Int) (slab : Slab) :
    Acc Values := do
  let size ← accOrThrow (.inquire (.ncInqType ncid datatype)) fun status =>
    .error (some status) "Could not get the size for the type."
  let room := toSizeT (nels * size)
  match datatype with
  | .atomic .float | .atomic .double | .atomic .short | .atomic .int
  | .atomic .ushort | .atomic .uint | .atomic .ubyte =>
    let d ← unlessThere values <| getSlab ncid varid slab .native room fun status =>
      .error (some status) ("Could not get the value for Array variable '" ++ name ++ "'.")
    return (some d, [⟨[], .raw valuesOffset⟩])
  | .atomic .byte =>
    let d ← unlessThere values <| getSlab ncid varid slab .native room fun status =>
      .error (some status) ("Could not get the value for variable '" ++ name
        ++ "' (NCArray::do_cardinal_array_read)")
    if cfg.promoteByteToShort then
      match var with
      | .scalar .ncInt16 _ _ => return (some d, [⟨[], .shorts valuesOffset nels⟩])
      | _ => throw (.error none
          ("NC.PromoteByteToShort is set but the underlying array type is still a Byte: " ++ name
            ++ "."))
    else return (some d, [⟨[], .raw valuesOffset⟩])
  | .atomic .char =>
    let v ← accOrThrow (.inquire (.ncInqVar ncid varid)) (couldNotInquire name)
    if v.ndims < 2 then
      throw (.error none ("A one-dimensional NC_CHAR array should now map to a DAP string: '" ++ name
        ++ "'."))
    let vdims ← dimSizes name ncid v.dimIds
    let nthDimSize := toInt ((vdims.getLast?.getD 0 : Nat) : Int)
    let slab ← Throwing.ofExcept (slab.wholeDim (v.ndims - 1) (toSizeT nthDimSize))
    let d ← unlessThere values <|
      getSlab ncid varid slab .text (toSizeT (toInt (nels * nthDimSize) * size)) fun status =>
        .error (some status) ("Could not read the variable '" ++ name ++ "'.")
    return (some d, [⟨[], .rows valuesOffset nels nthDimSize⟩])
  | .atomic .string =>
    let d ← unlessThere values <| getSlab ncid varid slab .string room (couldNotRead name)
    let _ ← acc (.ncFreeString nels)
    return (some d, [⟨[], .pointers valuesOffset nels⟩])
  | _ => throw (.internalErr ("Unknown data type for the variable '" ++ name ++ "'."))

end NCArray

/-! ## Structures -/

/-- The exception for an inquiry about a user-defined type that fails. -/
def userTypeError (status : Int) : NcError :=
  .internalErr ("Could not get information about a user-defined type (" ++ toString status ++ ").")

namespace NCStructure

variable (cfg : Config) (lookup : BaseType → String → Option BaseType)

mutual
/-- `do_structure_read`; `lookup s n` is the member of `s` that `s.var(n)` finds. -/
def doStructureRead (this : BaseType) (dataset : String) (ncid varid : Nat) :
    NcType → Option NcData → Int → Acc Values
  | .compound id typeName size fields, values, valuesOffset => do
    let datatype := NcType.compound id typeName size fields
    let _ ← accOrThrow (.inquire (.ncInqUserType ncid datatype)) userTypeError
    let d ← unlessThere values <| accOrThrow (.ncGetVar ncid varid .native size) fun status =>
      .error (some status) ("Could not get the value for variable '" ++ this.name ++ "'")
    let fills ← readFields this dataset ncid varid datatype d fields 0 valuesOffset
    return (some d, fills)
  | .vlen id typeName size, values, _ => do
    let _ ← accOrThrow (.inquire (.ncInqUserType ncid (.vlen id typeName size))) userTypeError
    return (values, [])
  | .opaqueBytes id typeName size, values, _ => do
    let _ ← accOrThrow (.inquire (.ncInqUserType ncid (.opaqueBytes id typeName size)))
      userTypeError
    return (values, [])
  | .enum id typeName base members, values, _ => do
    let _ ← accOrThrow (.inquire (.ncInqUserType ncid (.enum id typeName base members)))
      userTypeError
    return (values, [])
  | .atomic _, _, _ =>
    throw (.internalErr
      ("Found a DAP Structure bound to a non-user-defined type in the netcdf file " ++ dataset))

/-- The loop of `do_structure_read` over the fields of a compound. -/
def readFields (this : BaseType) (dataset : String) (ncid varid : Nat) (datatype : NcType)
    (d : NcData) : NcFields → Nat → Int → Acc (List Fill)
  | .nil, _, _ => pure []
  | .cons fieldName fieldOffset fieldType fieldSizes rest, i, valuesOffset => do
    let _ ← inquiring (inqUnchecked (.ncInqCompoundField ncid datatype i))
    let fills ←
      if isUserDefinedType fieldType then do
        let typeName ← inquiring (inqUnchecked (.ncInqCompoundName ncid fieldType))
        let child ← Throwing.ofExcept (deref (lookup this typeName))
        match child with
        | .ncStructure name childDataset vars =>
          let (_, fills) ← doStructureRead (.ncStructure name childDataset vars) childDataset ncid
            varid fieldType (some d) (toInt (fieldOffset + valuesOffset))
          pure (fills.map (Fill.under [.member typeName]))
        | _ => throw .badCast
      else do
        let child ← Throwing.ofExcept (deref (lookup this fieldName))
        match child with
        | .ncArray name _ var dims =>
          if fieldSizes.length < dims.length then throw .undefined
          let (slab, nels) ← Throwing.ofExcept (formatConstraint fieldSizes.length dims)
          -- `do_array_read` of a type that is not user-defined
          let (_, fills) ← NCArray.doCardinalArrayRead cfg name var ncid varid fieldType (some d)
            (toInt (fieldOffset + valuesOffset)) (toInt nels) slab
          pure (fills.map (Fill.under [.member fieldName]))
        | .scalar .. => pure [⟨[.member fieldName], .raw (fieldOffset + valuesOffset)⟩]
        | _ => throw (.internalErr
            "Expecting a netcdf user defined type or an array or a scalar.")
    let more ← readFields this dataset ncid varid datatype d rest (i + 1) valuesOffset
    return fills ++ more
end

def values (name dataset : String) (vars : List BaseType) (ncid : Nat) : Acc Values := do
  let varid ← accOrThrow (.inquire (.ncInqVarid ncid name)) fun status =>
    .internalErr ("Could not get variable ID for: " ++ name ++ ". (error: " ++ toString status
      ++ ").")
  let datatype ← accOrThrow (.inquire (.ncInqVartype ncid varid)) fun status =>
    .error (some status) ("Could not read data type information about : " ++ name ++ ". (error: "
      ++ toString status ++ ").")
  doStructureRead cfg lookup (.ncStructure name dataset vars) dataset ncid varid datatype none 0

def read (name dataset : String) (vars : List BaseType) (readP : Bool) : Session Values :=
  readDataset dataset readP (values cfg lookup name dataset vars)

end NCStructure

/-! ## Arrays of any type -/

namespace NCArray

variable (cfg : Config) (lookup : BaseType → String → Option BaseType)

/-- The loop of `do_array_read` over the fields of one element of a compound. -/
def readElement (element : BaseType) (ncid varid : Nat) (datatype : NcType) (size : Nat)
    (d : NcData) (valuesOffset nels : Int) (slab : Slab) (i : Nat) :
    NcFields → Nat → Acc (List Fill)
  | .nil, _ => pure []
  | .cons fieldName fieldOffset fieldType _ rest, j => do
    let _ ← inquiring (inqUnchecked (.ncInqCompoundField ncid datatype j))
    let fills ←
      if isUserDefinedType fieldType then do
        let typeName ← inquiring (inqUnchecked (.ncInqCompoundName ncid fieldType))
        let field ← Throwing.ofExcept (deref (lookup element typeName))
        match field with
        | .ncStructure name childDataset vars =>
          let (_, fills) ← NCStructure.doStructureRead cfg lookup
            (.ncStructure name childDataset vars) childDataset ncid varid fieldType (some d)
            (toInt (fieldOffset + valuesOffset + size * i))
          pure (fills.map (Fill.under [.element i, .member typeName]))
        | _ => throw .badCast
      else do
        let field ← Throwing.ofExcept (deref (lookup element fieldName))
        match field with
        | .ncArray name _ var _ =>
          -- the count and the hyperslab are those of the whole array
          let (_, fills) ← doCardinalArrayRead cfg name var ncid varid fieldType (some d)
            (toInt (fieldOffset + valuesOffset + size * i)) nels slab
          pure (fills.map (Fill.under [.element i, .member fieldName]))
        | .scalar .. =>
          pure [⟨[.element i, .member fieldName], .raw (i * size + fieldOffset)⟩]
        | _ => throw (.internalErr
            "Expecting a netcdf user defined type or an array or a scalar.")
    let more ← readElement element ncid varid datatype size d valuesOffset nels slab i rest (j + 1)
    return fills ++ more

/-- The loop of `do_array_read` over the elements of an array of compounds. -/
def readElements (element : BaseType) (ncid varid : Nat) (datatype : NcType) (size : Nat)
    (fields : NcFields) (d : NcData) (valuesOffset nels : Int) (slab : Slab) :
    List Nat → Acc (List Fill)
  | [] => pure []
  | i :: is => do
    let fills ← readElement cfg lookup element ncid varid datatype size d valuesOffset nels slab i
      fields 0
    let more ← readElements element ncid varid datatype size fields d valuesOffset nels slab is
    return fills ++ more

/-- `do_array_read` of an array `name` with template `var`. -/
def doArrayRead (name : String) (var : BaseType) (ncid varid : Nat) (datatype : NcType)
    (values : Option NcData) (valuesOffset nels : Int) (slab : Slab) : Acc Values := do
  match datatype with
  | .atomic _ =>
    doCardinalArrayRead cfg name var ncid varid datatype values valuesOffset nels slab
  | .compound _ _ size fields =>
    let _ ← accOrThrow (.inquire (.ncInqUserType ncid datatype)) userTypeError
    let d ← unlessThere values <|
      getSlab ncid varid slab .native (toSizeT (size * nels)) fun status =>
        .error (some status) ("Could not get the value for variable '" ++ name ++ "'")
    match var with
    | .ncStructure .. =>
      let fills ← readElements cfg lookup var ncid varid datatype size fields d valuesOffset nels
        slab (List.range nels.toNat)
      return (some d, fills)
    | _ =>
      -- the `dynamic_cast` of the first element gives a null pointer
      if 0 < nels then throw .undefined else return (some d, [])
  | .vlen .. =>
    let _ ← accOrThrow (.inquire (.ncInqUserType ncid datatype)) userTypeError
    if cfg.ignoreUnknownTypes then return (values, [])
    else throw (.error none "The netCDF handler does not currently support NC_VLEN attributes.")
  | .opaqueBytes _ _ size =>
    let _ ← accOrThrow (.inquire (.ncInqUserType ncid datatype)) userTypeError
    let v ← accOrThrow (.inquire (.ncInqVar ncid varid)) (couldNotInquire name)
    if v.ndims < 1 then
      throw (.error none ("A one-dimensional NC_OPAQUE array should now map to a DAP Byte: '"
        ++ name ++ "'."))
    let vdims ← dimSizes name ncid v.dimIds
    let nthDimSize := toInt ((vdims.getLast?.getD 0 : Nat) : Int)
    let slab ← Throwing.ofExcept (slab.wholeDim (v.ndims - 1) (toSizeT nthDimSize))
    let d ← unlessThere values <|
      getSlab ncid varid slab .native (toSizeT (size * nels)) fun status =>
        .error (some status) ("Could not get the value for variable '" ++ name ++ "' (NC_OPAQUE)")
    return (some d, [⟨[], .raw valuesOffset⟩])
  | .enum _ _ base _ =>
    let _ ← accOrThrow (.inquire (.ncInqUserType ncid datatype)) userTypeError
    let _ ← accOrThrow (.inquire (.ncInqEnum ncid datatype)) fun status =>
      .internalErr ("Could not get information about an enum(" ++ toString status ++ ").")
    doCardinalArrayRead cfg name var ncid varid (.atomic base) values valuesOffset nels slab

def values (name : String) (var : BaseType) (dims : List ArrayDim) (ncid : Nat) : Acc Values := do
  let varid ← accOrThrow (.inquire (.ncInqVarid ncid name)) fun status =>
    .internalErr ("Could not get variable ID for: " ++ name ++ ". (error: " ++ toString status
      ++ ").")
  let datatype ← accOrThrow (.inquire (.ncInqVartype ncid varid)) (couldNotInquire name)
  if maxNcDims < dims.length then throw .undefined
  let (slab, nels) ← Throwing.ofExcept (formatConstraint maxNcDims dims)
  doArrayRead cfg lookup name var ncid varid datatype none 0 (toInt nels) slab

def read (name dataset : String) (var : BaseType) (dims : List ArrayDim) (readP : Bool) :
    Session Values :=
  readDataset dataset readP (values cfg lookup name var dims)

end NCArray

/-! ## Grids, and every class -/

section Grids

variable (cfg : Config) (lookup : BaseType → String → Option BaseType)

/-- `read()` of every class but `NCGrid`. -/
def readPlain (v : BaseType) (readP : Bool) : Session Values :=
  match v with
  | .scalar .ncByte name dataset => NCByte.read name dataset readP
  | .scalar .ncInt16 name dataset => NCInt16.read cfg name dataset readP
  | .scalar .ncUInt16 name dataset => NCUInt16.read name dataset readP
  | .scalar .ncInt32 name dataset => NCInt32.read name dataset readP
  | .scalar .ncUInt32 name dataset => NCUInt32.read name dataset readP
  | .scalar .ncFloat32 name dataset => NCFloat32.read name dataset readP
  | .scalar .ncFloat64 name dataset => NCFloat64.read name dataset readP
  | .scalar .ncStr name dataset => NCStr.read name dataset readP
  | .ncArray name dataset var dims => NCArray.read cfg lookup name dataset var dims readP
  | .ncStructure name dataset vars => NCStructure.read cfg lookup name dataset vars readP
  | .ncGrid .. => return (none, [])

/-- A variable inside a Grid: `read_p()`, and whether `send_p()` or `is_in_selection()`. -/
structure Component where
  var : BaseType
  readP : Bool
  selected : Bool

/-- The components of a Grid in the order in which it reads them, the array and then the Maps. -/
def readComponents : List Component → Session (List Values)
  | [] => pure []
  | c :: cs => do
    if c.selected then
      let v ← readPlain cfg lookup c.var c.readP
      let vs ← readComponents cs
      return v :: vs
    else readComponents cs

def NCGrid.read (readP : Bool) (arrayVar : Component) (maps : List Component) :
    Session (List Values) :=
  if readP then return [] else readComponents cfg lookup (arrayVar :: maps)

end Grids

end Skunk.NetCDF
