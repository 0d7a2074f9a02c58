import Skunk.Effect.Prog
import Mathlib.Data.List.Nodup

/-!
# The netCDF library, as the handler sees it

The handler reads a netCDF file through `nc_inq_*` inquiries. Each call returns a status
(`NC_NOERR` is zero) and leaves a value in its out-parameters; `NcReply` carries both, so that code
which forgets to look at the status still finds something in its buffers.

A type identifier stands here for the type it names: `NcType` is the tree of a type, and inquiring
about a type reads the tree. Only the *status* of such an inquiry comes from the library.

`NcFile` is an open dataset and `NcFile.answer` a library that reports it faithfully.
-/

namespace Skunk.NetCDF

open Skunk.Effect

/-! ## Types -/

/-- The atomic netCDF types, `NC_BYTE` to `NC_STRING`. -/
inductive AtomicType
  | byte | char | short | int | float | double | ubyte | ushort | uint | int64 | uint64 | string
  deriving DecidableEq, Repr

/-- The value of the `nc_type` constant. -/
def AtomicType.code : AtomicType → Nat
  | .byte => 1
  | .char => 2
  | .short => 3
  | .int => 4
  | .float => 5
  | .double => 6
  | .ubyte => 7
  | .ushort => 8
  | .uint => 9
  | .int64 => 10
  | .uint64 => 11
  | .string => 12

mutual
/-- A netCDF type. User-defined types carry their identifier and their name. -/
inductive NcType
  | atomic (t : AtomicType)
  | compound (id : Nat) (name : String) (size : Nat) (fields : NcFields)
  | vlen (id : Nat) (name : String) (size : Nat)
  | opaqueBytes (id : Nat) (name : String) (size : Nat)
  | enum (id : Nat) (name : String) (base : AtomicType) (members : List (String × Int))
/-- The fields of a compound type: name, offset, type, and the sizes of an array field. -/
inductive NcFields
  | nil
  | cons (name : String) (offset : Nat) (type : NcType) (sizes : List Nat) (rest : NcFields)
end

def NcType.code : NcType → Nat
  | .atomic t => t.code
  | .compound id .. => id
  | .vlen id .. => id
  | .opaqueBytes id .. => id
  | .enum id .. => id

/-- The name reported for a user-defined type; atomic types are never asked. -/
def NcType.name : NcType → String
  | .atomic _ => ""
  | .compound _ name .. => name
  | .vlen _ name .. => name
  | .opaqueBytes _ name .. => name
  | .enum _ name .. => name

/-- `is_user_defined_type`: the identifier is at least `NC_FIRSTUSERTYPEID`. User-defined types are
the ones that are not atomic. -/
def isUserDefinedType : NcType → Bool
  | .atomic _ => false
  | _ => true

/-- The class reported by `nc_inq_user_type`; zero where there is none. -/
def NcType.classType : NcType → Nat
  | .atomic _ => 0
  | .vlen .. => 13
  | .opaqueBytes .. => 14
  | .enum .. => 15
  | .compound .. => 16

/-- `type == NC_CHAR`. -/
def NcType.isChar : NcType → Bool
  | .atomic .char => true
  | _ => false

/-! ## Datasets -/

structure Dim where
  name : String
  length : Nat
  deriving DecidableEq, Repr

/-- An attribute, without its values. -/
structure Att where
  name : String
  type : NcType
  length : Nat

/-- A variable: `nc_inq_var` reports these fields. -/
structure Var where
  name : String
  type : NcType
  dimIds : List Nat
  atts : List Att

def Var.ndims (v : Var) : Nat := v.dimIds.length

/-- `NC_MAX_NAME`: no name in a file is longer. -/
def ncMaxName : Nat := 256

/-- An open dataset. The library hands out dimension and variable identifiers as positions, keeps
names unique, and refuses names longer than `NC_MAX_NAME`. -/
structure NcFile where
  dims : List Dim
  vars : List Var
  globalAtts : List Att
  unlimdim : Option Nat
  dimIds_lt : ∀ v ∈ vars, ∀ d ∈ v.dimIds, d < dims.length
  dimNames_nodup : (dims.map Dim.name).Nodup
  varNames_nodup : (vars.map Var.name).Nodup
  dimNames_le : ∀ d ∈ dims, d.name.utf8ByteSize ≤ ncMaxName
  varNames_le : ∀ v ∈ vars, v.name.utf8ByteSize ≤ ncMaxName

/-- The dataset with one variable `x`, of rank 0 and of this type. -/
def NcFile.ofScalar (type : NcType) : NcFile where
  dims := []
  vars := [⟨"x", type, [], []⟩]
  globalAtts := []
  unlimdim := none
  dimIds_lt := by simp
  dimNames_nodup := by simp
  varNames_nodup := by simp
  dimNames_le := by simp
  varNames_le := by
    intro v hv
    obtain rfl := List.mem_singleton.mp hv
    show "x".utf8ByteSize ≤ ncMaxName
    decide

/-! ## Inquiries -/

/-- The `nc_inq_*` calls that the handler makes. -/
inductive NcInquiry
  | ncInq (ncid : Nat)
  | ncInqNvars (ncid : Nat)
  | ncInqVar (ncid varid : Nat)
  | ncInqVarname (ncid varid : Nat)
  | ncInqVarid (ncid : Nat) (name : String)
  | ncInqVartype (ncid varid : Nat)
  | ncInqVardimid (ncid varid : Nat)
  | ncInqDim (ncid dimid : Nat)
  | ncInqDimid (ncid : Nat) (name : String)
  | ncInqDimlen (ncid dimid : Nat)
  | ncInqType (ncid : Nat) (type : NcType)
  | ncInqUserType (ncid : Nat) (type : NcType)
  | ncInqCompoundField (ncid : Nat) (type : NcType) (i : Nat)
  | ncInqCompoundName (ncid : Nat) (type : NcType)
  | ncInqEnum (ncid : Nat) (type : NcType)
  | ncInqEnumMember (ncid : Nat) (type : NcType) (i : Nat)
  | ncInqAttname (ncid : Nat) (varid : Option Nat) (i : Nat)
  | ncInqAtt (ncid : Nat) (varid : Option Nat) (name : String)

/-- What `nc_inq` reports. -/
structure NcCounts where
  nvars : Nat
  ngatts : Nat
  unlimdim : Option Nat

/-- A status and the contents of the out-parameters after the call. -/
structure NcReply (α : Type) where
  status : Int
  out : α

def ncNoErr : Int := 0

/-- The out-parameters of each inquiry. Inquiries about a type leave nothing here that the tree of
the type does not hold. -/
@[reducible] def NcInquiry.Out : NcInquiry → Type
  | .ncInq _ => NcCounts
  | .ncInqNvars _ => Nat
  | .ncInqVar .. => Var
  | .ncInqVarname .. => String
  | .ncInqVarid .. => Nat
  | .ncInqVartype .. => NcType
  | .ncInqVardimid .. => List Nat
  | .ncInqDim .. => Dim
  | .ncInqDimid .. => Nat
  | .ncInqDimlen .. => Nat
  | .ncInqType .. => Nat
  | .ncInqUserType .. => Unit
  | .ncInqCompoundField .. => Unit
  | .ncInqCompoundName .. => String
  | .ncInqEnum .. => Unit
  | .ncInqEnumMember .. => Unit
  | .ncInqAttname .. => String
  | .ncInqAtt .. => Att

abbrev ncInquiry : Interface where
  Call := NcInquiry
  Reply := fun c => NcReply c.Out

/-! ## A faithful library -/

namespace NcReply

variable {α : Type}

/-- The call succeeded. -/
def ok (a : α) : NcReply α := ⟨ncNoErr, a⟩

/-- The call failed with `status`; `junk` is what the out-parameters hold. -/
def fail (status : Int) (junk : α) : NcReply α := ⟨status, junk⟩

/-- Success with the value, or failure with `status`. -/
def ofOption (status : Int) (junk : α) : Option α → NcReply α
  | some a => ok a
  | none => fail status junk

@[simp] theorem status_ok (a : α) : (ok a).status = ncNoErr := rfl

@[simp] theorem out_ok (a : α) : (ok a).out = a := rfl

@[simp] theorem status_fail (status : Int) (junk : α) : (fail status junk).status = status := rfl

@[simp] theorem ofOption_some (status : Int) (junk a : α) :
    ofOption status junk (some a) = ok a := rfl

@[simp] theorem ofOption_none (status : Int) (junk : α) :
    ofOption status junk none = fail status junk := rfl

end NcReply

/-- `NC_EBADTYPE`, `NC_EBADID`, `NC_EBADDIM`, `NC_ENOTVAR` and `NC_ENOTATT`. -/
def ncEBadType : Int := -45
def ncEBadId : Int := -33
def ncEBadDim : Int := -46
def ncENotVar : Int := -49
def ncENotAtt : Int := -43

namespace NcFile

/-- A variable that is not there: what zeroed out-parameters show. -/
def noVar : Var := ⟨"", .atomic .byte, [], []⟩

def noAtt : Att := ⟨"", .atomic .byte, 0⟩

/-- The attributes of a variable, or of the dataset for `NC_GLOBAL`. -/
def attsOf (f : NcFile) : Option Nat → List Att
  | none => f.globalAtts
  | some varid => (f.vars[varid]?.map Var.atts).getD []

/-- The size of a value of an atomic type. -/
def sizeofAtomic : AtomicType → Nat
  | .byte | .char | .ubyte => 1
  | .short | .ushort => 2
  | .int | .float | .uint => 4
  | .double | .int64 | .uint64 | .string => 8

def sizeofType : NcType → Nat
  | .atomic t => sizeofAtomic t
  | .compound _ _ size _ => size
  | .vlen _ _ size => size
  | .opaqueBytes _ _ size => size
  | .enum _ _ base _ => sizeofAtomic base

/-- The status of an inquiry about a user-defined type: an atomic type is not one. -/
def userTypeStatus (type : NcType) : NcReply Unit :=
  if isUserDefinedType type then .ok () else .fail ncEBadType ()

/-- The library's answer to every inquiry about the open dataset `f`. -/
def answer (f : NcFile) : (c : NcInquiry) → NcReply c.Out
  | .ncInq _ => .ok (⟨f.vars.length, f.globalAtts.length, f.unlimdim⟩ : NcCounts)
  | .ncInqNvars _ => (.ok f.vars.length : NcReply Nat)
  | .ncInqVar _ varid => .ofOption ncENotVar noVar f.vars[varid]?
  | .ncInqVarname _ varid => .ofOption ncENotVar "" (f.vars[varid]?.map Var.name)
  | .ncInqVarid _ name => .ofOption ncENotVar (0 : Nat) (f.vars.findIdx? (·.name == name))
  | .ncInqVartype _ varid => .ofOption ncENotVar (.atomic .byte) (f.vars[varid]?.map Var.type)
  | .ncInqVardimid _ varid => .ofOption ncENotVar [] (f.vars[varid]?.map Var.dimIds)
  | .ncInqDim _ dimid => .ofOption ncEBadDim ⟨"", 0⟩ f.dims[dimid]?
  | .ncInqDimid _ name => .ofOption ncEBadDim (0 : Nat) (f.dims.findIdx? (·.name == name))
  | .ncInqDimlen _ dimid => .ofOption ncEBadDim (0 : Nat) (f.dims[dimid]?.map Dim.length)
  | .ncInqType _ type => .ok (sizeofType type)
  | .ncInqUserType _ type => userTypeStatus type
  | .ncInqCompoundField _ type _ => userTypeStatus type
  | .ncInqCompoundName _ type =>
      if isUserDefinedType type then .ok type.name else .fail ncEBadType ""
  | .ncInqEnum _ type => userTypeStatus type
  | .ncInqEnumMember _ type _ => userTypeStatus type
  | .ncInqAttname _ varid i => .ofOption ncENotAtt "" ((f.attsOf varid)[i]?.map Att.name)
  | .ncInqAtt _ varid name => .ofOption ncENotAtt noAtt ((f.attsOf varid).find? (·.name == name))

end NcFile

end Skunk.NetCDF
