import Skunk.NetCDF.Dap

/-!
# `new_ncdds.cc`: the DDS builder in use

`readAllVariables` replaces `read_variables` of `ncdds.cc`. It asks `is_grid` first, then whether
the type is user-defined, and only then whether the variable is a scalar.
-/

namespace Skunk.NetCDF.NewNcdds

open Skunk.Effect

/-- `MAX_NAME_LEN`, the size of the name buffers of this file. -/
def maxNameLen : Nat := ncMaxName + 1

/-- `build_scalar`; null for a 64-bit integer when unknown types are ignored. -/
def buildScalar (cfg : Config) (name dataset : String) (type : NcType) :
    Except NcError (Option BaseType) :=
  let unsupported := NcError.internalErr
    ("Unsupported netCDF type " ++ toString type.code ++ " for variable '" ++ name ++ "'.")
  match type with
  | .atomic t =>
    match scalarClass cfg t with
    | some c => .ok (some (.scalar c name dataset))
    | none => if cfg.ignoreUnknownTypes then .ok none else .error unsupported
  | _ => .error unsupported

/-- `dds.add_var_nocopy(bt)`: libdap refuses a null pointer. -/
def addVarNocopy (dds : List BaseType) : Option BaseType → Except NcError (List BaseType)
  | some bt => .ok (dds ++ [bt])
  | none => .error (.internalErr "Passing NULL pointer as variable to be added.")

/-- `std::make_unique<NCArray>(bt->name(), dataset, bt.release())`. Once `bt` is released, `name()` is called
through a null pointer. -/
def makeNCArray (cfg : Config) (dataset : String) (bt : Option BaseType) : Except NcError BaseType :=
  if cfg.releaseFirst then .error .undefined
  else do
    let bt ← deref bt
    return .newNCArray bt.name dataset bt

/-- The `NCArray` that stands for one Map, with its name, type and size. -/
def buildMap (cfg : Config) (dataset : String) (m : String × NcType × Nat) :
    Except NcError BaseType := do
  let bt ← buildScalar cfg m.1 dataset m.2.1
  let arr ← makeNCArray cfg dataset bt
  return arr.appendDim (.whole m.2.2 m.1)

/-- `build_grid`, with the parallel arrays of the source. -/
def buildGrid (cfg : Config) (ar : BaseType) (dataset : String) (ndims : Nat) (type : NcType)
    (mapNames : List String) (mapTypes : List NcType) (mapSizes : List Nat) :
    Except NcError BaseType := do
  let ndims := if type.isChar then ndims - 1 else ndims
  let ar := ar.appendDims (((mapSizes.zip mapNames).take ndims).map fun m => .whole m.1 m.2)
  let arrs ← ((mapNames.zip (mapTypes.zip mapSizes)).take ndims).mapM (buildMap cfg dataset)
  return .ncGrid ar.name dataset ar arrs

/-- `structure->add_var(bt)`, which refuses a null pointer: the member that is added. -/
def newMember : Option BaseType → Except NcError BaseType
  | some bt => .ok bt
  | none => .error (.internalErr "The BaseType parameter cannot be null.")

mutual
/-- `build_user_defined`. `dim_ids` are the identifiers of the variable's dimensions, or the sizes
of a field. -/
def buildUserDefined (cfg : Config) (ncid varid : Nat) (dataset : String) :
    NcType → List Nat → Inq (Option BaseType)
  | .compound id typeName size fields, dimIds => do
    let xtype := NcType.compound id typeName size fields
    let _ ← inqOrThrow (.ncInqUserType ncid xtype)
      fun _ => .internalErr ("Could not inquire user type " ++ toString xtype.code)
    let nameBuf := (← inq (.ncInqVarname ncid varid)).out
    let members ← buildFields cfg ncid varid dataset xtype fields 0
    let structure_ := BaseType.ncStructure nameBuf dataset members
    if dimIds.length > 0 then
      return some ((BaseType.newNCArray nameBuf dataset structure_).appendDims
        (dimIds.map fun d => .whole d ""))
    else
      return some structure_
  | xtype, _ => do
    let _ ← inqOrThrow (.ncInqUserType ncid xtype)
      fun _ => .internalErr ("Could not inquire user type " ++ toString xtype.code)
    throw (.internalErr ("Unsupported user-defined type class " ++ toString xtype.classType))

/-- The loop of `build_user_defined` over the fields of a compound. -/
def buildFields (cfg : Config) (ncid varid : Nat) (dataset : String) (xtype : NcType) :
    NcFields → Nat → Inq (List BaseType)
  | .nil, _ => pure []
  | .cons fieldName _ fieldType fieldDimIds rest, i => do
    let _ ← inqUnchecked (.ncInqCompoundField ncid xtype i)
    -- the same function serves to find out whether the field is user-defined
    let fieldBt ← buildUserDefined cfg ncid varid dataset fieldType fieldDimIds
    let member ← Throwing.ofExcept (do
      let fieldBt ← match fieldBt with
        | some b => pure (some b)
        | none => buildScalar cfg fieldName dataset fieldType
      if fieldDimIds.length = 0 ∨ (fieldDimIds.length = 1 ∧ fieldType.isChar) then
        newMember fieldBt
      else
        let arr ← makeNCArray cfg dataset fieldBt
        newMember (arr.appendDims (fieldDimIds.map fun d => .whole d "")))
    let members ← buildFields cfg ncid varid dataset xtype rest (i + 1)
    return member :: members
end

/-- `find_matching_coordinate_variable`: the type of the variable named like the dimension. -/
def findMatchingCoordinateVariable (ncid varid : Nat) (dimname : String) (dimSz : Nat) :
    Inq (Option NcType) := do
  let dimid ← inq (.ncInqDimid ncid dimname)
  if dimid.status ≠ ncNoErr then return none
  else
    let length ← inqOrThrow (.ncInqDimlen ncid dimid.out)
      fun _ => .error none ("Could not get size for dimension " ++ dimname)
    if length ≠ dimSz then return none
    else
      let coordVarid ← inq (.ncInqVarid ncid dimname)
      if coordVarid.status ≠ ncNoErr then return none
      else if coordVarid.out = varid then return none
      else
        let matchType ← inqOrThrow (.ncInqVartype ncid coordVarid.out)
          fun _ => .error none ("Could not get type for coordinate variable " ++ dimname)
        return some matchType

/-- The value-result parameters of `is_grid`. -/
structure Maps where
  names : List String
  types : List NcType
  sizes : List Nat

/-- `is_grid`: the maps, if every dimension has one. -/
def isGrid (ncid varid : Nat) : List Nat → Inq (Option Maps)
  | [] => pure (some ⟨[], [], []⟩)
  | dimId :: dimIds => do
    let dim ← inqOrThrow (.ncInqDim ncid dimId)
      fun _ => .error none ("Could not inquire dimension at id " ++ toString dimId)
    let buf ← Throwing.ofExcept (nameBuf maxNameLen dim.name)
    match ← findMatchingCoordinateVariable ncid varid buf dim.length with
    | none => return none
    | some type =>
      match ← isGrid ncid varid dimIds with
      | none => return none
      | some maps =>
        return some ⟨buf :: maps.names, type :: maps.types, dim.length :: maps.sizes⟩

def isDimension (name : String) (maps : List String) : Bool := maps.contains name

def buildArrayDims (ncid : Nat) : List Nat → BaseType → Inq BaseType
  | [], ar => pure ar
  | dimId :: dimIds, ar => do
    let dim ← inqOrThrow (.ncInqDim ncid dimId)
      fun _ => .error none ("Could not get size for dimension " ++ toString dimId)
    let buf ← Throwing.ofExcept (nameBuf maxNameLen dim.name)
    buildArrayDims ncid dimIds (ar.appendDim (.whole dim.length buf))

def buildArray (bt : BaseType) (dataset : String) (ncid : Nat) (type : NcType)
    (dimIds : List Nat) : Inq BaseType :=
  let ndims := if type.isChar then dimIds.length - 1 else dimIds.length
  buildArrayDims ncid (dimIds.take ndims) (.newNCArray bt.name dataset bt)

/-- The loop of `read_all_variables` over the dimensions of a Grid: the names and sizes that it
reads once more. The names go behind those that `is_grid` left, the sizes over them. -/
def rereadDims (ncid : Nat) : List Nat → Inq (List String × List Nat)
  | [] => pure ([], [])
  | dimId :: dimIds => do
    let dim := (← inq (.ncInqDim ncid dimId)).out
    let (names, sizes) ← rereadDims ncid dimIds
    return (dim.name :: names, dim.length :: sizes)

/-- One round of `read_all_variables`: the variable to add. -/
def readOneVariable (cfg : Config) (filename : String) (ncid varid : Nat) (v : Var) :
    Inq (Option BaseType) := do
  let nameBuf ← Throwing.ofExcept (nameBuf maxNameLen v.name)
  match ← isGrid ncid varid v.dimIds with
  | some maps =>
    let (names, sizes) ← rereadDims ncid v.dimIds
    let bt ← Throwing.ofExcept (buildScalar cfg nameBuf filename v.type)
    let arr ← Throwing.ofExcept (makeNCArray cfg filename bt)
    return some (← Throwing.ofExcept
      (buildGrid cfg arr filename v.ndims v.type (maps.names ++ names) maps.types sizes))
  | none =>
    if isUserDefinedType v.type then
      buildUserDefined cfg ncid varid filename v.type v.dimIds
    else if v.ndims = 0 ∨ (v.ndims = 1 ∧ v.type.isChar) then
      Throwing.ofExcept (buildScalar cfg nameBuf filename v.type)
    else
      let bt ← Throwing.ofExcept (do (← buildScalar cfg nameBuf filename v.type) |> deref)
      return some (← buildArray bt filename ncid v.type v.dimIds)

def readAllVariablesLoop (cfg : Config) (filename : String) (ncid : Nat) :
    List Nat → List BaseType → Inq (List BaseType)
  | [], dds => pure dds
  | varid :: varids, dds => do
    let r ← inq (.ncInqVar ncid varid)
    if r.status ≠ ncNoErr then readAllVariablesLoop cfg filename ncid varids dds
    else
      let bt ← readOneVariable cfg filename ncid varid r.out
      readAllVariablesLoop cfg filename ncid varids (← Throwing.ofExcept (addVarNocopy dds bt))

/-- `read_all_variables`: the variables added to `dds`, which is empty on entry. -/
def readAllVariables (cfg : Config) (filename : String) (ncid nvars : Nat) :
    Inq (List BaseType) :=
  readAllVariablesLoop cfg filename ncid (List.range nvars) []

end Skunk.NetCDF.NewNcdds
