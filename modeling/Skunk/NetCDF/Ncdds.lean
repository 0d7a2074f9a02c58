import Skunk.NetCDF.Dap

/-!
# `ncdds.cc`: the previous DDS builder

`readVariables` reads the variables of an open dataset and adds them to a DDS. What it adds for one
variable depends on its type, on its rank and on which of its dimensions have a coordinate variable:
user-defined types, scalars, Grids and Arrays are tried in this order.

The functions keep their shape: a loop over an array is a recursion over the list of what is left,
and value-result parameters are part of the result. Buffers of `MAX_NC_NAME` chars are read through
`nameBuf`.
-/

namespace Skunk.NetCDF.Ncdds

open Skunk.Effect

/-- `MAX_NC_NAME`, the size of the name buffers of this file. -/
def maxNcName : Nat := ncMaxName

/-- `build_scalar`; null for a 64-bit integer when unknown types are ignored. -/
def buildScalar (cfg : Config) (varname dataset : String) (datatype : NcType) :
    Except NcError (Option BaseType) :=
  match datatype with
  | .atomic t =>
    match scalarClass cfg t with
    | some c => .ok (some (.scalar c varname dataset))
    | none =>
      if cfg.ignoreUnknownTypes then .ok none
      else .error (.error none "The netCDF handler does not currently support 64 bit integers.")
  | t => .error (.internalErr
      ("Unknown type (" ++ toString t.code ++ ") for variable '" ++ varname ++ "'"))

/-- `dds_table.add_var(bt)` and `ncs->add_var(bt)`: libdap refuses a null pointer. -/
def addVar (vars : List BaseType) : Option BaseType → Except NcError (List BaseType)
  | some bt => .ok (vars ++ [bt])
  | none => .error (.internalErr "Passing NULL pointer as variable to be added.")

/-- The maps that `is_grid` finds: three parallel arrays in the source. -/
structure Map where
  name : String
  type : NcType
  size : Nat

/-- The `NCArray` that stands for one Map. -/
def buildMap (cfg : Config) (filename : String) (m : Map) : Except NcError BaseType := do
  let localBt ← (← buildScalar cfg m.name filename m.type) |> deref
  return (BaseType.newNCArray localBt.name filename localBt).appendDim (.whole m.size m.name)

/-- `build_grid`: the Grid, and the names added to `all_maps`. -/
def buildGrid (cfg : Config) (name filename : String) (var : BaseType) (arrayType : NcType)
    (maps : List Map) : Except NcError (BaseType × List String) := do
  let ndims := if arrayType.isChar then maps.length - 1 else maps.length
  let used := maps.take ndims
  let ar := (BaseType.newNCArray name filename var).appendDims (used.map fun m => .whole m.size m.name)
  let localArs ← used.mapM (buildMap cfg filename)
  return (.ncGrid name filename ar localArs, used.map Map.name)

/-- Append to `b` the dimensions with these identifiers, under their names in the file. -/
def appendDimsById (ncid : Nat) (e : NcError) : List Nat → BaseType → Inq BaseType
  | [], b => pure b
  | dimId :: dimIds, b => do
    let dim ← inqOrThrow (.ncInqDim ncid dimId) fun _ => e
    appendDimsById ncid e dimIds (b.appendDim (.whole dim.length dim.name))

/-- `InternalErr` with a text that ends in the status. -/
def statusError (text : String) (status : Int) : NcError :=
  .internalErr (text ++ " (" ++ toString status ++ ").")

mutual
/-- `build_user_defined`; null for a variable-length type when unknown types are ignored. -/
def buildUserDefined (cfg : Config) (ncid varid : Nat) (dataset : String) :
    NcType → List Nat → Inq (Option BaseType)
  | .compound id typeName size fields, dimIds => do
    let xtype := NcType.compound id typeName size fields
    let _ ← inqOrThrow (.ncInqUserType ncid xtype)
      (statusError "Could not get information about a user-defined type")
    let varName ← inqUnchecked (.ncInqVarname ncid varid)
    let members ← buildFields cfg ncid varid dataset xtype fields 0 []
    let ncs := BaseType.ncStructure varName dataset members
    if dimIds.length > 0 then
      let e := NcError.internalErr
        ("Failed to read dimension information for the compound variable " ++ varName)
      return some (← appendDimsById ncid e dimIds (.newNCArray varName dataset ncs))
    else
      return some ncs
  | .vlen id typeName size, _ => do
    let _ ← inqOrThrow (.ncInqUserType ncid (.vlen id typeName size))
      (statusError "Could not get information about a user-defined type")
    if cfg.ignoreUnknownTypes then return none
    else throw (.error none "The netCDF handler does not yet suppor the NC_VLEN type.")
  | .opaqueBytes id typeName size, dimIds => do
    let _ ← inqOrThrow (.ncInqUserType ncid (.opaqueBytes id typeName size))
      (statusError "Could not get information about a user-defined type")
    let name ← inqOrThrow (.ncInqVarname ncid varid)
      (statusError "Could not get name of an opaque")
    let e := NcError.internalErr
      ("Failed to read dimension information for the compound variable " ++ name)
    let b ← appendDimsById ncid e dimIds
      (.newNCArray name dataset (.scalar .ncByte name dataset))
    return some (b.appendDim (.whole size ""))
  | .enum id typeName base members, dimIds => do
    let xtype := NcType.enum id typeName base members
    let _ ← inqOrThrow (.ncInqUserType ncid xtype)
      (statusError "Could not get information about a user-defined type")
    let _ ← inqOrThrow (.ncInqEnum ncid xtype)
      fun status => .internalErr
        ("Could not get information about an enum(" ++ toString status ++ ").")
    let name ← inqOrThrow (.ncInqVarname ncid varid)
      (statusError "Could not get name of an opaque")
    let enumVar ← Throwing.ofExcept (buildScalar cfg name dataset (.atomic base))
    if dimIds.length > 0 then
      let e := NcError.internalErr
        ("Failed to read dimension information for the compound variable " ++ name)
      let var ← Throwing.ofExcept (deref enumVar)
      return some (← appendDimsById ncid e dimIds (.newNCArray name dataset var))
    else
      return enumVar
  | .atomic t, _ => do
    let _ ← inqOrThrow (.ncInqUserType ncid (.atomic t))
      (statusError "Could not get information about a user-defined type")
    throw (.internalErr "Expected one of NC_COMPOUND, NC_VLEN, NC_OPAQUE or NC_ENUM")

/-- The loop of `build_user_defined` over the fields of a compound; `ncs` holds the members so
far. -/
def buildFields (cfg : Config) (ncid varid : Nat) (dataset : String) (xtype : NcType) :
    NcFields → Nat → List BaseType → Inq (List BaseType)
  | .nil, _, ncs => pure ncs
  | .cons fieldName _ fieldType fieldSizes rest, i, ncs => do
    let _ ← inqUnchecked (.ncInqCompoundField ncid xtype i)
    let field? ←
      if isUserDefinedType fieldType then do
        let b ← buildUserDefined cfg ncid varid dataset fieldType fieldSizes
        let varName ← inqUnchecked (.ncInqCompoundName ncid fieldType)
        let b ← Throwing.ofExcept (deref b)
        pure (some (b.setName varName))
      else Throwing.ofExcept (buildScalar cfg fieldName dataset fieldType)
    if fieldSizes.length = 0 ∨ (fieldSizes.length = 1 ∧ fieldType.isChar) then
      let ncs ← Throwing.ofExcept (addVar ncs field?)
      buildFields cfg ncid varid dataset xtype rest (i + 1) ncs
    else
      let field ← Throwing.ofExcept (deref field?)
      let ar := (BaseType.newNCArray fieldName dataset field).appendDims
        (fieldSizes.map fun n => .whole n "")
      let ncs ← Throwing.ofExcept (addVar ncs (some ar))
      buildFields cfg ncid varid dataset xtype rest (i + 1) ncs
end

/-- `find_matching_coordinate_variable`: the type of the variable named like the dimension. -/
def findMatchingCoordinateVariable (ncid var : Nat) (dimname : String) (dimSz : Nat) :
    Inq (Option NcType) := do
  let id ← inq (.ncInqDimid ncid dimname)
  if id.status = ncNoErr then
    let length ← inqOrThrow (.ncInqDimlen ncid id.out)
      (fun _ => .error none ("netcdf 3: could not get size for dimension " ++ toString id.out ++ " in variable "
        ++ dimname))
    if length = dimSz then
      let varid ← inq (.ncInqVarid ncid dimname)
      -- a variable cannot be its own coordinate variable
      if var = varid.out ∨ varid.status ≠ ncNoErr then return none
      else
        let matchType ← inqOrThrow (.ncInqVartype ncid varid.out)
          (fun _ => .error none ("netcdf 3: could not get type variable " ++ dimname))
        return some matchType
    else return none
  else return none

/-- `is_grid`: the maps, if every dimension has one. `d` is the index of the first of `dimIds`. -/
def isGrid (ncid var : Nat) : Nat → List Nat → Inq (Option (List Map))
  | _, [] => pure (some [])
  | d, dimId :: dimIds => do
    let dim ← inqOrThrow (.ncInqDim ncid dimId)
      (fun _ => .error none ("netcdf 3: could not get size for dimension " ++ toString d ++ " in variable "
        ++ toString var))
    let dimname ← Throwing.ofExcept (nameBuf maxNcName dim.name)
    match ← findMatchingCoordinateVariable ncid var dimname dim.length with
    | none => return none
    | some matchType =>
      match ← isGrid ncid var (d + 1) dimIds with
      | none => return none
      | some maps => return some (⟨dimname, matchType, dim.length⟩ :: maps)

def isDimension (name : String) (maps : List String) : Bool := maps.contains name

/-- The loop of `build_array`; `d` is the index of the first of `dimIds`. -/
def buildArrayDims (ncid var : Nat) : Nat → List Nat → BaseType → Inq BaseType
  | _, [], ar => pure ar
  | d, dimId :: dimIds, ar => do
    let dim ← inqOrThrow (.ncInqDim ncid dimId)
      (fun _ => .error none ("netcdf: could not get size for dimension " ++ toString d ++ " in variable "
        ++ toString var))
    let dimname ← Throwing.ofExcept (nameBuf maxNcName dim.name)
    buildArrayDims ncid var (d + 1) dimIds (ar.appendDim (.whole dim.length dimname))

def buildArray (bt : BaseType) (filename : String) (ncid var : Nat) (arrayType : NcType)
    (dimIds : List Nat) : Inq BaseType :=
  let ndims := if arrayType.isChar then dimIds.length - 1 else dimIds.length
  buildArrayDims ncid var 0 (dimIds.take ndims) (.newNCArray bt.name filename bt)

/-- What `read_variables` has collected: the DDS, the arrays put off, the names of all Maps. -/
structure Collected where
  dds : List BaseType
  arrayVars : List Nat
  allMaps : List String

/-- The array that `read_variables` builds for a variable which is nothing else. -/
def readArray (cfg : Config) (filename : String) (ncid varid : Nat) (name : String) (v : Var) :
    Inq BaseType := do
  let bt ← Throwing.ofExcept (do (← buildScalar cfg name filename v.type) |> deref)
  buildArray bt filename ncid varid v.type v.dimIds

/-- One round of the first loop of `read_variables`. -/
def readVariable (cfg : Config) (filename : String) (ncid varid : Nat) (c : Collected) :
    Inq Collected := do
  let v ← inqOrThrow (.ncInqVar ncid varid)
    (fun _ => .error none ("netcdf: could not get name or dimension number for variable " ++ toString varid))
  let name ← Throwing.ofExcept (nameBuf maxNcName v.name)
  if isUserDefinedType v.type then
    let bt ← buildUserDefined cfg ncid varid filename v.type v.dimIds
    return { c with dds := ← Throwing.ofExcept (addVar c.dds bt) }
  else if v.ndims = 0 ∨ (v.ndims = 1 ∧ v.type.isChar) then
    let bt ← Throwing.ofExcept (buildScalar cfg name filename v.type)
    return { c with dds := ← Throwing.ofExcept (addVar c.dds bt) }
  else
    match ← isGrid ncid varid 0 v.dimIds with
    | some maps =>
      let bt ← Throwing.ofExcept (do (← buildScalar cfg name filename v.type) |> deref)
      let (gr, names) ← Throwing.ofExcept (buildGrid cfg name filename bt v.type maps)
      return { c with
        dds := ← Throwing.ofExcept (addVar c.dds (some gr)), allMaps := c.allMaps ++ names }
    | none =>
      if cfg.showSharedDims then
        let ar ← readArray cfg filename ncid varid name v
        return { c with dds := ← Throwing.ofExcept (addVar c.dds (some ar)) }
      else
        return { c with arrayVars := c.arrayVars ++ [varid] }

def readVariableLoop (cfg : Config) (filename : String) (ncid : Nat) :
    List Nat → Collected → Inq Collected
  | [], c => pure c
  | varid :: varids, c => do
    readVariableLoop cfg filename ncid varids (← readVariable cfg filename ncid varid c)

/-- The second loop of `read_variables`: arrays that are not Grid Maps. -/
def readArrayLoop (cfg : Config) (filename : String) (ncid : Nat) (allMaps : List String) :
    List Nat → List BaseType → Inq (List BaseType)
  | [], dds => pure dds
  | varid :: varids, dds => do
    let v ← inqOrThrow (.ncInqVar ncid varid)
      (fun _ => .error none ("netcdf 3: could not get name or dimension number for variable "
        ++ toString varid))
    let name ← Throwing.ofExcept (nameBuf maxNcName v.name)
    if isDimension name allMaps then readArrayLoop cfg filename ncid allMaps varids dds
    else
      let ar ← readArray cfg filename ncid varid name v
      readArrayLoop cfg filename ncid allMaps varids
        (← Throwing.ofExcept (addVar dds (some ar)))

/-- `read_variables`: the variables added to `dds_table`, which is empty on entry. -/
def readVariables (cfg : Config) (filename : String) (ncid nvars : Nat) :
    Inq (List BaseType) := do
  let c ← readVariableLoop cfg filename ncid (List.range nvars) ⟨[], [], []⟩
  if cfg.showSharedDims then return c.dds
  else readArrayLoop cfg filename ncid c.allMaps c.arrayVars c.dds

end Skunk.NetCDF.Ncdds
