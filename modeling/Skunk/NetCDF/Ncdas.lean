import Skunk.NetCDF.Readers

/-!
# `ncdas.cc`: the attributes

`readDatasetAttributes` puts the attributes of every variable, and the global ones, into a DAS.
Attribute values are stored as text.

Attribute tables belong to libdap; `DasLibrary` is what the handler uses of them. A pointer to a table
inside the DAS is the table's name here: a change through the pointer is a change of the DAS.
-/

namespace Skunk.NetCDF.Ncdas

open Skunk.Effect

/-- What the handler uses from outside: libdap's DAS, and the text of a floating-point value as
`ostringstream` writes it with `showpoint` and the precision of `print_attr`. -/
structure DasLibrary where
  Das : Type
  empty : Das
  /-- `das.get_table(name)` is not null. -/
  hasTable : String → Das → Bool
  /-- `das.add_table(name, new AttrTable)`. -/
  addTable : String → Das → Except NcError Das
  /-- `append_attr(name, type, value)` on the table of this name. -/
  appendAttr : String → String → String → String → Das → Except NcError Das
  /-- The text of a `float` or a `double` with this representation. -/
  floatText : Nat → String
  doubleText : Nat → String

def maxNcName : Nat := ncMaxName

/-! ## Values as text -/

/-- The number that `n` bytes from `offset` on stand for, the first being the lowest. -/
def littleEndian (bytes : List UInt8) (offset n : Nat) : Nat :=
  ((bytes.drop offset).take n).foldr (fun b acc => b.toNat + 256 * acc) 0

/-- The same as a signed number. -/
def littleEndianSigned (bytes : List UInt8) (offset n : Nat) : Int :=
  (littleEndian bytes offset n : Int).bmod (2 ^ (8 * n))

/-- The lowest `n` bytes of a number, the lowest first. -/
def toLittleEndian : Nat → Int → List UInt8
  | 0, _ => []
  | n + 1, x => UInt8.ofNat (x % 256).toNat :: toLittleEndian n (x / 256)

/-- The C string that starts here. -/
def cString (bytes : List UInt8) : String :=
  String.ofList ((bytes.takeWhile (· ≠ 0)).map fun b => Char.ofNat b.toNat)

/-- A decimal point behind a number that shows none. -/
def withPoint (s : String) : String :=
  if s.toList.any fun c => c = '.' ∨ c = 'e' ∨ c = 'E' ∨ c = 'N' then s else s ++ "."

section

variable (lib : DasLibrary) (cfg : Config)

/-- `print_attr(type, loc, vals + offset)`. `loc` is an `int`, and there is nothing before the buffer. -/
def printAttr (type : NcType) (loc : Nat) (vals : NcData) (offset : Nat) :
    Except NcError String :=
  if 2 ^ 31 ≤ loc then .error .undefined else
  match type with
  | .atomic .ubyte => .ok (toString (littleEndian vals.bytes (offset + loc) 1))
  | .atomic .byte =>
    if cfg.promoteByteToShort then
      .ok (toString (littleEndianSigned vals.bytes (offset + loc) 1))
    else .ok (toString (littleEndian vals.bytes (offset + loc) 1))
  | .atomic .char => .ok (cString (vals.bytes.drop offset))
  | .atomic .string => .ok ((vals.strings[loc]?).getD "")
  | .atomic .short => .ok (toString (littleEndianSigned vals.bytes (offset + 2 * loc) 2))
  | .atomic .ushort => .ok (toString (littleEndian vals.bytes (offset + 2 * loc) 2))
  | .atomic .int => .ok (toString (littleEndianSigned vals.bytes (offset + 4 * loc) 4))
  | .atomic .uint => .ok (toString (littleEndian vals.bytes (offset + 4 * loc) 4))
  | .atomic .float =>
    .ok (withPoint (lib.floatText (littleEndian vals.bytes (offset + 4 * loc) 4)))
  | .atomic .double =>
    .ok (withPoint (lib.doubleText (littleEndian vals.bytes (offset + 8 * loc) 8)))
  | _ =>
    if cfg.ignoreUnknownTypes then .ok ""
    else .error (.internalErr
      "The netcdf handler tried to print an attribute that has an unrecognized type. (1)")

def printType (datatype : NcType) : Except NcError String :=
  match datatype with
  | .atomic .string | .atomic .char => .ok "String"
  | .atomic .ubyte => .ok "Byte"
  | .atomic .byte => .ok (if cfg.promoteByteToShort then "Int16" else "Byte")
  | .atomic .short => .ok "Int16"
  | .atomic .int => .ok "Int32"
  | .atomic .ushort => .ok "UInt16"
  | .atomic .uint => .ok "UInt32"
  | .atomic .float => .ok "Float32"
  | .atomic .double => .ok "Float64"
  | .atomic .int64 => .ok "NC_INT64"
  | .atomic .uint64 => .ok "NC_UINT64"
  | _ =>
    if cfg.ignoreUnknownTypes then .ok ""
    else .error (.internalErr
      "The netcdf handler tried to print an attribute that has an unrecognized type. (2)")

/-- `at->append_attr(name, print_type(type), print_attr(type, loc, vals + offset))`. -/
def appendValue (table name : String) (type : NcType) (loc : Nat) (vals : NcData) (offset : Nat)
    (das : lib.Das) : Except NcError lib.Das := do
  let typeText ← printType cfg type
  let text ← printAttr lib cfg type loc vals offset
  lib.appendAttr table name typeText text das

def appendEach (table name : String) (type : NcType) (vals : NcData) :
    List Nat → lib.Das → Except NcError lib.Das
  | [], das => .ok das
  | loc :: locs, das => do
    appendEach table name type vals locs (← appendValue lib cfg table name type loc vals 0 das)

/-! ## Attributes -/

/-- The exception for an attribute whose value cannot be read. -/
def noValue (attrname : String) (status : Int) : NcError :=
  .error (some status) ("Could not get the value for attribute '" ++ attrname ++ "'")

/-- `append_values`. The length is an `int` here. -/
def appendValues (table : String) (ncid : Nat) (varid : Option Nat) (len : Nat)
    (datatype : NcType) (attrname : String) (das : lib.Das) : Acc lib.Das := do
  let size ← accOrThrow (.inquire (.ncInqType ncid datatype)) fun status =>
    .error (some status) "Could not get the size for the type."
  let room := toSizeT (toInt (len + 1) * size)
  let value ← accOrThrow (.ncGetAtt ncid varid attrname room) (noValue attrname)
  -- a string of `NC_CHAR` is one value; it ends behind its last character
  let isText := datatype.isChar
  let len := (toInt len).toNat
  let value := if isText then { value with bytes := value.bytes.take len ++ [0] } else value
  let len := if isText then 1 else len
  Throwing.ofExcept (appendEach lib cfg table attrname datatype value (List.range len) das)

/-- The loop of `read_attributes_netcdf4` over the fields of a compound. -/
def appendFields (table : String) (ncid : Nat) (datatype : NcType) (values : NcData) :
    NcFields → Nat → lib.Das → Acc lib.Das
  | .nil, _, das => pure das
  | .cons fieldName fieldOffset fieldType _ rest, i, das => do
    let _ ← inquiring (inqUnchecked (.ncInqCompoundField ncid datatype i))
    let das ← Throwing.ofExcept
      (appendValue lib cfg table fieldName fieldType 0 values fieldOffset das)
    appendFields table ncid datatype values rest (i + 1) das

/-- One round of `read_attributes_netcdf4`: the attribute with this number. -/
def readAttribute (table : String) (ncid : Nat) (varid : Option Nat) (attrNum : Nat)
    (das : lib.Das) : Acc lib.Das := do
  let name ← accOrThrow (.inquire (.ncInqAttname ncid varid attrNum)) fun status =>
    .error (some status) ("Could not get the name for attribute " ++ toString attrNum)
  let attrname ← Throwing.ofExcept (nameBuf maxNcName name)
  let att ← accOrThrow (.inquire (.ncInqAtt ncid varid attrname)) fun status =>
    .error (some status) ("Could not get the name for attribute '" ++ attrname ++ "'")
  match att.type with
  | .compound _ _ size fields =>
    let _ ← accOrThrow (.inquire (.ncInqUserType ncid att.type)) userTypeError
    let values ← accOrThrow (.ncGetAtt ncid varid attrname ((att.length + 1) * size))
      (noValue attrname)
    appendFields lib cfg table ncid att.type values fields 0 das
  | .vlen .. =>
    let _ ← accOrThrow (.inquire (.ncInqUserType ncid att.type)) userTypeError
    if cfg.ignoreUnknownTypes then return das
    else throw (.error none "The netCDF handler does not yet support the NC_VLEN type.")
  | .opaqueBytes _ _ size =>
    let _ ← accOrThrow (.inquire (.ncInqUserType ncid att.type)) userTypeError
    let values ← accOrThrow (.ncGetAtt ncid varid attrname ((att.length + 1) * size))
      (noValue attrname)
    Throwing.ofExcept
      (appendEach lib cfg table attrname (.atomic .byte) values (List.range size) das)
  | .enum _ _ base _ =>
    let _ ← accOrThrow (.inquire (.ncInqUserType ncid att.type)) userTypeError
    let values ← accOrThrow
      (.ncGetAtt ncid varid attrname ((att.length + 1) * NcFile.sizeofAtomic base))
      (noValue attrname)
    Throwing.ofExcept
      (appendEach lib cfg table attrname (.atomic base) values (List.range att.length) das)
  | .atomic .int64 | .atomic .uint64 =>
    let typeText ← Throwing.ofExcept (printType cfg att.type)
    Throwing.ofExcept (lib.appendAttr table attrname "String"
      ("Attribute elided: Unsupported attribute type " ++ "(" ++ typeText ++ ")") das)
  | .atomic _ => appendValues lib cfg table ncid varid att.length att.type attrname das

/-- The loop of `read_attributes_netcdf4`. -/
def readAttributes (table : String) (ncid : Nat) (varid : Option Nat) :
    List Nat → lib.Das → Acc lib.Das
  | [], das => pure das
  | attrNum :: attrNums, das => do
    readAttributes table ncid varid attrNums
      (← readAttribute lib cfg table ncid varid attrNum das)

/-! ## Variables -/

/-- The special attribute `string_length` of an `NC_CHAR` variable. -/
def stringLength (ncid varid : Nat) (varname : String) (das : lib.Das) : Acc lib.Das := do
  let v ← accOrThrow (.inquire (.ncInqVar ncid varid)) fun status =>
    .error (some status) ("NetCDF handler: Could not read information about a NC_CHAR variable "
      ++ "while building the DAS.")
  let sizes ← stringLengths v.dimIds
  -- an `int` through a pointer to a `size_t`: the low four bytes
  let length : Int := if v.ndims = 0 then 1 else toInt ((sizes.getLast?.getD 0 : Nat) : Int)
  let typeText ← Throwing.ofExcept (printType cfg (.atomic .int))
  Throwing.ofExcept (lib.appendAttr varname "string_length" typeText (toString length) das)
where
  stringLengths : List Nat → Acc (List Nat)
    | [] => pure []
    | d :: ds => do
      let size ← accOrThrow (.inquire (.ncInqDimlen ncid d)) fun status =>
        .error (some status)
          ("NetCDF handler: Could not read dimension information about the variable `" ++ varname
            ++ "'.")
      let sizes ← stringLengths ds
      return size :: sizes

/-- The values of an enumeration and their names. -/
def enumMembers (ncid : Nat) (table : String) (type : NcType) (base : AtomicType) :
    List (String × Int) → Nat → lib.Das → Acc lib.Das
  | [], _, das => pure das
  | (memberName, value) :: members, i, das => do
    let _ ← accOrThrow (.inquire (.ncInqEnumMember ncid type i)) fun status =>
      .internalErr ("Could not get information about an enum value (" ++ toString status ++ ").")
    let memberValue : NcData := ⟨toLittleEndian (NcFile.sizeofAtomic base) value, []⟩
    let das ← Throwing.ofExcept
      (appendValue lib cfg table "DAP2_EnumValues" (.atomic base) 0 memberValue 0 das)
    let das ← Throwing.ofExcept (lib.appendAttr table "DAP2_EnumNames" "String" memberName das)
    enumMembers ncid table type base members (i + 1) das

/-- `DAP2_OriginalNetCDFBaseType` and `DAP2_OriginalNetCDFTypeName`. -/
def originalType (table base name : String) (das : lib.Das) : Except NcError lib.Das := do
  let das ← lib.appendAttr table "DAP2_OriginalNetCDFBaseType" "String" base das
  lib.appendAttr table "DAP2_OriginalNetCDFTypeName" "String" name das

/-- The special attributes of a variable of a user-defined type. -/
def userDefinedType (ncid : Nat) (table : String) (type : NcType) (das : lib.Das) :
    Acc lib.Das := do
  let _ ← accOrThrow (.inquire (.ncInqUserType ncid type)) userTypeError
  match type with
  | .opaqueBytes _ name _ => Throwing.ofExcept (originalType lib table "NC_OPAQUE" name das)
  | .enum _ name base members =>
    let _ ← accOrThrow (.inquire (.ncInqEnum ncid type)) fun status =>
      .internalErr ("Could not get information about an enum(" ++ toString status ++ ").")
    if base = .int64 ∨ base = .uint64 then
      if cfg.ignoreUnknownTypes then return das
      else throw (.error none
        "An Enum uses 64-bit integers, but this handler does not support that type.")
    else
      let das ← enumMembers lib cfg ncid table type base members 0 das
      Throwing.ofExcept (originalType lib table "NC_ENUM" name das)
  | _ => return das

/-- One round of the loop of `nc_read_dataset_attributes` over the variables. -/
def readVariableAttributes (ncid varid : Nat) (das : lib.Das) : Acc lib.Das := do
  let v ← accOrThrow (.inquire (.ncInqVar ncid varid)) fun status =>
    .error (some status) ("Could not get information for variable: " ++ toString varid)
  let varname ← Throwing.ofExcept (nameBuf maxNcName v.name)
  let das ← Throwing.ofExcept
    (if lib.hasTable varname das then .ok das else lib.addTable varname das)
  let das ← readAttributes lib cfg varname ncid (some varid) (List.range v.atts.length) das
  if v.type.isChar then stringLength lib cfg ncid varid varname das
  else if isUserDefinedType v.type then userDefinedType lib cfg ncid varname v.type das
  else return das

/-- The loop of `nc_read_dataset_attributes` over the variables. -/
def readAllVariableAttributes (ncid : Nat) : List Nat → lib.Das → Acc lib.Das
  | [], das => pure das
  | varid :: varids, das => do
    readAllVariableAttributes ncid varids (← readVariableAttributes lib cfg ncid varid das)

/-- `path_to_filename`: what follows the last slash. -/
def pathToFilename (path : String) : String :=
  String.ofList ((path.toList.reverse.takeWhile (· ≠ '/')).reverse)

/-- What `nc_read_dataset_attributes` does between `nc_open` and `nc_close`. -/
def datasetAttributes (filename : String) (das : lib.Das) (ncid : Nat) : Acc lib.Das := do
  let counts ← accOrThrow (.inquire (.ncInq ncid)) fun status =>
    .error (some status) ("NetCDF handler: Could not inquire about netcdf file: "
      ++ pathToFilename filename ++ ".")
  let das ← readAllVariableAttributes lib cfg ncid (List.range counts.nvars) das
  let das ←
    if counts.ngatts > 0 then do
      let das ← Throwing.ofExcept (lib.addTable "NC_GLOBAL" das)
      readAttributes lib cfg "NC_GLOBAL" ncid none (List.range counts.ngatts) das
    else pure das
  let counts ← accOrThrow (.inquire (.ncInq ncid)) fun _ =>
    .internalErr "NetCDF handler: Could not access variable information: "
  match counts.unlimdim with
  | none => return das
  | some xdimid =>
    let dim ← accOrThrow (.inquire (.ncInqDim ncid xdimid)) fun _ =>
      .internalErr "NetCDF handler: Could not access dimension information: "
    let dimname ← Throwing.ofExcept (nameBuf maxNcName dim.name)
    let das ← Throwing.ofExcept (lib.addTable "DODS_EXTRA" das)
    Throwing.ofExcept
      (lib.appendAttr "DODS_EXTRA" "Unlimited_Dimension" "String" dimname das)

/-- `nc_read_dataset_attributes`. -/
def readDatasetAttributes (filename : String) (das : lib.Das) : Session lib.Das :=
  usingFile filename
    (fun status => .error (some status) ("NetCDF handler: Could not open " ++ filename ++ "."))
    (.internalErr "NetCDF handler: Could not close the dataset!")
    (datasetAttributes lib cfg filename das)

end

end Skunk.NetCDF.Ncdas
