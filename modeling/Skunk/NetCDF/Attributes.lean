import Skunk.NetCDF.Ncdas
import Mathlib.Data.List.TakeWhile

/-!
# What the DAS holds of an attribute

`readAttributes` should leave one entry for each attribute, with all of its values. Each class of types has
a loop of its own over the values, and each loop a bound of its own: the number of values, of bytes, or one
for a string of characters.

An opaque attribute loses all but its first value.
-/

namespace Skunk.NetCDF.Ncdas

open Skunk.Effect

/-! ## A library that has the values -/

/-- These are the values of the attribute. -/
def Holds (att : Att) (d : NcData) : Prop :=
  match att.type with
  | .atomic .string => d.strings.length = att.length
  | type => d.bytes.length = att.length * NcFile.sizeofType type

structure AttValues (f : NcFile) where
  value : Option Nat → String → NcData
  holds : ∀ varid, ∀ att ∈ f.attsOf varid, Holds att (value varid att.name)

namespace AttValues

variable {f : NcFile} (values : AttValues f)

/-- What is read of an attribute. A buffer of 2^63 bytes cannot be made. Into one that is too small the
library would write all the same; here it does not. -/
def readAtt (varid : Option Nat) (name : String) (room : Nat) : NcReply NcData :=
  match (f.attsOf varid).find? (·.name == name) with
  | none => .fail ncENotAtt .empty
  | some att =>
    if room < 2 ^ 63 ∧ att.length * NcFile.sizeofType att.type ≤ room then .ok (values.value varid name)
    else .fail ncENotAtt .empty

/-- The library that has `f` open, with these values. -/
def serveAtt : (c : NcAccess) → NcReply c.Out
  | .inquire q => f.answer q
  | .ncGetAtt _ varid name room => values.readAtt varid name room
  | .ncGetVar .. | .ncGetVar1 .. | .ncGetVara .. | .ncGetVars .. => .fail ncENotVar NcData.empty
  | .ncFreeString _ => .ok ()

theorem reports_serveAtt : Reports f values.serveAtt := fun _ => rfl

end AttValues

/-! ## Tables -/

structure Entry where
  name : String
  type : String
  values : List String
  deriving DecidableEq, Repr

/-- Add a value to the entry of this name, or make one. -/
def addValue (name type value : String) (entries : List Entry) : List Entry :=
  if entries.any (·.name == name) then
    entries.map fun e => if e.name = name then { e with values := e.values ++ [value] } else e
  else entries ++ [⟨name, type, [value]⟩]

/-- `append_attr` adds a value to the entry of that name and type; `entries` shows what a table holds. -/
def AppendsAttrs (lib : DasLibrary) (entries : lib.Das → String → List Entry) : Prop :=
  ∀ table name type value das, (∀ e ∈ entries das table, e.name = name → e.type = type) →
    ∃ das', lib.appendAttr table name type value das = .ok das' ∧
      entries das' table = addValue name type value (entries das table)

/-- The entry of this name with these values; there is none without values. -/
def entryOf (name type : String) : List String → List Entry
  | [] => []
  | values => [⟨name, type, values⟩]

/-- A value comes behind those that are there under its name and type. -/
theorem addValue_entryOf {name : String} (type value : String) (values : List String) {before : List Entry}
    (hfresh : ∀ e ∈ before, e.name ≠ name) :
    addValue name type value (before ++ entryOf name type values) =
      before ++ entryOf name type (values ++ [value]) := by
  have hnone : before.any (·.name == name) = false := by
    rw [List.any_eq_false]
    intro e he
    simpa using hfresh e he
  have hsame : before.map (fun e => if e.name = name then { e with values := e.values ++ [value] } else e) =
      before := by
    rw [List.map_congr_left fun e he => if_neg (hfresh e he)]
    exact List.map_id _
  cases values with
  | nil => simp [addValue, entryOf, hnone]
  | cons v vs => simp [addValue, entryOf, hsame]

theorem type_of_mem_entryOf {name : String} (type : String) (values : List String) {before : List Entry}
    (hfresh : ∀ e ∈ before, e.name ≠ name) :
    ∀ e ∈ before ++ entryOf name type values, e.name = name → e.type = type := by
  intro e he hname
  rcases List.mem_append.mp he with he | he
  · exact absurd hname (hfresh e he)
  · cases values with
    | nil => cases he
    | cons v vs =>
        obtain rfl := List.mem_singleton.mp he
        rfl

/-! ## Values as text -/

section Values

variable (lib : DasLibrary) (cfg : Config)

/-- The value at an index, alone in its buffer. -/
def element (t : AtomicType) (d : NcData) (i : Nat) : NcData :=
  ⟨(d.bytes.drop (NcFile.sizeofAtomic t * i)).take (NcFile.sizeofAtomic t), (d.strings.drop i).take 1⟩

/-- What `print_attr` makes of one value. -/
def printed (t : AtomicType) (d : NcData) : String :=
  (printAttr lib cfg (.atomic t) 0 d 0).toOption.getD ""

/-- The first `n` values, each printed. -/
def printedEach (t : AtomicType) (d : NcData) (n : Nat) : List String :=
  (List.range n).map fun i => printed lib cfg t (element t d i)

/-- All the characters. -/
def text (bytes : List UInt8) : String := String.ofList (bytes.map fun b => Char.ofNat b.toNat)

/-- The type that the values of an attribute are printed as. -/
def valueType : NcType → AtomicType
  | .atomic t => t
  | .enum _ _ base _ => base
  | _ => .byte

/-- The name of that type in the DAS. -/
def typeText (type : NcType) : String := (printType cfg (.atomic (valueType type))).toOption.getD ""

/-- The number of values: an opaque value is as many as it has bytes. -/
def valueCount (att : Att) : Nat :=
  match att.type with
  | .opaqueBytes _ _ size => att.length * size
  | _ => att.length

def attValues (att : Att) (d : NcData) : List String :=
  if att.type.isChar then [text d.bytes] else printedEach lib cfg (valueType att.type) d (valueCount att)

/-- The entry that belongs in the table. -/
def wholeEntry (att : Att) (d : NcData) : Entry := ⟨att.name, typeText cfg att.type, attValues lib cfg att d⟩

/-- The values that `readAttribute` adds, unless it throws. -/
def writtenValues (att : Att) (d : NcData) : Option (List String) :=
  if maxNcName ≤ att.name.utf8ByteSize then none else
  match att.type with
  | .atomic t =>
    if att.length + 1 < 2 ^ 31 then
      some (if t = .char then [cString d.bytes] else printedEach lib cfg t d att.length)
    else none
  | .opaqueBytes _ _ size =>
    if (att.length + 1) * size < 2 ^ 63 ∧ size ≤ 2 ^ 31 then some (printedEach lib cfg .byte d size) else none
  | .enum _ _ base _ => if att.length ≤ 2 ^ 31 then some (printedEach lib cfg base d att.length) else none
  | _ => none

end Values

def IsSupported (t : AtomicType) : Prop := t ≠ .int64 ∧ t ≠ .uint64

instance (t : AtomicType) : Decidable (IsSupported t) := inferInstanceAs (Decidable (_ ∧ _))

/-- A supported atomic type, an enumeration over one, or an opaque type. An enumeration is over integers, and
an opaque type has at least one byte. -/
def Supported : NcType → Prop
  | .atomic t => IsSupported t
  | .enum _ _ base _ => base ∈ [.byte, .ubyte, .short, .ushort, .int, .uint]
  | .opaqueBytes _ _ size => 0 < size
  | _ => False

/-- The code keeps all the values: the name fits its buffer, the lengths are small enough, no character is
NUL, and there is one value if the type is opaque. -/
def Kept (att : Att) (d : NcData) : Prop :=
  att.name.utf8ByteSize < maxNcName ∧
    match att.type with
    | .atomic t => att.length + 1 < 2 ^ 31 ∧ (t = .char → 0 ∉ d.bytes)
    | .opaqueBytes _ _ size => att.length = 1 ∧ size ≤ 2 ^ 31
    | .enum .. => att.length ≤ 2 ^ 31
    | _ => False

theorem supported_of_mem_base {t : AtomicType}
    (h : t ∈ [AtomicType.byte, .ubyte, .short, .ushort, .int, .uint]) : IsSupported t ∧ t ≠ .char := by
  cases t <;> simp_all [IsSupported]

/-! ## Printing -/

section Printing

variable (lib : DasLibrary) (cfg : Config)

theorem getD_toOption_ok {ε α : Type} (a b : α) : (Except.ok a : Except ε α).toOption.getD b = a := rfl

/-- A value is read from its own bytes only. -/
theorem littleEndian_element (t : AtomicType) (n : Nat) (hn : NcFile.sizeofAtomic t = n) (d : NcData)
    (i : Nat) :
    littleEndian (element t d i).bytes (0 + n * 0) n = littleEndian d.bytes (0 + n * i) n := by
  subst hn
  simp only [littleEndian, element, Nat.mul_zero, Nat.zero_add, List.drop_zero, List.take_take, Nat.min_self]

theorem littleEndianSigned_element (t : AtomicType) (n : Nat) (hn : NcFile.sizeofAtomic t = n)
    (d : NcData) (i : Nat) :
    littleEndianSigned (element t d i).bytes (0 + n * 0) n = littleEndianSigned d.bytes (0 + n * i) n := by
  rw [littleEndianSigned, littleEndianSigned, littleEndian_element t n hn]

theorem string_element (d : NcData) (i : Nat) :
    ((element .string d i).strings[0]?).getD "" = (d.strings[i]?).getD "" := by
  rw [element, List.getElem?_take_of_lt Nat.zero_lt_one, List.getElem?_drop, Nat.add_zero]

/-- `print_attr` at an index prints the value that is there, for all types but `NC_CHAR`. -/
theorem printAttr_eq {t : AtomicType} (ht : IsSupported t) (hchar : t ≠ .char) {loc : Nat}
    (hloc : loc < 2 ^ 31) (d : NcData) :
    printAttr lib cfg (.atomic t) loc d 0 = .ok (printed lib cfg t (element t d loc)) := by
  have hzero : ¬ 2 ^ 31 ≤ 0 := by omega
  unfold printed printAttr
  rw [if_neg (Nat.not_le.mpr hloc), if_neg hzero]
  cases t with
  | char => exact absurd rfl hchar
  | int64 => exact absurd rfl ht.1
  | uint64 => exact absurd rfl ht.2
  | string => exact congrArg Except.ok (string_element d loc).symm
  | byte =>
      have hunsigned := littleEndian_element .byte 1 rfl d loc
      have hsigned := littleEndianSigned_element .byte 1 rfl d loc
      simp only [Nat.one_mul, Nat.add_zero] at hunsigned hsigned ⊢
      rw [hunsigned, hsigned]
      split <;> rw [getD_toOption_ok]
  | ubyte =>
      have hunsigned := littleEndian_element .ubyte 1 rfl d loc
      simp only [Nat.one_mul, Nat.add_zero] at hunsigned ⊢
      rw [hunsigned, getD_toOption_ok]
  | short =>
      rw [littleEndianSigned_element .short 2 rfl, getD_toOption_ok]
  | int =>
      rw [littleEndianSigned_element .int 4 rfl, getD_toOption_ok]
  | ushort =>
      rw [littleEndian_element .ushort 2 rfl, getD_toOption_ok]
  | uint =>
      rw [littleEndian_element .uint 4 rfl, getD_toOption_ok]
  | float =>
      rw [littleEndian_element .float 4 rfl, getD_toOption_ok]
  | double =>
      rw [littleEndian_element .double 8 rfl, getD_toOption_ok]

theorem printAttr_big (type : NcType) {loc : Nat} (h : 2 ^ 31 ≤ loc) (d : NcData) :
    printAttr lib cfg type loc d 0 = .error .undefined := by
  unfold printAttr
  rw [if_pos h]

theorem printType_eq (type : NcType) :
    printType cfg (.atomic (valueType type)) = .ok (typeText cfg type) := by
  rw [typeText]
  cases valueType type <;> rfl

end Printing

/-! ## One attribute -/

section OneAttribute

variable {lib : DasLibrary} {entries : lib.Das → String → List Entry} {cfg : Config} {table name : String}
  {type : NcType}

/-- A loop of `append_attr` that can print everything leaves one entry. The entry grows by a value in each
round, so the induction is on the rounds, for any values that are there already. -/
theorem appendEach_ok (happend : AppendsAttrs lib entries) {vals : NcData} {typeName : String}
    {shown : Nat → String} (htype : printType cfg type = .ok typeName) {before : List Entry}
    (hfresh : ∀ e ∈ before, e.name ≠ name) {locs : List Nat} (values : List String) {das : lib.Das}
    (hprint : ∀ loc ∈ locs, printAttr lib cfg type loc vals 0 = .ok (shown loc))
    (hdas : entries das table = before ++ entryOf name typeName values) :
    ∃ das', appendEach lib cfg table name type vals locs das = .ok das' ∧
      entries das' table = before ++ entryOf name typeName (values ++ locs.map shown) := by
  induction locs generalizing values das with
  | nil => exact ⟨das, rfl, by rw [hdas, List.map_nil, List.append_nil]⟩
  | cons loc locs ih =>
      obtain ⟨hloc, hlocs⟩ := List.forall_mem_cons.mp hprint
      have hsame := type_of_mem_entryOf typeName values hfresh
      obtain ⟨das', hok, hentries⟩ := happend table name typeName (shown loc) das (hdas ▸ hsame)
      rw [hdas, addValue_entryOf typeName (shown loc) values hfresh] at hentries
      obtain ⟨das'', hrest, hdone⟩ := ih (values ++ [shown loc]) hlocs hentries
      refine ⟨das'', ?_, ?_⟩
      · rw [appendEach, appendValue, htype, ok_bind, hloc, ok_bind, hok, ok_bind, hrest]
      · rw [hdone, List.map_cons, List.append_assoc, List.singleton_append]

/-- A loop that ends has printed everything. -/
theorem printed_of_appendEach {vals : NcData} {locs : List Nat} {das das' : lib.Das}
    (h : appendEach lib cfg table name type vals locs das = .ok das') :
    ∀ loc ∈ locs, ∃ s, printAttr lib cfg type loc vals 0 = .ok s := by
  induction locs generalizing das with
  | nil => exact List.forall_mem_nil _
  | cons loc locs ih =>
      rw [appendEach] at h
      obtain ⟨das₁, hvalue, hrest⟩ := bind_eq_ok.mp h
      obtain ⟨typeName, -, hvalue⟩ := bind_eq_ok.mp hvalue
      obtain ⟨s, hs, -⟩ := bind_eq_ok.mp hvalue
      exact List.forall_mem_cons.mpr ⟨⟨s, hs⟩, ih hrest⟩

/-- What is left in a table that held `before`: an entry with these values, or the reading stopped. -/
def Leaves (entries : lib.Das → String → List Entry) (table name typeName : String) (before : List Entry)
    (r : Except NcError lib.Das) : Option (List String) → Prop
  | some values => ∃ das', r = .ok das' ∧ entries das' table = before ++ [⟨name, typeName, values⟩]
  | none => ∃ e, r = .error e

/-- A loop over at least one value that can print everything. -/
theorem leaves_appendEach (happend : AppendsAttrs lib entries) {vals : NcData} {typeName : String}
    {shown : Nat → String} (htype : printType cfg type = .ok typeName) {das : lib.Das}
    (hfresh : ∀ e ∈ entries das table, e.name ≠ name) {n : Nat} (hn : 1 ≤ n)
    (hprint : ∀ loc < n, printAttr lib cfg type loc vals 0 = .ok (shown loc)) :
    Leaves entries table name typeName (entries das table)
      (appendEach lib cfg table name type vals (List.range n) das) (some ((List.range n).map shown)) := by
  have hstart : entries das table = entries das table ++ entryOf name typeName [] := (List.append_nil _).symm
  obtain ⟨das', hok, hentries⟩ := appendEach_ok happend htype hfresh []
    (fun _ hloc => hprint _ (List.mem_range.mp hloc)) hstart
  refine ⟨das', hok, ?_⟩
  rw [hentries, List.nil_append]
  cases hlist : (List.range n).map shown with
  | nil =>
      rw [List.map_eq_nil_iff, List.range_eq_nil] at hlist
      omega
  | cons v vs => rfl

/-- The elements of a list of values. -/
theorem leaves_printedEach (happend : AppendsAttrs lib entries) {t : AtomicType} (ht : IsSupported t)
    (hchar : t ≠ .char) {typeName : String} (htype : printType cfg (.atomic t) = .ok typeName)
    {das : lib.Das} (hfresh : ∀ e ∈ entries das table, e.name ≠ name) {n : Nat} (hn : 1 ≤ n)
    (hmax : n ≤ 2 ^ 31) (d : NcData) :
    Leaves entries table name typeName (entries das table)
      (appendEach lib cfg table name (.atomic t) d (List.range n) das)
      (some (printedEach lib cfg t d n)) :=
  leaves_appendEach happend htype hfresh hn fun _ hloc =>
    printAttr_eq lib cfg ht hchar (Nat.lt_of_lt_of_le hloc hmax) d

/-- An index of 2^31 or more is no `int`. -/
theorem appendEach_error {n : Nat} (hn : 2 ^ 31 < n) (d : NcData) (das : lib.Das) :
    ∃ e, appendEach lib cfg table name type d (List.range n) das = .error e := by
  cases h : appendEach lib cfg table name type d (List.range n) das with
  | error e => exact ⟨e, rfl⟩
  | ok das' =>
      obtain ⟨s, hs⟩ := printed_of_appendEach h (2 ^ 31) (List.mem_range.mpr hn)
      rw [printAttr_big lib cfg type (Nat.le_refl _)] at hs
      cases hs

/-- What is behind the last character changes nothing. -/
theorem cString_concat (bytes : List UInt8) : cString (bytes ++ [0]) = cString bytes := by
  rw [cString, cString]
  congr 2
  induction bytes with
  | nil => rfl
  | cons b bytes ih => simp only [List.cons_append, List.takeWhile_cons, ih]

theorem sizeofAtomic_cases (t : AtomicType) : NcFile.sizeofAtomic t = 1 ∨ NcFile.sizeofAtomic t = 2 ∨
    NcFile.sizeofAtomic t = 4 ∨ NcFile.sizeofAtomic t = 8 := by
  cases t <;> simp [NcFile.sizeofAtomic]

/-- The buffer of `append_values` has the room that is needed, and no more than there can be, as long as the
number of values and one more is an `int`. -/
theorem room_iff (t : AtomicType) (len : Nat) :
    (toSizeT (toInt (len + 1) * NcFile.sizeofAtomic t) < 2 ^ 63 ∧
      len * NcFile.sizeofAtomic t ≤ toSizeT (toInt (len + 1) * NcFile.sizeofAtomic t)) ↔
    len + 1 < 2 ^ 31 := by
  have hsize := sizeofAtomic_cases t
  generalize NcFile.sizeofAtomic t = size at hsize ⊢
  simp only [toInt, toSizeT, Int.bmod]
  rcases hsize with rfl | rfl | rfl | rfl <;> split <;> omega

theorem find?_name {atts : List Att} (hnames : (atts.map Att.name).Nodup) {k : Nat} {att : Att}
    (hatt : atts[k]? = some att) : atts.find? (·.name == att.name) = some att := by
  have hmem := List.mem_of_getElem? hatt
  cases h : atts.find? (·.name == att.name) with
  | none => simpa using List.find?_eq_none.mp h att hmem
  | some a =>
      have hname : a.name = att.name := by simpa using List.find?_some h
      rw [List.inj_on_of_nodup_map hnames (List.mem_of_find?_eq_some h) hmem hname]

section Reading

variable {f : NcFile} {values : AttValues f} {varid : Option Nat} {k : Nat} {att : Att} {das : lib.Das}
  (ncid : Nat)

/-- The values arrive if the buffer is large enough. -/
theorem eval_getAtt (values : AttValues f) (hnames : ((f.attsOf varid).map Att.name).Nodup)
    (hatt : (f.attsOf varid)[k]? = some att) (room : Nat) (e : Int → NcError) :
    Throwing.eval values.serveAtt (accOrThrow (.ncGetAtt ncid varid att.name room) e) =
      if room < 2 ^ 63 ∧ att.length * NcFile.sizeofType att.type ≤ room then
        .ok (values.value varid att.name)
      else .error (e ncENotAtt) := by
  have hread : values.serveAtt (.ncGetAtt ncid varid att.name room) =
      if room < 2 ^ 63 ∧ att.length * NcFile.sizeofType att.type ≤ room then
        .ok (values.value varid att.name)
      else .fail ncENotAtt .empty := by
    show values.readAtt varid att.name room = _
    rw [AttValues.readAtt, find?_name hnames hatt]
  rw [eval_accOrThrow, hread]
  split <;> rfl

/-- `append_values`. -/
theorem leaves_appendValues (cfg : Config) (values : AttValues f) (happend : AppendsAttrs lib entries)
    (hnames : ((f.attsOf varid).map Att.name).Nodup) (hatt : (f.attsOf varid)[k]? = some att)
    {t : AtomicType} (htype : att.type = .atomic t) (ht : IsSupported t) (hlength : 1 ≤ att.length)
    (hfresh : ∀ e ∈ entries das table, e.name ≠ att.name) :
    Leaves entries table att.name (typeText cfg (.atomic t)) (entries das table)
      (Throwing.eval values.serveAtt
        (appendValues lib cfg table ncid varid att.length (.atomic t) att.name das))
      (if att.length + 1 < 2 ^ 31 then
        some (if t = .char then [cString (values.value varid att.name).bytes]
          else printedEach lib cfg t (values.value varid att.name) att.length)
      else none) := by
  have hsize : f.answer (.ncInqType ncid (.atomic t)) = .ok (NcFile.sizeofAtomic t) := rfl
  have htypeText := printType_eq cfg (.atomic t)
  have hget := eval_getAtt ncid values hnames hatt
  have hholds := values.holds varid att (List.mem_of_getElem? hatt)
  simp only [htype, NcFile.sizeofType] at hget
  rw [appendValues, Throwing.eval_bind, values.reports_serveAtt.eval _ hsize, ok_bind]
  dsimp only
  rw [Throwing.eval_bind, hget]
  by_cases hlen : att.length + 1 < 2 ^ 31
  case neg =>
    rw [if_neg (fun h => hlen ((room_iff t att.length).mp h)), if_neg hlen]
    exact ⟨_, rfl⟩
  have hint : (toInt att.length).toNat = att.length := by
    rw [toInt, Int.bmod_eq_of_le (by omega) (by omega), Int.toNat_natCast]
  rw [if_pos ((room_iff t att.length).mpr hlen), if_pos hlen, ok_bind, Throwing.eval_ofExcept, hint]
  by_cases hchar : t = .char
  · subst hchar
    have hbytes : (values.value varid att.name).bytes.take att.length =
        (values.value varid att.name).bytes := by
      rw [Holds, htype] at hholds
      exact List.take_of_length_le (Nat.le_of_eq (hholds.trans (Nat.mul_one _)))
    -- the loop goes round once, whatever the length
    have hprint : ∀ loc < 1, printAttr lib cfg (.atomic .char) loc
        ⟨(values.value varid att.name).bytes ++ [0], (values.value varid att.name).strings⟩ 0 =
          .ok (cString (values.value varid att.name).bytes) := by
      intro loc hloc
      rw [printAttr, if_neg (by omega), List.drop_zero, cString_concat]
    rw [if_pos rfl, hbytes]
    exact leaves_appendEach happend htypeText hfresh (Nat.le_refl 1) hprint
  · have htext : (NcType.atomic t).isChar = false := by
      cases t with
      | char => exact absurd rfl hchar
      | _ => rfl
    rw [if_neg hchar, htext]
    exact leaves_printedEach happend ht hchar htypeText hfresh hlength (by omega) _

/-- One round of the loop. -/
theorem leaves_readAttribute (cfg : Config) (values : AttValues f) (happend : AppendsAttrs lib entries)
    (hnames : ((f.attsOf varid).map Att.name).Nodup) (hatt : (f.attsOf varid)[k]? = some att)
    (hsupported : Supported att.type) (hlength : 1 ≤ att.length)
    (hfresh : ∀ e ∈ entries das table, e.name ≠ att.name) :
    Leaves entries table att.name (typeText cfg att.type) (entries das table)
      (Throwing.eval values.serveAtt (readAttribute lib cfg table ncid varid k das))
      (writtenValues lib cfg att (values.value varid att.name)) := by
  have hname : f.answer (.ncInqAttname ncid varid k) = .ok att.name := by
    show NcReply.ofOption ncENotAtt "" ((f.attsOf varid)[k]?.map Att.name) = .ok att.name
    rw [hatt, Option.map_some, NcReply.ofOption_some]
  have hinq : f.answer (.ncInqAtt ncid varid att.name) = .ok att := by
    show NcReply.ofOption ncENotAtt NcFile.noAtt ((f.attsOf varid).find? (·.name == att.name)) = .ok att
    rw [find?_name hnames hatt, NcReply.ofOption_some]
  have hreports := values.reports_serveAtt
  rw [readAttribute, Throwing.eval_bind, hreports.eval _ hname, ok_bind, Throwing.eval_bind,
    Throwing.eval_ofExcept, nameBuf]
  -- the buffer has room for the name only if it is shorter than `maxNcName`
  by_cases hfit : att.name.utf8ByteSize < maxNcName
  case neg =>
    rw [if_neg hfit, writtenValues, if_pos (Nat.le_of_not_lt hfit)]
    exact ⟨.undefined, rfl⟩
  rw [if_pos hfit, ok_bind, Throwing.eval_bind, hreports.eval _ hinq, ok_bind, writtenValues,
    if_neg (Nat.not_le.mpr hfit)]
  have hget := eval_getAtt ncid values hnames hatt
  have htypeText := printType_eq cfg att.type
  cases htype : att.type with
  | compound | vlen =>
      rw [htype] at hsupported
      exact hsupported.elim
  | opaqueBytes id typeName size =>
      have huser : f.answer (.ncInqUserType ncid (.opaqueBytes id typeName size)) = .ok () := rfl
      have hneeded : att.length * size ≤ (att.length + 1) * size :=
        Nat.mul_le_mul_right size (Nat.le_succ _)
      have hpos : 1 ≤ size := by rwa [htype] at hsupported
      rw [htype] at hget htypeText
      dsimp only
      rw [Throwing.eval_bind, hreports.eval _ huser, ok_bind, Throwing.eval_bind, hget]
      -- the vector has to be allocated, and then the index has to be an `int`
      by_cases hroom : (att.length + 1) * size < 2 ^ 63
      case neg =>
        rw [if_neg fun h => hroom h.1, if_neg fun h => hroom h.1]
        exact ⟨_, rfl⟩
      rw [if_pos ⟨hroom, hneeded⟩, ok_bind, Throwing.eval_ofExcept]
      by_cases hsize : size ≤ 2 ^ 31
      case neg =>
        rw [if_neg fun h => hsize h.2]
        exact appendEach_error (Nat.lt_of_not_le hsize) _ das
      rw [if_pos ⟨hroom, hsize⟩]
      -- the loop is over the bytes of one element, whatever the length of the attribute is
      exact leaves_printedEach happend (t := .byte) (by decide) (by decide) htypeText hfresh hpos hsize _
  | enum id typeName base members =>
      have huser : f.answer (.ncInqUserType ncid (.enum id typeName base members)) = .ok () := rfl
      have hneeded : att.length * NcFile.sizeofAtomic base ≤ (att.length + 1) * NcFile.sizeofAtomic base :=
        Nat.mul_le_mul_right _ (Nat.le_succ _)
      rw [htype] at hget htypeText hsupported
      dsimp only
      rw [Throwing.eval_bind, hreports.eval _ huser, ok_bind, Throwing.eval_bind, hget]
      by_cases hlen : att.length ≤ 2 ^ 31
      case neg =>
        rw [if_neg hlen]
        split
        · rw [ok_bind, Throwing.eval_ofExcept]
          exact appendEach_error (Nat.lt_of_not_le hlen) _ das
        · exact ⟨_, rfl⟩
      -- no element is larger than eight bytes
      have hroom : (att.length + 1) * NcFile.sizeofAtomic base < 2 ^ 63 := by
        have hsize := sizeofAtomic_cases base
        generalize NcFile.sizeofAtomic base = size at hsize ⊢
        rcases hsize with rfl | rfl | rfl | rfl <;> omega
      rw [if_pos ⟨hroom, hneeded⟩, ok_bind, Throwing.eval_ofExcept, if_pos hlen]
      obtain ⟨hbase, hchar⟩ := supported_of_mem_base hsupported
      exact leaves_printedEach happend hbase hchar htypeText hfresh hlength hlen _
  | atomic t =>
      rw [htype] at hsupported
      have hleaves := leaves_appendValues ncid cfg values happend hnames hatt htype
        hsupported hlength hfresh
      cases t with
      | int64 => exact absurd rfl hsupported.1
      | uint64 => exact absurd rfl hsupported.2
      | _ => exact hleaves

end Reading

end OneAttribute

/-! ## What is kept -/

section Kept

variable {lib : DasLibrary} {cfg : Config} {att : Att} {d : NcData}

theorem cString_eq_text_iff {bytes : List UInt8} : cString bytes = text bytes ↔ 0 ∉ bytes := by
  rw [cString, text, String.ofList_inj]
  constructor
  · intro h hzero
    have hlength := congrArg List.length h
    rw [List.length_map, List.length_map] at hlength
    have hself : bytes.takeWhile (· ≠ 0) = bytes := (List.takeWhile_prefix _).eq_of_length hlength
    have hne := List.takeWhile_eq_self_iff.mp hself 0 hzero
    exact absurd rfl (of_decide_eq_true hne)
  · intro h
    have hself : bytes.takeWhile (· ≠ 0) = bytes := by
      rw [List.takeWhile_eq_self_iff]
      intro b hb
      rw [decide_eq_true_iff]
      rintro rfl
      exact h hb
    rw [hself]

theorem printedEach_inj {t : AtomicType} {m n : Nat} :
    printedEach lib cfg t d m = printedEach lib cfg t d n ↔ m = n := by
  constructor
  · intro h
    have hlength := congrArg List.length h
    rwa [printedEach, printedEach, List.length_map, List.length_map, List.length_range, List.length_range]
      at hlength
  · rintro rfl
    rfl

/-- The values that are written are all the values. -/
theorem writtenValues_eq_iff (lib : DasLibrary) (cfg : Config) (hsupported : Supported att.type) :
    writtenValues lib cfg att d = some (attValues lib cfg att d) ↔ Kept att d := by
  by_cases hfit : att.name.utf8ByteSize < maxNcName
  case neg => simp [writtenValues, Kept, hfit, Nat.le_of_not_lt hfit]
  rw [writtenValues, if_neg (Nat.not_le.mpr hfit), Kept, and_iff_right hfit, attValues, valueCount]
  cases htype : att.type with
  | compound | vlen =>
      rw [htype] at hsupported
      exact hsupported.elim
  | opaqueBytes id typeName size =>
      rw [htype] at hsupported
      have hpos : 0 < size := hsupported
      -- one element has all the bytes only if it is the only one
      have hcount : size = att.length * size ↔ att.length = 1 := by
        rw [eq_comm, Nat.mul_eq_right (Nat.ne_of_gt hpos)]
      have htext : ¬ (NcType.opaqueBytes id typeName size).isChar = true := Bool.false_ne_true
      dsimp only [valueType]
      by_cases hroom : (att.length + 1) * size < 2 ^ 63 ∧ size ≤ 2 ^ 31
      · rw [if_pos hroom, Option.some_inj, if_neg htext, printedEach_inj, hcount]
        exact (and_iff_left hroom.2).symm
      · rw [if_neg hroom]
        refine iff_of_false nofun ?_
        rintro ⟨hone, hsize⟩
        rw [hone] at hroom
        omega
  | enum id typeName base members =>
      dsimp only [valueType]
      by_cases hlen : att.length ≤ 2 ^ 31
      · rw [if_pos hlen]
        exact iff_of_true rfl hlen
      · rw [if_neg hlen]
        exact iff_of_false nofun hlen
  | atomic t =>
      dsimp only [valueType]
      by_cases hlen : att.length + 1 < 2 ^ 31
      case neg =>
        rw [if_neg hlen]
        exact iff_of_false nofun fun h => hlen h.1
      rw [if_pos hlen, Option.some_inj, and_iff_right hlen]
      by_cases hchar : t = .char
      · subst hchar
        have hone : [cString d.bytes] = [text d.bytes] ↔ cString d.bytes = text d.bytes := List.singleton_inj
        rw [if_pos rfl, NcType.isChar, if_pos rfl, hone, cString_eq_text_iff]
        exact ⟨fun h _ => h, fun h => h rfl⟩
      · have htext : (NcType.atomic t).isChar = false := by
          cases t with
          | char => exact absurd rfl hchar
          | _ => rfl
        rw [if_neg hchar, htext]
        exact iff_of_true rfl fun h => absurd h hchar

end Kept

/-! ## The whole table -/

section Table

variable {lib : DasLibrary} {entries : lib.Das → String → List Entry} {cfg : Config} {f : NcFile}
  {values : AttValues f} {varid : Option Nat} {das : lib.Das}

/-- The entries that the loop adds, unless it throws. -/
def writtenEntries (lib : DasLibrary) (cfg : Config) (value : String → NcData) : List Att → Option (List Entry)
  | [] => some []
  | att :: atts =>
    match writtenValues lib cfg att (value att.name) with
    | none => none
    | some written =>
      (writtenEntries lib cfg value atts).map (⟨att.name, typeText cfg att.type, written⟩ :: ·)

/-- The entries have all values exactly if every attribute is kept whole. -/
theorem writtenEntries_eq_iff (lib : DasLibrary) (cfg : Config) {value : String → NcData} {atts : List Att}
    (hsupported : ∀ att ∈ atts, Supported att.type ∧ 1 ≤ att.length) :
    writtenEntries lib cfg value atts = some (atts.map fun att => wholeEntry lib cfg att (value att.name)) ↔
      ∀ att ∈ atts, Kept att (value att.name) := by
  induction atts with
  | nil => exact iff_of_true rfl (List.forall_mem_nil _)
  | cons att atts ih =>
      obtain ⟨⟨htype, -⟩, hsupported⟩ := List.forall_mem_cons.mp hsupported
      rw [List.forall_mem_cons, ← writtenValues_eq_iff lib cfg htype, ← ih hsupported,
        writtenEntries, List.map_cons]
      cases writtenValues lib cfg att (value att.name) with
      | none => simp
      | some written => simp [wholeEntry, Option.map_eq_some_iff, and_comm]

/-- What the loop leaves, by induction on the attributes that are still to come. None of them has an entry
yet, since all names differ. -/
theorem eval_readAttributes (cfg : Config) (values : AttValues f) (table : String) (ncid : Nat)
    (happend : AppendsAttrs lib entries) (hnames : ((f.attsOf varid).map Att.name).Nodup)
    {attrNums : List Nat} {atts : List Att}
    (hatts : List.Forall₂ (fun k att => (f.attsOf varid)[k]? = some att) attrNums atts)
    (hnodup : (atts.map Att.name).Nodup) (hsupported : ∀ att ∈ atts, Supported att.type ∧ 1 ≤ att.length)
    (hfresh : ∀ att ∈ atts, ∀ e ∈ entries das table, e.name ≠ att.name) :
    match writtenEntries lib cfg (values.value varid) atts with
    | some written => ∃ das', Throwing.eval values.serveAtt
        (readAttributes lib cfg table ncid varid attrNums das) = .ok das' ∧
          entries das' table = entries das table ++ written
    | none => ∃ e, Throwing.eval values.serveAtt
        (readAttributes lib cfg table ncid varid attrNums das) = .error e := by
  induction hatts generalizing das with
  | nil => exact ⟨das, rfl, (List.append_nil _).symm⟩
  | @cons k att attrNums atts hatt _ ih =>
      obtain ⟨⟨htype, hlength⟩, hsupported⟩ := List.forall_mem_cons.mp hsupported
      obtain ⟨hname, hnodup⟩ := List.nodup_cons.mp hnodup
      obtain ⟨hatt', hatts'⟩ := List.forall_mem_cons.mp hfresh
      have hleaves := leaves_readAttribute ncid cfg values happend hnames hatt htype hlength hatt'
      rw [readAttributes, Throwing.eval_bind, writtenEntries]
      cases hwritten : writtenValues lib cfg att (values.value varid att.name) with
      | none =>
          rw [hwritten] at hleaves
          obtain ⟨e, he⟩ := hleaves
          rw [he]
          exact ⟨e, rfl⟩
      | some written =>
          rw [hwritten] at hleaves
          obtain ⟨das₁, hok, hentries⟩ := hleaves
          -- the new entry has another name than those that are to come
          have hfresh' : ∀ att' ∈ atts, ∀ e ∈ entries das₁ table, e.name ≠ att'.name := by
            intro att' hatt' e he
            rw [hentries] at he
            rcases List.mem_append.mp he with he | he
            · exact hatts' att' hatt' e he
            · obtain rfl := List.mem_singleton.mp he
              intro heq
              exact hname (List.mem_map.mpr ⟨att', hatt', heq.symm⟩)
          have hrest := @ih das₁ hnodup hsupported hfresh'
          rw [hok, ok_bind]
          dsimp only
          cases hlater : writtenEntries lib cfg (values.value varid) atts with
          | none =>
              rw [hlater] at hrest
              exact hrest
          | some later =>
              rw [hlater] at hrest
              obtain ⟨das', hdone, hall⟩ := hrest
              refine ⟨das', hdone, ?_⟩
              rw [hall, hentries, List.append_assoc]
              rfl

/-- `readAttributes` leaves one entry for each attribute, in order, under the attribute's own name, and with
all of its values: exactly when the code keeps the values of each. -/
theorem readAttributes_iff (happend : AppendsAttrs lib entries) (table : String) (ncid : Nat)
    (hnames : ((f.attsOf varid).map Att.name).Nodup)
    (hsupported : ∀ att ∈ f.attsOf varid, Supported att.type ∧ 1 ≤ att.length)
    (hfresh : ∀ att ∈ f.attsOf varid, ∀ e ∈ entries das table, e.name ≠ att.name) :
    (∃ das', Throwing.eval values.serveAtt (readAttributes lib cfg table ncid varid
        (List.range (f.attsOf varid).length) das) = .ok das' ∧
      entries das' table = entries das table ++
        (f.attsOf varid).map fun att => wholeEntry lib cfg att (values.value varid att.name)) ↔
    ∀ att ∈ f.attsOf varid, Kept att (values.value varid att.name) := by
  have hatts : List.Forall₂ (fun k att => (f.attsOf varid)[k]? = some att)
      (List.range (f.attsOf varid).length) (f.attsOf varid) := by
    rw [List.forall₂_iff_get]
    refine ⟨List.length_range, ?_⟩
    intro i hi hi'
    simp
  have hrun := eval_readAttributes cfg values table ncid happend hnames hatts hnames hsupported hfresh
  rw [← writtenEntries_eq_iff lib cfg hsupported]
  cases hwritten : writtenEntries lib cfg (values.value varid) (f.attsOf varid) with
  | none =>
      rw [hwritten] at hrun
      obtain ⟨e, he⟩ := hrun
      rw [he]
      refine iff_of_false ?_ nofun
      rintro ⟨das', hok, -⟩
      cases hok
  | some written =>
      rw [hwritten] at hrun
      obtain ⟨das₁, hok, hentries⟩ := hrun
      rw [hok, Option.some_inj]
      constructor
      · rintro ⟨das', heq, hall⟩
        obtain rfl := Except.ok.inj heq
        rw [hentries] at hall
        exact List.append_cancel_left hall
      · rintro rfl
        exact ⟨das₁, rfl, hentries⟩

/-! ## Two variables -/

/-- A DAS that has every table. -/
def plainTables : DasLibrary where
  Das := String → List Entry
  empty := fun _ => []
  hasTable := fun _ _ => true
  addTable := fun _ das => .ok das
  appendAttr := fun table name type value das =>
    if ∀ e ∈ das table, e.name = name → e.type = type then
      .ok fun t => if t = table then addValue name type value (das table) else das t
    else .error (.error none "An attribute cannot have two types.")
  floatText := toString
  doubleText := toString

theorem appendsAttrs_plainTables : AppendsAttrs plainTables id := by
  intro table name type value das hsame
  exact ⟨_, if_pos hsame, if_pos rfl⟩

theorem noDims_nodup : (([] : List Dim).map Dim.name).Nodup := List.nodup_nil

theorem noDims_le : ∀ d ∈ ([] : List Dim), d.name.utf8ByteSize ≤ ncMaxName := List.forall_mem_nil _

/-- A variable with these attributes. -/
def NcFile.ofAtts (atts : List Att) : NcFile where
  dims := []
  vars := [⟨"x", .atomic .int, [], atts⟩]
  globalAtts := []
  unlimdim := none
  dimIds_lt := List.forall_mem_singleton.mpr (List.forall_mem_nil _)
  dimNames_nodup := noDims_nodup
  varNames_nodup := List.nodup_singleton _
  dimNames_le := noDims_le
  varNames_le := by
    intro v hv
    obtain rfl := List.mem_singleton.mp hv
    show "x".utf8ByteSize ≤ ncMaxName
    decide

def AttValues.ofAtts (atts : List Att) (value : String → NcData)
    (h : ∀ att ∈ atts, Holds att (value att.name)) : AttValues (NcFile.ofAtts atts) where
  value := fun _ => value
  holds := by
    intro varid att hatt
    match varid with
    | some 0 => exact h att hatt
    | none | some (n + 1) => cases hatt

/-- A text, two numbers, and an opaque value of two bytes. -/
def someAtts : List Att :=
  [⟨"units", .atomic .char, 1⟩, ⟨"valid_range", .atomic .short, 2⟩, ⟨"key", .opaqueBytes 40 "key_t" 2, 1⟩]

def someValues : String → NcData
  | "units" => ⟨[109], []⟩
  | "valid_range" => ⟨[1, 0, 255, 255], []⟩
  | _ => ⟨[7, 8], []⟩

theorem holds_someValues : ∀ att ∈ someAtts, Holds att (someValues att.name) := by
  intro att hatt
  simp only [someAtts, List.mem_cons, List.not_mem_nil, or_false] at hatt
  rcases hatt with rfl | rfl | rfl <;> rfl

theorem readAttributes_someAtts : ∃ das', Throwing.eval
    (AttValues.ofAtts someAtts someValues holds_someValues).serveAtt
    (readAttributes plainTables {} "x" 1 (some 0) (List.range 3) fun _ => []) = .ok das' ∧
    das' "x" = [⟨"units", "String", ["m"]⟩, ⟨"valid_range", "Int16", ["1", "-1"]⟩,
      ⟨"key", "Byte", ["7", "8"]⟩] := by
  have hsupported : ∀ att ∈ (NcFile.ofAtts someAtts).attsOf (some 0),
      Supported att.type ∧ 1 ≤ att.length := by
    intro att hatt
    change att ∈ someAtts at hatt
    simp only [someAtts, List.mem_cons, List.not_mem_nil, or_false] at hatt
    rcases hatt with rfl | rfl | rfl <;> simp [Supported, IsSupported]
  have hkept : ∀ att ∈ someAtts, Kept att (someValues att.name) := by
    intro att hatt
    simp only [someAtts, List.mem_cons, List.not_mem_nil, or_false] at hatt
    rcases hatt with rfl | rfl | rfl <;> simp only [Kept] <;> decide
  have hall : ∃ das', Throwing.eval (AttValues.ofAtts someAtts someValues holds_someValues).serveAtt
      (readAttributes plainTables {} "x" 1 (some 0) (List.range 3) fun _ => []) = .ok das' ∧
        das' "x" = [] ++ someAtts.map fun att => wholeEntry plainTables {} att (someValues att.name) :=
    (readAttributes_iff appendsAttrs_plainTables "x" 1 (by decide) hsupported
      (fun _ _ => List.forall_mem_nil _)).mpr hkept
  obtain ⟨das', hok, hentries⟩ := hall
  exact ⟨das', hok, hentries.trans (by decide +kernel)⟩

/-- An opaque attribute of two values, one byte each. -/
def twoKeys : List Att := [⟨"key", .opaqueBytes 40 "key_t" 1, 2⟩]

theorem holds_twoKeys : ∀ att ∈ twoKeys, Holds att ⟨[7, 8], []⟩ := by
  intro att hatt
  obtain rfl := List.mem_singleton.mp hatt
  rfl

/-- The second value is lost. -/
theorem readAttributes_twoKeys : ¬ ∃ das', Throwing.eval
    (AttValues.ofAtts twoKeys (fun _ => ⟨[7, 8], []⟩) holds_twoKeys).serveAtt
    (readAttributes plainTables {} "x" 1 (some 0) (List.range 1) fun _ => []) = .ok das' ∧
    das' "x" = [⟨"key", "Byte", ["7", "8"]⟩] := by
  rintro ⟨das', hok, hall⟩
  have hone : (Throwing.eval (AttValues.ofAtts twoKeys (fun _ => ⟨[7, 8], []⟩) holds_twoKeys).serveAtt
      (readAttributes plainTables {} "x" 1 (some 0) (List.range 1) fun _ => [])).map (· "x") =
        .ok [⟨"key", "Byte", ["7"]⟩] := by
    rfl
  rw [hok] at hone
  have hvalues := hall.symm.trans (Except.ok.inj hone)
  exact absurd hvalues (by decide)

end Table

end Skunk.NetCDF.Ncdas
