import Skunk.NetCDF.Attributes
import Skunk.NetCDF.CharRows

/-!
# The DAS of a dataset

`readDatasetAttributes` goes over the variables, then over the global attributes, and then looks for an
unlimited dimension. Each of these has a table of its own, so that what one step adds is still there at the
end. `wholeTables` is what the DAS should hold; it does, and has no other table.

Some entries belong to no attribute: the length of the strings in a character array, and the type of a
variable that DAP2 cannot express.
-/

namespace Skunk.NetCDF.Ncdas

open Skunk.Effect

/-! ## Changes to a DAS -/

section Changes

variable {lib : DasLibrary} (entries : lib.Das → String → List Entry)

/-- No table but this one is different. -/
structure Elsewhere (table : String) (das das' : lib.Das) : Prop where
  hasTable : ∀ t, lib.hasTable t das' = lib.hasTable t das
  same : ∀ t, t ≠ table → entries das' t = entries das t

/-- The table has these entries more, and no other is different. -/
structure Grows (table : String) (das das' : lib.Das) (more : List Entry) : Prop extends
    Elsewhere entries table das das' where
  here : entries das' table = entries das table ++ more

/-- The DAS has these tables more, with these entries. -/
structure Gains (das das' : lib.Das) (tables : List (String × List Entry)) : Prop where
  hasTable : ∀ t, lib.hasTable t das' = true ↔ lib.hasTable t das = true ∨ t ∈ tables.map Prod.fst
  here : ∀ p ∈ tables, entries das' p.1 = p.2
  same : ∀ t, t ∉ tables.map Prod.fst → entries das' t = entries das t

/-- What the handler relies on: a value goes into the table that it is for, a table that is added is empty,
and an empty DAS has none. -/
structure KeepsTables : Prop where
  append : AppendsAttrs lib entries
  elsewhere : ∀ {table name type value das das'},
    lib.appendAttr table name type value das = .ok das' → Elsewhere entries table das das'
  add : ∀ {table das}, lib.hasTable table das = false →
    ∃ das', lib.addTable table das = .ok das' ∧ Gains entries das das' [(table, [])]
  empty : ∀ t, lib.hasTable t lib.empty = false

variable {entries} {table : String} {das das₁ das₂ : lib.Das}

theorem Elsewhere.refl (table : String) (das : lib.Das) : Elsewhere entries table das das :=
  ⟨fun _ => rfl, fun _ _ => rfl⟩

theorem Elsewhere.trans (h : Elsewhere entries table das das₁) (h' : Elsewhere entries table das₁ das₂) :
    Elsewhere entries table das das₂ where
  hasTable t := (h'.hasTable t).trans (h.hasTable t)
  same t ht := (h'.same t ht).trans (h.same t ht)

theorem Grows.refl (table : String) (das : lib.Das) : Grows entries table das das [] :=
  ⟨.refl table das, (List.append_nil _).symm⟩

theorem Grows.trans {more more' : List Entry} (h : Grows entries table das das₁ more)
    (h' : Grows entries table das₁ das₂ more') : Grows entries table das das₂ (more ++ more') where
  toElsewhere := h.toElsewhere.trans h'.toElsewhere
  here := by rw [h'.here, h.here, List.append_assoc]

theorem Gains.refl (das : lib.Das) : Gains entries das das [] := by
  refine ⟨?_, ?_, ?_⟩ <;> simp

/-- A table that is new grows. -/
theorem Gains.grows {more : List Entry} (h : Gains entries das das₁ [(table, [])])
    (h' : Grows entries table das₁ das₂ more) : Gains entries das das₂ [(table, more)] where
  hasTable t := by
    rw [h'.hasTable, h.hasTable]
    rfl
  here p hp := by
    obtain rfl := List.mem_singleton.mp hp
    show entries das₂ table = more
    rw [h'.here, h.here (table, []) (List.mem_singleton_self _), List.nil_append]
  same t ht := by
    have hne : t ≠ table := by simpa using ht
    rw [h'.same t hne]
    apply h.same
    simpa using hne

/-- Tables with other names. -/
theorem Gains.trans {tables tables' : List (String × List Entry)} (h : Gains entries das das₁ tables)
    (h' : Gains entries das₁ das₂ tables') (hnew : ∀ t ∈ tables.map Prod.fst, t ∉ tables'.map Prod.fst) :
    Gains entries das das₂ (tables ++ tables') where
  hasTable t := by
    rw [h'.hasTable, h.hasTable, List.map_append, List.mem_append, or_assoc]
  here p hp := by
    rcases List.mem_append.mp hp with hp | hp
    · rw [h'.same _ (hnew _ (List.mem_map_of_mem hp))]
      exact h.here p hp
    · exact h'.here p hp
  same t ht := by
    rw [List.map_append, List.mem_append, not_or] at ht
    rw [h'.same t ht.2]
    exact h.same t ht.1

/-- A DAS that was empty has no table under a name that is still to come. -/
theorem Gains.new {tables tables' : List (String × List Entry)} (h : Gains entries das das₁ tables)
    (hempty : ∀ t, lib.hasTable t das = false)
    (hnodup : ∀ t ∈ tables.map Prod.fst, ∀ t' ∈ tables'.map Prod.fst, t ≠ t') :
    ∀ t ∈ tables'.map Prod.fst, lib.hasTable t das₁ = false := by
  intro t ht
  rw [Bool.eq_false_iff, Ne, h.hasTable, not_or]
  exact ⟨by simp [hempty t], fun ht' => hnodup t ht' t ht rfl⟩

/-- The first value of an entry. -/
theorem KeepsTables.append_new (h : KeepsTables entries) {name : String} (type value : String)
    (hfresh : ∀ e ∈ entries das table, e.name ≠ name) :
    ∃ das', lib.appendAttr table name type value das = .ok das' ∧
      Grows entries table das das' [⟨name, type, [value]⟩] := by
  obtain ⟨das', hok, hhere⟩ := h.append table name type value das fun e he hname => absurd hname (hfresh e he)
  refine ⟨das', hok, h.elsewhere hok, ?_⟩
  have hstart := addValue_entryOf type value [] hfresh
  rw [entryOf, List.append_nil] at hstart
  rw [hhere, hstart]
  rfl

end Changes

/-! ## What an attribute leaves alone -/

section Frame

variable {lib : DasLibrary} {entries : lib.Das → String → List Entry} {cfg : Config} {table : String}
  {das das' : lib.Das} {read : (c : NcAccess) → NcReply c.Out}

/-- What comes before, and returns no DAS, changes none. -/
theorem elsewhere_bind {α : Type} {x : Acc α} {k : α → Acc lib.Das}
    (hk : ∀ a, Throwing.eval read (k a) = .ok das' → Elsewhere entries table das das')
    (hok : Throwing.eval read (x >>= k) = .ok das') : Elsewhere entries table das das' := by
  rw [Throwing.eval_bind] at hok
  obtain ⟨a, -, hok⟩ := bind_eq_ok.mp hok
  exact hk a hok

theorem elsewhere_appendValue (h : KeepsTables entries) {name : String} {type : NcType} {loc offset : Nat}
    {vals : NcData} (hok : appendValue lib cfg table name type loc vals offset das = .ok das') :
    Elsewhere entries table das das' := by
  rw [appendValue] at hok
  obtain ⟨typeName, -, hok⟩ := bind_eq_ok.mp hok
  obtain ⟨value, -, hok⟩ := bind_eq_ok.mp hok
  exact h.elsewhere hok

theorem elsewhere_appendEach (h : KeepsTables entries) {name : String} {type : NcType} {vals : NcData}
    {locs : List Nat} (hok : appendEach lib cfg table name type vals locs das = .ok das') :
    Elsewhere entries table das das' := by
  induction locs generalizing das with
  | nil =>
      obtain rfl := Except.ok.inj hok
      exact .refl table das
  | cons loc locs ih =>
      rw [appendEach] at hok
      obtain ⟨das₁, hvalue, hok⟩ := bind_eq_ok.mp hok
      exact (elsewhere_appendValue h hvalue).trans (ih hok)

/-- The fields of a compound leave the other tables alone. -/
theorem elsewhere_appendFields (h : KeepsTables entries) {ncid : Nat} {type : NcType} {vals : NcData}
    (fields : NcFields) {i : Nat} {before : lib.Das}
    (hok : Throwing.eval read (appendFields lib cfg table ncid type vals fields i before) = .ok das') :
    Elsewhere entries table before das' := by
  match fields with
  | .nil =>
      obtain rfl := Except.ok.inj hok
      exact .refl table before
  | .cons fieldName fieldOffset fieldType sizes rest =>
      rw [appendFields] at hok
      apply elsewhere_bind _ hok
      intro _ hok
      rw [Throwing.eval_bind, Throwing.eval_ofExcept] at hok
      obtain ⟨das₁, hvalue, hok⟩ := bind_eq_ok.mp hok
      exact (elsewhere_appendValue h hvalue).trans (elsewhere_appendFields h rest hok)

/-- The values of an attribute leave the other tables alone. -/
theorem elsewhere_appendValues (h : KeepsTables entries) {ncid len : Nat} {varid : Option Nat} {type : NcType}
    {name : String}
    (hok : Throwing.eval read (appendValues lib cfg table ncid varid len type name das) = .ok das') :
    Elsewhere entries table das das' := by
  rw [appendValues] at hok
  apply elsewhere_bind _ hok
  intro size hok
  apply elsewhere_bind _ hok
  intro value hok
  exact elsewhere_appendEach h hok

/-- An attribute of any type, whatever the library answers. -/
theorem elsewhere_readAttribute (h : KeepsTables entries) {ncid attrNum : Nat} {varid : Option Nat}
    (hok : Throwing.eval read (readAttribute lib cfg table ncid varid attrNum das) = .ok das') :
    Elsewhere entries table das das' := by
  rw [readAttribute] at hok
  apply elsewhere_bind _ hok
  intro name hok
  apply elsewhere_bind _ hok
  intro attrname hok
  apply elsewhere_bind _ hok
  intro att hok
  cases htype : att.type with
  | compound id name size fields =>
      rw [htype] at hok
      apply elsewhere_bind _ hok
      intro _ hok
      apply elsewhere_bind _ hok
      intro values hok
      exact elsewhere_appendFields h fields hok
  | vlen id name size =>
      rw [htype] at hok
      apply elsewhere_bind _ hok
      intro _ hok
      split at hok
      · obtain rfl := Except.ok.inj hok
        exact .refl table das
      · cases hok
  | opaqueBytes | enum =>
      rw [htype] at hok
      apply elsewhere_bind _ hok
      intro _ hok
      apply elsewhere_bind _ hok
      intro values hok
      exact elsewhere_appendEach h hok
  | atomic t =>
      rw [htype] at hok
      cases t with
      | int64 | uint64 =>
          apply elsewhere_bind _ hok
          intro typeName hok
          exact h.elsewhere hok
      | _ => exact elsewhere_appendValues h hok

/-- The attributes of a variable leave the other tables alone. -/
theorem elsewhere_readAttributes (h : KeepsTables entries) {ncid : Nat} {varid : Option Nat}
    {attrNums : List Nat}
    (hok : Throwing.eval read (readAttributes lib cfg table ncid varid attrNums das) = .ok das') :
    Elsewhere entries table das das' := by
  induction attrNums generalizing das with
  | nil =>
      obtain rfl := Except.ok.inj hok
      exact .refl table das
  | cons attrNum attrNums ih =>
      rw [readAttributes, Throwing.eval_bind] at hok
      obtain ⟨das₁, hone, hok⟩ := bind_eq_ok.mp hok
      exact (elsewhere_readAttribute h hone).trans (ih hok)

end Frame

/-! ## What the tables should hold -/

section Tables

variable (lib : DasLibrary) (cfg : Config) (f : NcFile) (values : AttValues f)

/-- The length of the strings in a character array; a single character is a string of one. -/
def stringLengthOf (v : Var) : Nat := if v.ndims = 0 then 1 else f.lastLength v

/-- A member of an enumeration as it is printed. A `byte` is unsigned in DAP2. -/
def memberText (base : AtomicType) (value : Int) : String :=
  if base = .byte ∧ cfg.promoteByteToShort = false then toString (value % 256) else toString value

/-- The type that a variable has in the file. -/
def originalEntries (base name : String) : List Entry :=
  [⟨"DAP2_OriginalNetCDFBaseType", "String", [base]⟩, ⟨"DAP2_OriginalNetCDFTypeName", "String", [name]⟩]

def enumEntries (base : AtomicType) (members : List (String × Int)) : List Entry :=
  entryOf "DAP2_EnumValues" (typeText cfg (.atomic base)) (members.map fun m => memberText cfg base m.2) ++
    entryOf "DAP2_EnumNames" "String" (members.map Prod.fst)

/-- The entries that belong to no attribute. -/
def specialEntries (v : Var) : List Entry :=
  match v.type with
  | .atomic .char => [⟨"string_length", "Int32", [toString (stringLengthOf f v)]⟩]
  | .opaqueBytes _ name _ => originalEntries "NC_OPAQUE" name
  | .enum _ name base members => enumEntries cfg base members ++ originalEntries "NC_ENUM" name
  | _ => []

variable {f}

def attEntries (varid : Option Nat) : List Entry :=
  (f.attsOf varid).map fun att => wholeEntry lib cfg att (values.value varid att.name)

def variableTable (varid : Nat) (v : Var) : String × List Entry :=
  (v.name, attEntries lib cfg values (some varid) ++ specialEntries cfg f v)

/-- The table of the global attributes; there is none without attributes. -/
def globalTables : List (String × List Entry) :=
  if f.globalAtts = [] then [] else [("NC_GLOBAL", attEntries lib cfg values none)]

/-- The table that names the unlimited dimension. -/
def extraTables (f : NcFile) : List (String × List Entry) :=
  match f.unlimdim with
  | none => []
  | some d => [("DODS_EXTRA", [⟨"Unlimited_Dimension", "String", [dimName f d]⟩])]

def variableTables : List (String × List Entry) := f.vars.mapIdx (variableTable lib cfg values)

def wholeTables : List (String × List Entry) :=
  variableTables lib cfg values ++ globalTables lib cfg values ++ extraTables f

end Tables

def IsSigned (t : AtomicType) : Prop := t ∈ [.byte, .short, .int]

instance (t : AtomicType) : Decidable (IsSigned t) := inferInstanceAs (Decidable (_ ∈ _))

/-- The number of bits that a type has for numbers of one sign. -/
def valueBits (t : AtomicType) : Nat := 8 * NcFile.sizeofAtomic t - if IsSigned t then 1 else 0

/-- The numbers that a type has. -/
def InRange (t : AtomicType) (value : Int) : Prop :=
  (if IsSigned t then -2 ^ valueBits t else 0) ≤ value ∧ value < 2 ^ valueBits t

instance (t : AtomicType) (value : Int) : Decidable (InRange t value) := inferInstanceAs (Decidable (_ ∧ _))

/-- A variable whose type the handler can describe: an enumeration is not over 64 bits, and the length of a
string is an `int`. -/
def Describable (f : NcFile) (v : Var) : Prop :=
  match v.type with
  | .atomic .char => stringLengthOf f v < 2 ^ 31
  | .enum _ _ base members =>
    base ∈ [.byte, .ubyte, .short, .ushort, .int, .uint] ∧ ∀ m ∈ members, InRange base m.2
  | _ => True

/-! ## Entries of no attribute -/

section Special

variable {lib : DasLibrary} {entries : lib.Das → String → List Entry} {cfg : Config} {f : NcFile}
  {table : String} {das : lib.Das} {read : (c : NcAccess) → NcReply c.Out} {v : Var} {varid : Nat}

theorem emod_byte_mul (x : Int) {m : Int} (hm : 0 < m) : x % (256 * m) = x % 256 + 256 * (x / 256 % m) := by
  have hbyte := Int.emod_add_mul_ediv x 256
  have hrest := Int.emod_add_mul_ediv (x / 256) m
  have hsplit : x = x % 256 + 256 * (x / 256 % m) + 256 * m * (x / 256 / m) := by
    rw [mul_assoc, add_assoc, ← mul_add, hrest, hbyte]
  have hnonneg := Int.emod_nonneg (x / 256) (Int.ne_of_gt hm)
  have hlt := Int.emod_lt_of_pos (x / 256) hm
  conv_lhs => rw [hsplit, Int.add_mul_emod_self_left]
  apply Int.emod_eq_of_lt <;> omega

/-- Bytes, the lowest first, and the number that they were made of. -/
theorem littleEndian_toLittleEndian (n : Nat) (x : Int) :
    (littleEndian (toLittleEndian n x) 0 n : Int) = x % 256 ^ n := by
  have hlength : ∀ (n : Nat) (x : Int), (toLittleEndian n x).length = n := by
    intro n
    induction n with
    | zero => intro x; rfl
    | succ n ih => intro x; rw [toLittleEndian, List.length_cons, ih]
  rw [littleEndian, List.drop_zero, List.take_of_length_le (Nat.le_of_eq (hlength n x))]
  induction n generalizing x with
  | zero => simp [toLittleEndian]
  | succ n ih =>
      have hbyte : ((UInt8.ofNat (x % 256).toNat).toNat : Int) = x % 256 := by
        rw [UInt8.toNat_ofNat']
        omega
      rw [toLittleEndian, List.foldr_cons, Nat.cast_add, Nat.cast_mul, ih, hbyte, pow_succ,
        mul_comm (256 ^ n)]
      exact (emod_byte_mul x (by positivity)).symm

theorem toString_littleEndian {n : Nat} {x : Int} (hlow : 0 ≤ x) (hhigh : x < 256 ^ n) :
    toString (littleEndian (toLittleEndian n x) 0 n) = toString x := by
  have hbytes := littleEndian_toLittleEndian n x
  rw [Int.emod_eq_of_lt hlow hhigh] at hbytes
  exact congrArg toString hbytes

theorem littleEndianSigned_toLittleEndian {n : Nat} (hn : 0 < n) {x : Int} (hlow : -2 ^ (8 * n - 1) ≤ x)
    (hhigh : x < 2 ^ (8 * n - 1)) : littleEndianSigned (toLittleEndian n x) 0 n = x := by
  have hpow : (256 : Int) ^ n = ((2 ^ (8 * n) : Nat) : Int) := by
    rw [Nat.cast_pow, pow_mul]
    rfl
  have hhalf : (2 : Int) ^ (8 * n) = 2 * 2 ^ (8 * n - 1) := by
    rw [← pow_succ']
    congr 1
    omega
  rw [littleEndianSigned, littleEndian_toLittleEndian, hpow, Int.emod_bmod]
  apply Int.bmod_eq_of_le <;> push_cast <;> omega

/-- `print_attr` prints the number of a member. -/
theorem printAttr_member {base : AtomicType} (hbase : base ∈ [.byte, .ubyte, .short, .ushort, .int, .uint])
    {value : Int} (hrange : InRange base value) :
    printAttr lib cfg (.atomic base) 0 ⟨toLittleEndian (NcFile.sizeofAtomic base) value, []⟩ 0 =
      .ok (memberText cfg base value) := by
  obtain ⟨hlow, hhigh⟩ := hrange
  unfold printAttr memberText
  rw [if_neg (by omega)]
  simp only [List.mem_cons, List.not_mem_nil, or_false] at hbase
  rcases hbase with rfl | rfl | rfl | rfl | rfl | rfl
  · cases hpromote : cfg.promoteByteToShort with
    | true => exact congrArg (Except.ok ∘ toString) (littleEndianSigned_toLittleEndian Nat.one_pos hlow hhigh)
    | false => exact congrArg (Except.ok ∘ toString) (littleEndian_toLittleEndian 1 value)
  · exact congrArg Except.ok (toString_littleEndian hlow hhigh)
  · exact congrArg (Except.ok ∘ toString) (littleEndianSigned_toLittleEndian (n := 2) (by omega) hlow hhigh)
  · exact congrArg Except.ok (toString_littleEndian hlow hhigh)
  · exact congrArg (Except.ok ∘ toString) (littleEndianSigned_toLittleEndian (n := 4) (by omega) hlow hhigh)
  · exact congrArg Except.ok (toString_littleEndian hlow hhigh)

/-- A value for an entry that others follow. -/
theorem addValue_entryOf_append {name : String} (type value : String) (shown : List String)
    {before after : List Entry} (hbefore : ∀ e ∈ before, e.name ≠ name) (hafter : ∀ e ∈ after, e.name ≠ name)
    (hlast : shown = [] → after = []) :
    addValue name type value (before ++ entryOf name type shown ++ after) =
      before ++ entryOf name type (shown ++ [value]) ++ after := by
  cases shown with
  | nil =>
      rw [hlast rfl, List.append_nil, List.append_nil]
      exact addValue_entryOf type value [] hbefore
  | cons s shown =>
      have hsame : ∀ {l : List Entry}, (∀ e ∈ l, e.name ≠ name) →
          l.map (fun e => if e.name = name then { e with values := e.values ++ [value] } else e) = l := by
        intro l hl
        rw [List.map_congr_left fun e he => if_neg (hl e he)]
        exact List.map_id _
      simp [addValue, entryOf, hsame hbefore, hsame hafter]

theorem name_of_mem_entryOf {name type : String} {shown : List String} {e : Entry}
    (he : e ∈ entryOf name type shown) : e.name = name := by
  cases shown with
  | nil => cases he
  | cons s shown =>
      obtain rfl := List.mem_singleton.mp he
      rfl

/-- One more member. The two entries grow together. -/
theorem append_member (h : KeepsTables entries) {base : AtomicType} {before : List Entry}
    (hfresh : ∀ e ∈ before, e.name ≠ "DAP2_EnumValues" ∧ e.name ≠ "DAP2_EnumNames")
    {members : List (String × Int)} (hdas : entries das table = before ++ enumEntries cfg base members)
    (m : String × Int) :
    ∃ das₁ das₂,
      lib.appendAttr table "DAP2_EnumValues" (typeText cfg (.atomic base)) (memberText cfg base m.2) das =
        .ok das₁ ∧
      lib.appendAttr table "DAP2_EnumNames" "String" m.1 das₁ = .ok das₂ ∧
      Elsewhere entries table das das₂ ∧
      entries das₂ table = before ++ enumEntries cfg base (members ++ [m]) := by
  have hvalues : ∀ e ∈ before, e.name ≠ "DAP2_EnumValues" := fun e he => (hfresh e he).1
  have hnames : ∀ {shown}, ∀ e ∈ entryOf "DAP2_EnumNames" "String" shown, e.name ≠ "DAP2_EnumValues" := by
    intro shown e he
    rw [name_of_mem_entryOf he]
    decide
  rw [enumEntries, ← List.append_assoc] at hdas
  have htype := type_of_mem_entryOf (typeText cfg (.atomic base))
    (members.map fun m => memberText cfg base m.2) hvalues
  obtain ⟨das₁, hvalue, hhere₁⟩ := h.append table "DAP2_EnumValues" (typeText cfg (.atomic base))
    (memberText cfg base m.2) das (by
      rw [hdas]
      intro e he hname
      rcases List.mem_append.mp he with he | he
      · exact htype e he hname
      · exact absurd hname (hnames e he))
  rw [hdas, addValue_entryOf_append _ _ _ hvalues hnames (by simp +contextual [entryOf])] at hhere₁
  have hfront : ∀ e ∈ before ++ entryOf "DAP2_EnumValues" (typeText cfg (.atomic base))
      (members.map (fun m => memberText cfg base m.2) ++ [memberText cfg base m.2]),
      e.name ≠ "DAP2_EnumNames" := by
    intro e he
    rcases List.mem_append.mp he with he | he
    · exact (hfresh e he).2
    · rw [name_of_mem_entryOf he]
      decide
  obtain ⟨das₂, hname, hhere₂⟩ := h.append table "DAP2_EnumNames" "String" m.1 das₁ (by
    rw [hhere₁]
    exact type_of_mem_entryOf _ _ hfront)
  refine ⟨das₁, das₂, hvalue, hname, (h.elsewhere hvalue).trans (h.elsewhere hname), ?_⟩
  rw [hhere₂, hhere₁, addValue_entryOf _ _ _ hfront, enumEntries, List.map_append, List.map_append,
    List.append_assoc]
  rfl

/-- All the members, for any number of them that is there already. -/
theorem eval_enumMembers (h : KeepsTables entries) (hreports : Reports f read) (cfg : Config) (ncid id : Nat)
    (name : String) {base : AtomicType} (hbase : base ∈ [.byte, .ubyte, .short, .ushort, .int, .uint])
    (all : List (String × Int)) {before : List Entry}
    (hfresh : ∀ e ∈ before, e.name ≠ "DAP2_EnumValues" ∧ e.name ≠ "DAP2_EnumNames")
    {members : List (String × Int)} (hrange : ∀ m ∈ members, InRange base m.2) (done : List (String × Int))
    (i : Nat) (hdas : entries das table = before ++ enumEntries cfg base done) :
    ∃ das', Throwing.eval read
        (enumMembers lib cfg ncid table (.enum id name base all) base members i das) = .ok das' ∧
      Elsewhere entries table das das' ∧
      entries das' table = before ++ enumEntries cfg base (done ++ members) := by
  induction members generalizing done das i with
  | nil => exact ⟨das, rfl, .refl table das, by simp [hdas]⟩
  | cons m members ih =>
      obtain ⟨memberName, value⟩ := m
      obtain ⟨hvalue, hrest⟩ := List.forall_mem_cons.mp hrange
      obtain ⟨das₁, das₂, hok₁, hok₂, helse, hhere⟩ := append_member h hfresh hdas (memberName, value)
      obtain ⟨das', hok, helse', hhere'⟩ := ih hrest (done ++ [(memberName, value)]) (i + 1) hhere
      refine ⟨das', ?_, helse.trans helse', ?_⟩
      · have hanswer : f.answer (.ncInqEnumMember ncid (.enum id name base all) i) = .ok () := rfl
        have htype : printType cfg (.atomic base) = .ok (typeText cfg (.atomic base)) :=
          printType_eq cfg (.atomic base)
        rw [enumMembers, Throwing.eval_bind, hreports.eval _ hanswer, ok_bind]
        dsimp only
        rw [Throwing.eval_bind, Throwing.eval_ofExcept, appendValue, htype, ok_bind,
          printAttr_member hbase hvalue, ok_bind, hok₁, ok_bind, Throwing.eval_bind, Throwing.eval_ofExcept,
          hok₂, ok_bind, hok]
      · rw [hhere', List.append_assoc, List.singleton_append]

/-- The two entries of an enumeration; there are none if it has no members. -/
theorem grows_enumMembers (h : KeepsTables entries) (hreports : Reports f read) (cfg : Config) (ncid id : Nat)
    (name : String) {base : AtomicType} (hbase : base ∈ [.byte, .ubyte, .short, .ushort, .int, .uint])
    {members : List (String × Int)} (hrange : ∀ m ∈ members, InRange base m.2)
    (hfresh : ∀ e ∈ entries das table, ∀ e' ∈ enumEntries cfg base members, e.name ≠ e'.name) :
    ∃ das', Throwing.eval read
        (enumMembers lib cfg ncid table (.enum id name base members) base members 0 das) = .ok das' ∧
      Grows entries table das das' (enumEntries cfg base members) := by
  cases members with
  | nil => exact ⟨das, rfl, .refl table das⟩
  | cons m members =>
      have hboth : ∀ e ∈ entries das table, e.name ≠ "DAP2_EnumValues" ∧ e.name ≠ "DAP2_EnumNames" := by
        intro e he
        constructor
        · exact hfresh e he ⟨"DAP2_EnumValues", _, _⟩ (List.mem_append_left _ (List.mem_singleton_self _))
        · exact hfresh e he ⟨"DAP2_EnumNames", _, _⟩ (List.mem_append_right _ (List.mem_singleton_self _))
      obtain ⟨das', hok, helse, hhere⟩ := eval_enumMembers h hreports cfg ncid id name hbase (m :: members)
        hboth hrange [] 0 (List.append_nil _).symm
      exact ⟨das', hok, helse, hhere⟩

theorem originalType_ok (h : KeepsTables entries) (base name : String)
    (hfresh : ∀ e ∈ entries das table, ∀ e' ∈ originalEntries base name, e.name ≠ e'.name) :
    ∃ das', originalType lib table base name das = .ok das' ∧
      Grows entries table das das' (originalEntries base name) := by
  have hbase : ∀ e ∈ entries das table, e.name ≠ "DAP2_OriginalNetCDFBaseType" :=
    fun e he => hfresh e he ⟨_, "String", [base]⟩ (by simp [originalEntries])
  obtain ⟨das₁, hok₁, hgrows₁⟩ := h.append_new "String" base hbase
  have hname : ∀ e ∈ entries das₁ table, e.name ≠ "DAP2_OriginalNetCDFTypeName" := by
    intro e he
    rw [hgrows₁.here] at he
    rcases List.mem_append.mp he with he | he
    · exact hfresh e he ⟨_, "String", [name]⟩ (by simp [originalEntries])
    · obtain rfl := List.mem_singleton.mp he
      simp
  obtain ⟨das₂, hok₂, hgrows₂⟩ := h.append_new "String" name hname
  refine ⟨das₂, ?_, hgrows₁.trans hgrows₂⟩
  rw [originalType, hok₁, ok_bind, hok₂]

/-- The lengths of all the dimensions are read, and the last is used. -/
theorem eval_stringLengths (hreports : Reports f read) (varname : String) {ids : List Nat}
    (hids : ∀ d ∈ ids, d < f.dims.length) (ncid : Nat) :
    Throwing.eval read (stringLength.stringLengths ncid varname ids) =
      .ok (ids.map fun d => (dapDim f d).size) := by
  induction ids with
  | nil => rfl
  | cons d ids ih =>
      obtain ⟨hd, hids⟩ := List.forall_mem_cons.mp hids
      have hsome : f.dims[d]? = some f.dims[d] := List.getElem?_eq_getElem hd
      have hsize : (dapDim f d).size = f.dims[d].length := by
        rw [dapDim, ArrayDim.size_whole, hsome]
        rfl
      rw [stringLength.stringLengths, Throwing.eval_bind, hreports.eval _ (answer_ncInqDimlen f hsome),
        ok_bind, Throwing.eval_bind, ih hids, ok_bind, List.map_cons, hsize]
      rfl

theorem grows_stringLength (h : KeepsTables entries) (hreports : Reports f read)
    (hv : f.vars[varid]? = some v) (hlength : stringLengthOf f v < 2 ^ 31) (ncid : Nat)
    (hfresh : ∀ e ∈ entries das table, e.name ≠ "string_length") :
    ∃ das', Throwing.eval read (stringLength lib cfg ncid varid table das) = .ok das' ∧
      Grows entries table das das' [⟨"string_length", "Int32", [toString (stringLengthOf f v)]⟩] := by
  obtain ⟨das', hok, hgrows⟩ := h.append_new "Int32" (toString (stringLengthOf f v)) hfresh
  refine ⟨das', ?_, hgrows⟩
  have hids := f.dimIds_lt v (List.mem_of_getElem? hv)
  -- as an `int` the length is the same
  have hshown : toString (if v.ndims = 0 then (1 : Int)
      else toInt (((v.dimIds.map fun d => (dapDim f d).size).getLast?.getD 0 : Nat) : Int)) =
        toString (stringLengthOf f v) := by
    unfold stringLengthOf at hlength ⊢
    split
    · rfl
    · rename_i hrank
      rw [if_neg hrank] at hlength
      exact congrArg toString (toInt_of_lt hlength)
  rw [stringLength, Throwing.eval_bind, hreports.eval _ (answer_ncInqVar f hv), ok_bind, Throwing.eval_bind,
    eval_stringLengths hreports table hids, ok_bind]
  dsimp only
  rw [Throwing.eval_bind, Throwing.eval_ofExcept, printType, ok_bind, Throwing.eval_ofExcept, hshown, hok]

end Special

/-! ## One table -/

section Steps

variable {lib : DasLibrary} {entries : lib.Das → String → List Entry} {cfg : Config} {f : NcFile}
  {values : AttValues f} {table : String} {das : lib.Das} {v : Var} {varid : Nat}

/-- Two entries that are in different parts of a list without duplicate names. -/
theorem name_ne_of_nodup {l l' : List Entry} (hnodup : ((l ++ l').map Entry.name).Nodup) :
    ∀ e ∈ l, ∀ e' ∈ l', e.name ≠ e'.name := by
  intro e he e' he'
  rw [List.map_append, List.nodup_append] at hnodup
  exact hnodup.2.2 _ (List.mem_map_of_mem he) _ (List.mem_map_of_mem he')

/-- What a variable's type adds to its table. -/
theorem grows_userDefinedType (h : KeepsTables entries) (hdescribable : Describable f v)
    (huser : isUserDefinedType v.type = true) (ncid : Nat)
    (hfresh : ∀ e ∈ entries das table, ∀ e' ∈ specialEntries cfg f v, e.name ≠ e'.name)
    (hnodup : ((specialEntries cfg f v).map Entry.name).Nodup) :
    ∃ das', Throwing.eval values.serveAtt (userDefinedType lib cfg ncid table v.type das) = .ok das' ∧
      Grows entries table das das' (specialEntries cfg f v) := by
  have hreports := values.reports_serveAtt
  have hanswer : f.answer (.ncInqUserType ncid v.type) = .ok () := if_pos huser
  unfold userDefinedType
  rw [Throwing.eval_bind, hreports.eval _ hanswer, ok_bind]
  unfold specialEntries at hfresh hnodup ⊢
  unfold Describable at hdescribable
  cases htype : v.type with
  | atomic t =>
      rw [htype] at huser
      cases huser
  | compound | vlen => exact ⟨das, rfl, .refl table das⟩
  | opaqueBytes id name size =>
      rw [htype] at hfresh
      exact originalType_ok h "NC_OPAQUE" name hfresh
  | enum id name base members =>
      rw [htype] at hfresh hnodup hdescribable
      obtain ⟨hbase, hrange⟩ := hdescribable
      have hinq : f.answer (.ncInqEnum ncid (.enum id name base members)) = .ok () := rfl
      have hsmall : ¬ (base = .int64 ∨ base = .uint64) := not_or.mpr (supported_of_mem_base hbase).1
      obtain ⟨das₁, hok₁, hgrows₁⟩ := grows_enumMembers h hreports cfg ncid id name hbase hrange
        fun e he e' he' => hfresh e he e' (List.mem_append_left _ he')
      have hfresh₁ : ∀ e ∈ entries das₁ table, ∀ e' ∈ originalEntries "NC_ENUM" name, e.name ≠ e'.name := by
        intro e he e' he'
        rw [hgrows₁.here] at he
        rcases List.mem_append.mp he with he | he
        · exact hfresh e he e' (List.mem_append_right _ he')
        · exact name_ne_of_nodup hnodup e he e' he'
      obtain ⟨das₂, hok₂, hgrows₂⟩ := originalType_ok h "NC_ENUM" name hfresh₁
      refine ⟨das₂, ?_, hgrows₁.trans hgrows₂⟩
      dsimp only
      rw [Throwing.eval_bind, hreports.eval _ hinq, ok_bind, if_neg hsmall, Throwing.eval_bind, hok₁, ok_bind,
        Throwing.eval_ofExcept, hok₂]

/-- What `readVariableAttributes` does after the attributes. -/
theorem grows_special (h : KeepsTables entries) (values : AttValues f) (hv : f.vars[varid]? = some v)
    (hdescribable : Describable f v)
    (hfresh : ∀ e ∈ entries das table, ∀ e' ∈ specialEntries cfg f v, e.name ≠ e'.name)
    (hnodup : ((specialEntries cfg f v).map Entry.name).Nodup) (ncid : Nat) :
    ∃ das', Throwing.eval values.serveAtt
        (if v.type.isChar then stringLength lib cfg ncid varid table das
          else if isUserDefinedType v.type then userDefinedType lib cfg ncid table v.type das
          else return das) = .ok das' ∧
      Grows entries table das das' (specialEntries cfg f v) := by
  by_cases huser : isUserDefinedType v.type = true
  · have hchar : ¬ v.type.isChar = true := by
      intro hchar
      cases htype : v.type <;> simp_all [NcType.isChar, isUserDefinedType]
    rw [if_neg hchar, if_pos huser]
    exact grows_userDefinedType h hdescribable huser ncid hfresh hnodup
  · cases htype : v.type with
    | atomic t =>
        by_cases hchar : t = .char
        · subst hchar
          have hentry : specialEntries cfg f v =
              [⟨"string_length", "Int32", [toString (stringLengthOf f v)]⟩] := by
            simp only [specialEntries, htype]
          have hlength : stringLengthOf f v < 2 ^ 31 := by
            simpa only [Describable, htype] using hdescribable
          rw [hentry] at hfresh ⊢
          show ∃ das',
            Throwing.eval values.serveAtt (stringLength lib cfg ncid varid table das) = .ok das' ∧ _
          apply grows_stringLength h values.reports_serveAtt hv hlength ncid
          intro e he
          exact hfresh e he _ (List.mem_singleton_self _)
        · have hnone : specialEntries cfg f v = [] := by
            unfold specialEntries
            rw [htype]
            cases t <;> first | rfl | exact absurd rfl hchar
          have htext : (NcType.atomic t).isChar = false := by
            cases t <;> first | rfl | exact absurd rfl hchar
          rw [hnone, htext]
          exact ⟨das, rfl, .refl table das⟩
    | _ => exact absurd (by rw [htype]; rfl) huser

/-- The attributes of a variable, or of the dataset. -/
theorem grows_readAttributes (h : KeepsTables entries) (cfg : Config) (values : AttValues f)
    {varid : Option Nat} (hempty : entries das table = [])
    (hkept : ∀ att ∈ f.attsOf varid,
      Supported att.type ∧ 1 ≤ att.length ∧ Kept att (values.value varid att.name))
    (hnodup : ((attEntries lib cfg values varid).map Entry.name).Nodup) (ncid : Nat) :
    ∃ das', Throwing.eval values.serveAtt
        (readAttributes lib cfg table ncid varid (List.range (f.attsOf varid).length) das) = .ok das' ∧
      Grows entries table das das' (attEntries lib cfg values varid) := by
  have hnames : ((f.attsOf varid).map Att.name).Nodup := by
    rw [attEntries, List.map_map] at hnodup
    exact hnodup
  have hfresh : ∀ att ∈ f.attsOf varid, ∀ e ∈ entries das table, e.name ≠ att.name := by
    intro att _ e he
    rw [hempty] at he
    cases he
  have hall : ∃ das', Throwing.eval values.serveAtt
      (readAttributes lib cfg table ncid varid (List.range (f.attsOf varid).length) das) = .ok das' ∧
        entries das' table = entries das table ++ attEntries lib cfg values varid :=
    (readAttributes_iff h.append table ncid hnames
      (fun att hatt => ⟨(hkept att hatt).1, (hkept att hatt).2.1⟩) hfresh).mpr
        fun att hatt => (hkept att hatt).2.2
  obtain ⟨das', hok, hhere⟩ := hall
  exact ⟨das', hok, elsewhere_readAttributes h hok, hhere⟩

/-- One round of the loop over the variables. -/
theorem gains_readVariableAttributes (h : KeepsTables entries) (cfg : Config) (values : AttValues f)
    (hv : f.vars[varid]? = some v) (hnew : lib.hasTable v.name das = false)
    (hfits : v.name.utf8ByteSize < maxNcName) (hdescribable : Describable f v)
    (hkept : ∀ att ∈ f.attsOf (some varid),
      Supported att.type ∧ 1 ≤ att.length ∧ Kept att (values.value (some varid) att.name))
    (hnodup : ((variableTable lib cfg values varid v).2.map Entry.name).Nodup) (ncid : Nat) :
    ∃ das', Throwing.eval values.serveAtt (readVariableAttributes lib cfg ncid varid das) = .ok das' ∧
      Gains entries das das' [variableTable lib cfg values varid v] := by
  have hreports := values.reports_serveAtt
  have hatts : f.attsOf (some varid) = v.atts := by simp [NcFile.attsOf, hv]
  have hnodup' := hnodup
  rw [variableTable, List.map_append] at hnodup'
  obtain ⟨das₁, hadd, hgains⟩ := h.add hnew
  have hempty : entries das₁ v.name = [] := hgains.here (v.name, []) (List.mem_singleton_self _)
  obtain ⟨das₂, hok₂, hgrows₂⟩ := grows_readAttributes h cfg values hempty hkept
    (List.Nodup.of_append_left hnodup') ncid
  have hfresh : ∀ e ∈ entries das₂ v.name, ∀ e' ∈ specialEntries cfg f v, e.name ≠ e'.name := by
    intro e he e' he'
    rw [hgrows₂.here, hempty, List.nil_append] at he
    exact name_ne_of_nodup hnodup e he e' he'
  have hnodup₂ : ((specialEntries cfg f v).map Entry.name).Nodup := List.Nodup.of_append_right hnodup'
  obtain ⟨das₃, hok₃, hgrows₃⟩ := grows_special h values hv hdescribable hfresh hnodup₂ ncid
  refine ⟨das₃, ?_, hgains.grows (hgrows₂.trans hgrows₃)⟩
  rw [hatts] at hok₂
  rw [readVariableAttributes, Throwing.eval_bind, hreports.eval _ (answer_ncInqVar f hv), ok_bind,
    Throwing.eval_bind, Throwing.eval_ofExcept, nameBuf, if_pos hfits, ok_bind, Throwing.eval_bind,
    Throwing.eval_ofExcept, hnew, if_neg Bool.false_ne_true, hadd, ok_bind, Throwing.eval_bind, hok₂, ok_bind]
  exact hok₃

end Steps

/-! ## The whole dataset -/

section Dataset

variable {lib : DasLibrary} {entries : lib.Das → String → List Entry} {cfg : Config} {f : NcFile}
  {values : AttValues f} {das : lib.Das}

/-- A dataset that the handler can describe: no two tables have one name, and no two entries of a table. So no
variable is called `NC_GLOBAL` or `DODS_EXTRA` where there is such a table, and no attribute is called like an
entry that belongs to none. -/
structure Describes (lib : DasLibrary) (cfg : Config) {f : NcFile} (values : AttValues f) : Prop where
  tables : ((wholeTables lib cfg values).map Prod.fst).Nodup
  entries : ∀ p ∈ wholeTables lib cfg values, (p.2.map Entry.name).Nodup
  fits : ∀ v ∈ f.vars, v.name.utf8ByteSize < maxNcName
  types : ∀ v ∈ f.vars, Describable f v
  atts : ∀ varid, ∀ att ∈ f.attsOf varid,
    Supported att.type ∧ 1 ≤ att.length ∧ Kept att (values.value varid att.name)
  unlimdim : ∀ d, f.unlimdim = some d → d < f.dims.length ∧ (dimName f d).utf8ByteSize < maxNcName

theorem names_variableTables (lib : DasLibrary) (cfg : Config) (values : AttValues f) (vars : List Var)
    (k : Nat) :
    (vars.mapIdx fun i v => variableTable lib cfg values (i + k) v).map Prod.fst = vars.map Var.name := by
  apply List.ext_getElem <;> simp [variableTable]

/-- The loop over the variables. The induction is on the variables that are to come; none of them has a table
yet, since all names differ. -/
theorem gains_readAllVariableAttributes (h : KeepsTables entries) (hdescribes : Describes lib cfg values)
    (ncid : Nat) {vars : List Var} {k : Nat} (hvars : ∀ i v, vars[i]? = some v → f.vars[i + k]? = some v)
    (hnames : (vars.map Var.name).Nodup) (hnew : ∀ v ∈ vars, lib.hasTable v.name das = false) :
    ∃ das', Throwing.eval values.serveAtt
        (readAllVariableAttributes lib cfg ncid (List.range' k vars.length) das) = .ok das' ∧
      Gains entries das das' (vars.mapIdx fun i v => variableTable lib cfg values (i + k) v) := by
  induction vars generalizing k das with
  | nil => exact ⟨das, rfl, .refl das⟩
  | cons v vars ih =>
      have hv : f.vars[k]? = some v := by simpa using hvars 0 v rfl
      have hmem : v ∈ f.vars := List.mem_of_getElem? hv
      obtain ⟨hname, hnames⟩ := List.nodup_cons.mp hnames
      obtain ⟨hnewv, hnew⟩ := List.forall_mem_cons.mp hnew
      have htable : variableTable lib cfg values k v ∈ wholeTables lib cfg values := by
        rw [wholeTables]
        apply List.mem_append_left
        apply List.mem_append_left
        rw [variableTables, List.mem_mapIdx]
        obtain ⟨hk, hget⟩ := List.getElem?_eq_some_iff.mp hv
        exact ⟨k, hk, by rw [hget]⟩
      obtain ⟨das₁, hok₁, hgains₁⟩ := gains_readVariableAttributes h cfg values hv hnewv
        (hdescribes.fits v hmem) (hdescribes.types v hmem) (hdescribes.atts (some k))
        (hdescribes.entries _ htable) ncid
      -- the new table has another name than those that are to come
      have hnew₁ : ∀ w ∈ vars, lib.hasTable w.name das₁ = false := by
        intro w hw
        rw [Bool.eq_false_iff, Ne, hgains₁.hasTable, not_or]
        refine ⟨by simp [hnew w hw], ?_⟩
        intro hsame
        have heq : w.name = v.name := by simpa [variableTable] using hsame
        exact hname (heq ▸ List.mem_map_of_mem hw)
      have hvars₁ : ∀ i w, vars[i]? = some w → f.vars[i + (k + 1)]? = some w := by
        intro i w hw
        rw [← Nat.add_assoc, Nat.add_right_comm]
        exact hvars (i + 1) w hw
      obtain ⟨das₂, hok₂, hgains₂⟩ := ih hvars₁ hnames hnew₁
      refine ⟨das₂, ?_, ?_⟩
      · rw [List.length_cons, List.range'_succ, readAllVariableAttributes, Throwing.eval_bind, hok₁, ok_bind,
          hok₂]
      · have hall := hgains₁.trans hgains₂ (by
          rw [names_variableTables]
          intro t ht
          obtain rfl : t = v.name := by simpa [variableTable] using ht
          exact hname)
        rw [List.mapIdx_cons, Nat.zero_add]
        simp only [Nat.add_right_comm _ 1 k]
        exact hall

/-- All the variables. -/
theorem gains_variables (h : KeepsTables entries) (hdescribes : Describes lib cfg values) (ncid : Nat) :
    ∃ das', Throwing.eval values.serveAtt
        (readAllVariableAttributes lib cfg ncid (List.range f.vars.length) lib.empty) = .ok das' ∧
      Gains entries lib.empty das' (variableTables lib cfg values) := by
  rw [List.range_eq_range']
  exact gains_readAllVariableAttributes h hdescribes ncid (fun _ _ hv => hv) f.varNames_nodup
    fun v _ => h.empty v.name

/-- The global attributes. -/
theorem gains_global (h : KeepsTables entries) (hdescribes : Describes lib cfg values) (ncid : Nat)
    (hnew : ∀ t ∈ (globalTables lib cfg values).map Prod.fst, lib.hasTable t das = false) :
    ∃ das', Throwing.eval values.serveAtt
        (if f.globalAtts.length > 0 then do
            let das ← Throwing.ofExcept (lib.addTable "NC_GLOBAL" das)
            readAttributes lib cfg "NC_GLOBAL" ncid none (List.range f.globalAtts.length) das
          else pure das) = .ok das' ∧
      Gains entries das das' (globalTables lib cfg values) := by
  by_cases hnone : f.globalAtts = []
  · rw [globalTables, if_pos hnone, hnone]
    exact ⟨das, rfl, .refl das⟩
  · have htable : ("NC_GLOBAL", attEntries lib cfg values none) ∈ wholeTables lib cfg values := by
      simp [wholeTables, globalTables, hnone]
    rw [globalTables, if_neg hnone] at hnew ⊢
    obtain ⟨das₁, hadd, hgains⟩ := h.add (hnew "NC_GLOBAL" (List.mem_singleton_self _))
    have hempty : entries das₁ "NC_GLOBAL" = [] := hgains.here ("NC_GLOBAL", []) (List.mem_singleton_self _)
    obtain ⟨das₂, hok, hgrows⟩ := grows_readAttributes h cfg values hempty (hdescribes.atts none)
      (hdescribes.entries _ htable) ncid
    refine ⟨das₂, ?_, hgains.grows hgrows⟩
    rw [if_pos (List.length_pos_of_ne_nil hnone), Throwing.eval_bind, Throwing.eval_ofExcept, hadd, ok_bind]
    exact hok

/-- The unlimited dimension. -/
theorem gains_extra (h : KeepsTables entries) (hdescribes : Describes lib cfg values) (ncid : Nat)
    (hnew : ∀ t ∈ (extraTables f).map Prod.fst, lib.hasTable t das = false) :
    ∃ das', Throwing.eval values.serveAtt
        (match f.unlimdim with
          | none => pure das
          | some xdimid => do
            let dim ← accOrThrow (.inquire (.ncInqDim ncid xdimid)) fun _ =>
              .internalErr "NetCDF handler: Could not access dimension information: "
            let dimname ← Throwing.ofExcept (nameBuf maxNcName dim.name)
            let das ← Throwing.ofExcept (lib.addTable "DODS_EXTRA" das)
            Throwing.ofExcept
              (lib.appendAttr "DODS_EXTRA" "Unlimited_Dimension" "String" dimname das)) = .ok das' ∧
      Gains entries das das' (extraTables f) := by
  rw [extraTables] at hnew ⊢
  cases hdim : f.unlimdim with
  | none => exact ⟨das, rfl, .refl das⟩
  | some d =>
      rw [hdim] at hnew
      dsimp only at hnew ⊢
      obtain ⟨hlt, hfits⟩ := hdescribes.unlimdim d hdim
      have hsome : f.dims[d]? = some f.dims[d] := List.getElem?_eq_getElem hlt
      have hname : dimName f d = f.dims[d].name := by simp [dimName, hsome]
      rw [hname] at hfits ⊢
      have hanswer : f.answer (.ncInqDim ncid d) = .ok f.dims[d] := by
        rw [answer_ncInqDim, hsome, NcReply.ofOption_some]
      obtain ⟨das₁, hadd, hgains⟩ := h.add (hnew "DODS_EXTRA" (List.mem_singleton_self _))
      have hempty : entries das₁ "DODS_EXTRA" = [] :=
        hgains.here ("DODS_EXTRA", []) (List.mem_singleton_self _)
      have hfresh : ∀ e ∈ entries das₁ "DODS_EXTRA", e.name ≠ "Unlimited_Dimension" := by
        rw [hempty]
        exact List.forall_mem_nil _
      obtain ⟨das₂, hok, hgrows⟩ := h.append_new "String" f.dims[d].name hfresh
      refine ⟨das₂, ?_, hgains.grows hgrows⟩
      rw [Throwing.eval_bind, values.reports_serveAtt.eval _ hanswer, ok_bind, Throwing.eval_bind,
        Throwing.eval_ofExcept, nameBuf, if_pos hfits, ok_bind, Throwing.eval_bind, Throwing.eval_ofExcept,
        hadd, ok_bind, Throwing.eval_ofExcept, hok]

/-- What `nc_read_dataset_attributes` does between `nc_open` and `nc_close`. -/
theorem gains_datasetAttributes (h : KeepsTables entries) (hdescribes : Describes lib cfg values)
    (filename : String) (ncid : Nat) :
    ∃ das', Throwing.eval values.serveAtt (datasetAttributes lib cfg filename lib.empty ncid) = .ok das' ∧
      Gains entries lib.empty das' (wholeTables lib cfg values) := by
  have hreports := values.reports_serveAtt
  have hinq : f.answer (.ncInq ncid) = .ok ⟨f.vars.length, f.globalAtts.length, f.unlimdim⟩ := rfl
  have htables := hdescribes.tables
  rw [wholeTables, List.map_append, List.nodup_append] at htables
  obtain ⟨hfront, -, hextra⟩ := htables
  have hglobal := hfront
  rw [List.map_append, List.nodup_append] at hglobal
  obtain ⟨das₁, hok₁, hgains₁⟩ := gains_variables h hdescribes ncid
  obtain ⟨das₂, hok₂, hgains₂⟩ := gains_global h hdescribes ncid (hgains₁.new h.empty hglobal.2.2)
  have hgains₁₂ := hgains₁.trans hgains₂ fun t ht ht' => hglobal.2.2 t ht t ht' rfl
  obtain ⟨das₃, hok₃, hgains₃⟩ := gains_extra h hdescribes ncid (hgains₁₂.new h.empty hextra)
  refine ⟨das₃, ?_, hgains₁₂.trans hgains₃ fun t ht ht' => hextra t ht t ht' rfl⟩
  rw [datasetAttributes, Throwing.eval_bind, hreports.eval _ hinq, ok_bind, Throwing.eval_bind, hok₁, ok_bind]
  by_cases hsome : f.globalAtts.length > 0
  · rw [if_pos hsome, Throwing.eval_bind] at hok₂
    obtain ⟨das', hadd, hok₂⟩ := bind_eq_ok.mp hok₂
    dsimp only
    rw [if_pos hsome, Throwing.eval_bind, hadd, ok_bind, Throwing.eval_bind, hok₂, ok_bind,
      Throwing.eval_bind, hreports.eval _ hinq, ok_bind]
    exact hok₃
  · rw [if_neg hsome] at hok₂
    dsimp only
    rw [if_neg hsome, Throwing.eval_bind, hok₂, ok_bind, Throwing.eval_bind, hreports.eval _ hinq, ok_bind]
    exact hok₃

/-- `nc_read_dataset_attributes` leaves the tables that it should, each with the entries that it should have,
and no other table. -/
theorem readDatasetAttributes_whole (h : KeepsTables entries) (hdescribes : Describes lib cfg values)
    (filename : String) :
    ∃ das, Throwing.eval (opening values.serveAtt)
        (readDatasetAttributes lib cfg filename lib.empty) = .ok das ∧
      (∀ t, lib.hasTable t das = true ↔ t ∈ (wholeTables lib cfg values).map Prod.fst) ∧
      ∀ p ∈ wholeTables lib cfg values, entries das p.1 = p.2 := by
  obtain ⟨das, hok, hgains⟩ := gains_datasetAttributes h hdescribes filename 1
  refine ⟨das, ?_, ?_, hgains.here⟩
  · rw [readDatasetAttributes, eval_usingFile, hok]
  · intro t
    rw [hgains.hasTable, h.empty t]
    simp

end Dataset

/-! ## A dataset with four tables -/

/-- The names of the tables, and what they hold. -/
abbrev Tables : Type := List String × (String → List Entry)

def Tables.write (das : Tables) (table : String) (es : List Entry) : String → List Entry :=
  fun t => if t = table then es else das.2 t

def Tables.add (table : String) (das : Tables) : Except NcError Tables :=
  if das.1.contains table then .error (.error none "There is already a table of this name.")
  else .ok (das.1 ++ [table], das.write table [])

def Tables.append (table name type value : String) (das : Tables) : Except NcError Tables :=
  if ∀ e ∈ das.2 table, e.name = name → e.type = type then
    .ok (das.1, das.write table (addValue name type value (das.2 table)))
  else .error (.error none "An attribute cannot have two types.")

theorem Tables.append_eq_ok {table name type value : String} {das das' : Tables}
    (hok : das.append table name type value = .ok das') :
    das' = (das.1, das.write table (addValue name type value (das.2 table))) := by
  unfold Tables.append at hok
  split at hok
  · exact (Except.ok.inj hok).symm
  · cases hok

/-- A library that keeps such tables. -/
def tableLibrary : DasLibrary where
  Das := Tables
  empty := ([], fun _ => [])
  hasTable := fun table das => das.1.contains table
  addTable := Tables.add
  appendAttr := Tables.append
  floatText := toString
  doubleText := toString

theorem keepsTables_tableLibrary : @KeepsTables tableLibrary Prod.snd where
  append := by
    intro table name type value das hsame
    exact ⟨_, if_pos hsame, if_pos rfl⟩
  elsewhere := by
    intro table name type value das das' hok
    obtain rfl := Tables.append_eq_ok hok
    exact ⟨fun _ => rfl, fun t ht => if_neg ht⟩
  add := by
    intro table das hnew
    have habsent : ¬ das.1.contains table = true := Bool.eq_false_iff.mp hnew
    refine ⟨(das.1 ++ [table], Tables.write das table []), if_neg habsent, ?_, ?_, ?_⟩
    · intro t
      show (das.1 ++ [table]).contains t = true ↔ das.1.contains t = true ∨ t ∈ [table]
      simp
    · intro p hp
      obtain rfl := List.mem_singleton.mp hp
      exact if_pos rfl
    · intro t ht
      exact if_neg (by simpa using ht)
  empty := fun _ => rfl

/-- Texts along an unlimited dimension, and a variable of an enumeration. -/
def surveyFile : NcFile where
  dims := [⟨"time", 2⟩, ⟨"width", 4⟩]
  vars := [⟨"station", .atomic .char, [0, 1], [⟨"units", .atomic .char, 1⟩]⟩,
    ⟨"quality", .enum 40 "quality_t" .byte [("good", 0), ("bad", -1)], [0], []⟩]
  globalAtts := [⟨"version", .atomic .short, 1⟩]
  unlimdim := some 0
  dimIds_lt := by decide
  dimNames_nodup := by decide
  varNames_nodup := by decide
  dimNames_le := by decide
  varNames_le := by decide

def surveyValues : AttValues surveyFile where
  value := fun _ name => if name = "units" then ⟨[109], []⟩ else ⟨[7, 0], []⟩
  holds := by
    intro varid att hatt
    match varid with
    | some 0 | none =>
        obtain rfl := List.mem_singleton.mp hatt
        rfl
    | some 1 | some (n + 2) => cases hatt

def surveyTables : List (String × List Entry) :=
  [("station", [⟨"units", "String", ["m"]⟩, ⟨"string_length", "Int32", ["4"]⟩]),
    ("quality", [⟨"DAP2_EnumValues", "Byte", ["0", "255"]⟩, ⟨"DAP2_EnumNames", "String", ["good", "bad"]⟩,
      ⟨"DAP2_OriginalNetCDFBaseType", "String", ["NC_ENUM"]⟩,
      ⟨"DAP2_OriginalNetCDFTypeName", "String", ["quality_t"]⟩]),
    ("NC_GLOBAL", [⟨"version", "Int16", ["7"]⟩]),
    ("DODS_EXTRA", [⟨"Unlimited_Dimension", "String", ["time"]⟩])]

theorem wholeTables_survey : wholeTables tableLibrary {} surveyValues = surveyTables := by
  decide +kernel

theorem describes_survey : Describes tableLibrary {} surveyValues where
  tables := by
    rw [wholeTables_survey]
    decide
  entries := by
    rw [wholeTables_survey]
    decide
  fits := by decide
  types := by
    intro v hv
    simp only [surveyFile, List.mem_cons, List.not_mem_nil, or_false] at hv
    rcases hv with rfl | rfl
    · show stringLengthOf surveyFile _ < 2 ^ 31
      decide
    · refine ⟨by simp, ?_⟩
      decide
  atts := by
    intro varid att hatt
    match varid with
    | some 0 | none =>
        obtain rfl := List.mem_singleton.mp hatt
        refine ⟨by simp [Supported, IsSupported], Nat.le_refl 1, ?_⟩
        simp only [Kept]
        decide
    | some 1 | some (n + 2) => cases hatt
  unlimdim := by decide

theorem readDatasetAttributes_survey :
    ∃ das, Throwing.eval (opening surveyValues.serveAtt)
        (readDatasetAttributes tableLibrary {} "survey.nc" tableLibrary.empty) = .ok das ∧
      (∀ t, tableLibrary.hasTable t das = true ↔ t ∈ surveyTables.map Prod.fst) ∧
      ∀ p ∈ surveyTables, das.2 p.1 = p.2 := by
  rw [← wholeTables_survey]
  exact readDatasetAttributes_whole keepsTables_tableLibrary describes_survey "survey.nc"

end Skunk.NetCDF.Ncdas
