import Skunk.NetCDF.Hyperslab
import Skunk.NetCDF.MemberNames

/-!
# The offsets in a buffer of compounds

The values of a compound variable are read in one piece, and the readers hand parts of the buffer to the
members: `do_array_read` goes through the elements, `do_structure_read` through the fields, and each adds
what it knows to an offset. For a number that stands in the element itself the sum is a `size_t`; where
it is handed on to an Array or to a nested Structure, it is an `int`.

`reads_iff` says when each leaf gets its own bytes: the members must be found (`Unambiguous`), and no
offset that is handed on may reach `2 ^ 31`.
-/

namespace Skunk.NetCDF

open Skunk.Effect

/-! ## Leaves -/

def scalarWidth : ScalarClass → Nat
  | .ncByte => 1
  | .ncInt16 | .ncUInt16 => 2
  | .ncInt32 | .ncUInt32 | .ncFloat32 => 4
  | .ncFloat64 | .ncStr => 8

/-- How many bytes `val2buf` takes for a field of numbers: as many as its member is long. -/
def leafWidth (cfg : Config) (t : AtomicType) (sizes : List Nat) : Nat :=
  ((scalarClass cfg t).map scalarWidth).getD 0 * sizes.prod

/-- A leaf: where it is among the members, where its bytes start, how many they are, and the offset that
is handed on, as an `int`, to get there. -/
structure Leaf where
  path : List Hop
  offset : Nat
  width : Nat
  handed : Nat
  deriving DecidableEq, Repr

def Leaf.under (hops : List Hop) (l : Leaf) : Leaf := { l with path := hops ++ l.path }

/-- What the leaf should get. -/
def Leaf.fill (l : Leaf) : Fill := ⟨l.path, .raw l.offset⟩

/-- The leaves of a compound that starts at `base`; `handed` is what was handed on to get to it. -/
def leaves (cfg : Config) (handed base : Nat) : NcFields → List Leaf
  | .nil => []
  | .cons fieldName offset (.atomic t) sizes rest =>
    ⟨[.member fieldName], base + offset, leafWidth cfg t sizes,
      if sizes = [] then handed else base + offset⟩ :: leaves cfg handed base rest
  | .cons _ offset (.compound _ typeName _ fields) _ rest =>
    (leaves cfg (base + offset) (base + offset) fields).map (Leaf.under [.member typeName]) ++
      leaves cfg handed base rest
  | .cons _ _ _ _ rest => leaves cfg handed base rest

/-- The leaves of `n` elements of this size. -/
def arrayLeaves (cfg : Config) (n size : Nat) (fields : NcFields) : List Leaf :=
  (List.range n).flatMap fun i =>
    (leaves cfg 0 (i * size) fields).map (Leaf.under [.element i])

/-! ## Compounds of numbers -/

/-- There are only numbers, arrays of numbers, and compounds of these. -/
def Numbers (cfg : Config) : NcFields → Prop
  | .nil => True
  | .cons _ _ (.atomic t) _ rest =>
    (∃ c, scalarClass cfg t = some c ∧ c ≠ .ncStr) ∧ Numbers cfg rest
  | .cons _ _ (.compound _ _ _ fields) sizes rest =>
    sizes = [] ∧ Numbers cfg fields ∧ Numbers cfg rest
  | .cons .. => False

def atomicNames : NcFields → List String
  | .nil => []
  | .cons fieldName _ (.atomic _) _ rest => fieldName :: atomicNames rest
  | .cons _ _ _ _ rest => atomicNames rest

def nestedNames : NcFields → List String
  | .nil => []
  | .cons _ _ (.compound _ name _ _) _ rest => name :: nestedNames rest
  | .cons _ _ _ _ rest => nestedNames rest

/-- In the nested compounds, at every depth, field names are different and so are nested types. -/
def DistinctInside : NcFields → Prop
  | .nil => True
  | .cons _ _ (.compound _ _ _ fields) _ rest =>
    (atomicNames fields).Nodup ∧ (nestedNames fields).Nodup ∧ DistinctInside fields ∧ DistinctInside rest
  | .cons _ _ _ _ rest => DistinctInside rest

/-- Every field lies inside its compound. -/
def Inside (size : Nat) : NcFields → Prop
  | .nil => True
  | .cons _ offset (.atomic t) sizes rest =>
    offset + NcFile.sizeofAtomic t * sizes.prod ≤ size ∧ Inside size rest
  | .cons _ offset (.compound _ _ inner fields) _ rest =>
    offset + inner ≤ size ∧ Inside inner fields ∧ Inside size rest
  | .cons _ _ _ _ rest => Inside size rest

/-! ## A library that has the data -/

/-- The library that has `f` open and answers every call for data with `d`. -/
def NcFile.serve (f : NcFile) (d : NcData) : (c : NcAccess) → NcReply c.Out
  | .inquire q => f.answer q
  | .ncGetVar .. => .ok d
  | .ncGetVar1 .. => .ok d
  | .ncGetVara .. => .ok d
  | .ncGetVars .. => .ok d
  | .ncGetAtt .. => .ok d
  | .ncFreeString _ => .ok ()

/-- `var(name)`: the first member of the name. -/
def firstMember : BaseType → String → Option BaseType
  | .ncStructure _ _ vars, name => vars.find? fun b => b.name == name
  | _, _ => none

section Evaluation

variable {f : NcFile} {d : NcData}

theorem eval_inquiring {α : Type} (x : Inq α) :
    Throwing.eval (f.serve d) (inquiring x) = Throwing.eval f.answer x :=
  Throwing.eval_lift inquiries (f.serve d) x

/-- An inquiry about a field of a user-defined type. -/
theorem eval_inqField {type : NcType} (htype : isUserDefinedType type = true) (ncid i : Nat) :
    Throwing.eval (f.serve d) (inquiring (inqUnchecked (.ncInqCompoundField ncid type i))) = .ok () := by
  have hanswer : f.answer (.ncInqCompoundField ncid type i) = .ok () := if_pos htype
  rw [eval_inquiring, inqUnchecked, eval_inqOrThrow_ok _ hanswer]

theorem eval_inqName {type : NcType} (htype : isUserDefinedType type = true) (ncid : Nat) :
    Throwing.eval (f.serve d) (inquiring (inqUnchecked (.ncInqCompoundName ncid type))) =
      .ok type.name := by
  have hanswer : f.answer (.ncInqCompoundName ncid type) = .ok type.name := if_pos htype
  rw [eval_inquiring, inqUnchecked, eval_inqOrThrow_ok _ hanswer]

theorem eval_inqUserType {type : NcType} (htype : isUserDefinedType type = true) (ncid : Nat) :
    Throwing.eval (f.serve d) (accOrThrow (.inquire (.ncInqUserType ncid type)) userTypeError) = .ok () := by
  have hanswer : f.answer (.ncInqUserType ncid type) = .ok () := if_pos htype
  exact eval_accOrThrow_ok _ hanswer

variable {cfg : Config}

/-- A number, or an array of numbers, that is in the buffer already. -/
theorem eval_doCardinalArrayRead (hpromote : cfg.promoteByteToShort = false) {t : AtomicType}
    {c : ScalarClass} (hc : scalarClass cfg t = some c) (hstr : c ≠ .ncStr) (name : String)
    (var : BaseType) (ncid varid : Nat) (values : NcData) (valuesOffset nels : Int) (slab : Slab) :
    Throwing.eval (f.serve d) (NCArray.doCardinalArrayRead cfg name var ncid varid (.atomic t)
      (some values) valuesOffset nels slab) = .ok (some values, [⟨[], .raw valuesOffset⟩]) := by
  have htype : f.serve d (.inquire (.ncInqType ncid (.atomic t))) =
      .ok (NcFile.sizeofType (.atomic t)) := rfl
  rw [NCArray.doCardinalArrayRead, Throwing.eval_bind, eval_accOrThrow_ok _ htype, ok_bind]
  cases t with
  | char => exact absurd (Option.some.inj hc).symm hstr
  | string => exact absurd (Option.some.inj hc).symm hstr
  | int64 => cases hc
  | uint64 => cases hc
  | byte =>
      simp only [unlessThere, hpromote]
      rfl
  | _ => rfl

end Evaluation

/-! ## What the readers do with numbers -/

/-- The fill for a number: an Array is handed `inner`, a scalar gets what stands at `scalar`. -/
def numberFills (name : String) (inner scalar : Int) : Option BaseType → Option (List Fill)
  | some (.ncArray ..) => some [⟨[.member name], .raw inner⟩]
  | some (.scalar ..) => some [⟨[.member name], .raw scalar⟩]
  | _ => none

/-- The fills for a nested compound: it must be a Structure. -/
def structureFills (name : String) (read : BaseType → Option (List Fill)) :
    Option BaseType → Option (List Fill)
  | some (.ncStructure n dataset vars) =>
    (read (.ncStructure n dataset vars)).map fun fills => fills.map (Fill.under [.member name])
  | _ => none

/-- The fills for the fields of a Structure, without the library; none where the readers throw. An offset
within the compound becomes `inner` of it when it is handed on, and `scalar` of it for a number that
stands there. -/
def readNumbers (this : BaseType) (inner scalar : Nat → Int) : NcFields → Option (List Fill)
  | .nil => some []
  | .cons fieldName offset (.atomic _) _ rest =>
    (numberFills fieldName (inner offset) (scalar offset) (firstMember this fieldName)).bind fun fills =>
      (readNumbers this inner scalar rest).map fun more => fills ++ more
  | .cons _ offset (.compound _ typeName _ fields) _ rest =>
    (structureFills typeName
      (fun child => readNumbers child (fun o => toInt (o + inner offset)) (fun o => o + inner offset) fields)
      (firstMember this typeName)).bind fun fills =>
      (readNumbers this inner scalar rest).map fun more => fills ++ more
  | .cons .. => none

/-- Two lists of fills one after the other, where both are there. -/
theorem bind_append_eq_some {x y : Option (List Fill)} {r : List Fill} :
    (x.bind fun fills => y.map fun more => fills ++ more) = some r ↔
      ∃ fills more, x = some fills ∧ y = some more ∧ r = fills ++ more := by
  simp only [Option.bind_eq_some_iff, Option.map_eq_some_iff, exists_and_left, eq_comm (a := r)]

section Readers

variable {f : NcFile} {d : NcData} {cfg : Config} {ncid varid : Nat}

/-- A Structure whose values are in the buffer already. -/
theorem eval_doStructureRead (this : BaseType) (dataset : String) (id : Nat) (name : String) (size : Nat)
    (fields : NcFields) (values : NcData) (valuesOffset : Int) :
    Throwing.eval (f.serve d) (NCStructure.doStructureRead cfg firstMember this dataset ncid varid
      (.compound id name size fields) (some values) valuesOffset) =
      (fun fills => (some values, fills)) <$>
        Throwing.eval (f.serve d) (NCStructure.readFields cfg firstMember this dataset ncid varid
          (.compound id name size fields) values fields 0 valuesOffset) := by
  rw [NCStructure.doStructureRead, Throwing.eval_bind, eval_inqUserType rfl, ok_bind, Throwing.eval_bind]
  show (Except.ok values >>= _) = _
  rw [ok_bind, Throwing.eval_bind]
  cases Throwing.eval (f.serve d) (NCStructure.readFields cfg firstMember this dataset ncid varid
    (.compound id name size fields) values fields 0 valuesOffset) <;> rfl

/-- What follows once the fills of a field are there. -/
theorem of_more {fills r : List Fill} {rest : Acc (List Fill)}
    (h : Throwing.eval (f.serve d) (do
      let fills ← pure fills
      let more ← rest
      return fills ++ more) = .ok r) :
    ∃ more, Throwing.eval (f.serve d) rest = .ok more ∧ r = fills ++ more := by
  rw [Throwing.eval_bind, Throwing.eval_pure, ok_bind, Throwing.eval_bind] at h
  obtain ⟨more, hmore, h⟩ := bind_eq_ok.mp h
  exact ⟨more, hmore, (Except.ok.inj h).symm⟩

/-- Where the reader of a Structure returns, it has read the numbers. -/
theorem of_readFields (hpromote : cfg.promoteByteToShort = false) (fields : NcFields)
    (hnumbers : Numbers cfg fields) {this : BaseType} {dataset : String} {datatype : NcType}
    (hdatatype : isUserDefinedType datatype = true) {values : NcData} {i : Nat} {valuesOffset : Int}
    {r : List Fill}
    (h : Throwing.eval (f.serve d) (NCStructure.readFields cfg firstMember this dataset ncid varid
      datatype values fields i valuesOffset) = .ok r) :
    readNumbers this (fun o => toInt (o + valuesOffset)) (fun o => o + valuesOffset) fields = some r := by
  match fields with
  | .nil =>
      rw [NCStructure.readFields] at h
      obtain rfl := Except.ok.inj h
      rfl
  | .cons fieldName offset (.atomic t) sizes rest =>
      obtain ⟨⟨c, hc, hstr⟩, hrest⟩ := hnumbers
      rw [NCStructure.readFields, Throwing.eval_bind, eval_inqField hdatatype, ok_bind] at h
      simp only [isUserDefinedType, Bool.false_eq_true, if_false] at h
      rw [Throwing.eval_bind] at h
      obtain ⟨child, hchild, h⟩ := bind_eq_ok.mp h
      rw [Throwing.eval_ofExcept] at hchild
      cases hfound : firstMember this fieldName with
      | none => rw [hfound] at hchild; cases hchild
      | some b =>
          rw [hfound] at hchild
          obtain rfl := Except.ok.inj hchild
          rw [readNumbers, hfound]
          -- for a member that is a Structure or a Grid it would have thrown
          cases b with
          | scalar cls n e =>
              obtain ⟨more, hmore, rfl⟩ := of_more h
              rw [of_readFields hpromote rest hrest hdatatype hmore]
              rfl
          | ncArray n e var dims =>
              dsimp only at h
              rw [Throwing.eval_ite] at h
              split at h
              · cases h
              · rw [Throwing.eval_bind] at h
                obtain ⟨constraint, -, h⟩ := bind_eq_ok.mp h
                rw [Throwing.eval_bind, eval_doCardinalArrayRead hpromote hc hstr, ok_bind] at h
                obtain ⟨more, hmore, rfl⟩ := of_more h
                rw [of_readFields hpromote rest hrest hdatatype hmore]
                rfl
          | ncStructure n e vars => cases h
          | ncGrid n e a maps => cases h
  | .cons fieldName offset (.compound id name size inner) sizes rest =>
      obtain ⟨-, hinner, hrest⟩ := hnumbers
      rw [NCStructure.readFields, Throwing.eval_bind, eval_inqField hdatatype, ok_bind] at h
      simp only [isUserDefinedType, if_true] at h
      have hname : isUserDefinedType (.compound id name size inner) = true := rfl
      rw [Throwing.eval_bind, eval_inqName hname, ok_bind, Throwing.eval_bind] at h
      obtain ⟨child, hchild, h⟩ := bind_eq_ok.mp h
      rw [Throwing.eval_ofExcept] at hchild
      rw [readNumbers]
      change deref (firstMember this name) = .ok child at hchild
      cases hfound : firstMember this name with
      | none => rw [hfound] at hchild; cases hchild
      | some b =>
          rw [hfound] at hchild
          obtain rfl := Except.ok.inj hchild
          cases b with
          | ncStructure n e vars =>
              dsimp only at h
              rw [Throwing.eval_bind, eval_doStructureRead] at h
              obtain ⟨_, hread, h⟩ := bind_eq_ok.mp h
              obtain ⟨more, hmore, rfl⟩ := of_more h
              -- the fields of the inner type are read at the sum of both offsets
              cases hfills : Throwing.eval (f.serve d) (NCStructure.readFields cfg firstMember
                  (.ncStructure n e vars) e ncid varid (.compound id name size inner) values inner 0
                  (toInt (offset + valuesOffset))) with
              | error e => rw [hfills] at hread; cases hread
              | ok fills =>
                  rw [hfills] at hread
                  obtain rfl := Except.ok.inj hread
                  dsimp only [structureFills]
                  rw [of_readFields hpromote inner hinner hname hfills,
                    of_readFields hpromote rest hrest hdatatype hmore]
                  rfl
          | scalar cls n e => cases h
          | ncArray n e var dims => cases h
          | ncGrid n e a maps => cases h

/-- Where the reader of an element returns, it has read the numbers. -/
theorem of_readElement (hpromote : cfg.promoteByteToShort = false) (fields : NcFields)
    (hnumbers : Numbers cfg fields) {element : BaseType} {datatype : NcType}
    (hdatatype : isUserDefinedType datatype = true) {size : Nat} {values : NcData}
    {valuesOffset nels : Int} {slab : Slab} {i j : Nat} {r : List Fill}
    (h : Throwing.eval (f.serve d) (NCArray.readElement cfg firstMember element ncid varid datatype size
      values valuesOffset nels slab i fields j) = .ok r) :
    ∃ fills, readNumbers element (fun o => toInt (o + valuesOffset + size * i)) (fun o => i * size + o)
      fields = some fills ∧ r = fills.map (Fill.under [.element i]) := by
  match fields with
  | .nil =>
      rw [NCArray.readElement] at h
      obtain rfl := Except.ok.inj h
      exact ⟨[], rfl, rfl⟩
  | .cons fieldName offset (.atomic t) sizes rest =>
      obtain ⟨⟨c, hc, hstr⟩, hrest⟩ := hnumbers
      rw [NCArray.readElement, Throwing.eval_bind, eval_inqField hdatatype, ok_bind] at h
      simp only [isUserDefinedType, Bool.false_eq_true, if_false] at h
      rw [Throwing.eval_bind] at h
      obtain ⟨child, hchild, h⟩ := bind_eq_ok.mp h
      rw [Throwing.eval_ofExcept] at hchild
      cases hfound : firstMember element fieldName with
      | none => rw [hfound] at hchild; cases hchild
      | some b =>
          rw [hfound] at hchild
          obtain rfl := Except.ok.inj hchild
          rw [readNumbers, hfound]
          -- the same cases, at the place of the element
          cases b with
          | scalar cls n e =>
              obtain ⟨more, hmore, rfl⟩ := of_more h
              obtain ⟨fills, hfills, rfl⟩ := of_readElement hpromote rest hrest hdatatype hmore
              rw [hfills]
              exact ⟨_, rfl, rfl⟩
          | ncArray n e var dims =>
              dsimp only at h
              rw [Throwing.eval_bind, eval_doCardinalArrayRead hpromote hc hstr, ok_bind] at h
              obtain ⟨more, hmore, rfl⟩ := of_more h
              obtain ⟨fills, hfills, rfl⟩ := of_readElement hpromote rest hrest hdatatype hmore
              rw [hfills]
              exact ⟨_, rfl, rfl⟩
          | ncStructure n e vars => cases h
          | ncGrid n e a maps => cases h
  | .cons fieldName offset (.compound id name innerSize inner) sizes rest =>
      obtain ⟨-, hinner, hrest⟩ := hnumbers
      rw [NCArray.readElement, Throwing.eval_bind, eval_inqField hdatatype, ok_bind] at h
      simp only [isUserDefinedType, if_true] at h
      have hname : isUserDefinedType (.compound id name innerSize inner) = true := rfl
      rw [Throwing.eval_bind, eval_inqName hname, ok_bind, Throwing.eval_bind] at h
      obtain ⟨child, hchild, h⟩ := bind_eq_ok.mp h
      rw [Throwing.eval_ofExcept] at hchild
      rw [readNumbers]
      change deref (firstMember element name) = .ok child at hchild
      cases hfound : firstMember element name with
      | none => rw [hfound] at hchild; cases hchild
      | some b =>
          rw [hfound] at hchild
          obtain rfl := Except.ok.inj hchild
          cases b with
          | ncStructure n e vars =>
              dsimp only at h
              rw [Throwing.eval_bind, eval_doStructureRead] at h
              obtain ⟨_, hread, h⟩ := bind_eq_ok.mp h
              obtain ⟨more, hmore, rfl⟩ := of_more h
              obtain ⟨fills', hfills', rfl⟩ := of_readElement hpromote rest hrest hdatatype hmore
              cases hfills : Throwing.eval (f.serve d) (NCStructure.readFields cfg firstMember
                  (.ncStructure n e vars) e ncid varid (.compound id name innerSize inner) values inner 0
                  (toInt (offset + valuesOffset + size * i))) with
              | error e => rw [hfills] at hread; cases hread
              | ok fills =>
                  rw [hfills] at hread
                  obtain rfl := Except.ok.inj hread
                  dsimp only [structureFills]
                  rw [of_readFields hpromote inner hinner hname hfills, hfills']
                  refine ⟨_, rfl, ?_⟩
                  -- the path begins with the element, and the member comes next
                  rw [List.map_append, List.map_map]
                  rfl
          | scalar cls n e => cases h
          | ncArray n e var dims => cases h
          | ncGrid n e a maps => cases h

end Readers

/-! ## The members of a compound of numbers -/

/-- The member for a field of numbers: a scalar of the class, or an Array of them. -/
def numberMember (dataset fieldName : String) (sizes : List Nat) (c : ScalarClass) : BaseType :=
  if sizes = [] then .scalar c fieldName dataset
  else .ncArray fieldName dataset (.scalar c fieldName dataset) (sizes.map fun n => .whole n "")

def membersFor (cfg : Config) (dataset : String) : NcFields → List BaseType
  | .nil => []
  | .cons fieldName _ (.atomic t) sizes rest =>
    numberMember dataset fieldName sizes ((scalarClass cfg t).getD .ncStr) :: membersFor cfg dataset rest
  | .cons _ _ (.compound _ typeName _ fields) _ rest =>
    .ncStructure typeName dataset (membersFor cfg dataset fields) :: membersFor cfg dataset rest
  | .cons _ _ _ _ rest => membersFor cfg dataset rest

section Members

variable {cfg : Config} {dataset : String}

theorem name_numberMember (dataset fieldName : String) (sizes : List Nat) (c : ScalarClass) :
    (numberMember dataset fieldName sizes c).name = fieldName := by
  unfold numberMember
  split <;> rfl

/-- A field of numbers becomes a variable or an Array of its class. -/
theorem fieldMember_atomic {t : AtomicType} {c : ScalarClass} (hc : scalarClass cfg t = some c)
    (hstr : c ≠ .ncStr) (fieldName : String) (sizes : List Nat) :
    fieldMember dataset fieldName (.atomic t) sizes (.scalar c fieldName dataset) =
      numberMember dataset fieldName sizes c := by
  have hchar : t ≠ .char := by
    rintro rfl
    exact hstr (Option.some.inj hc).symm
  have hscalar : IsScalarField (.atomic t) sizes ↔ sizes = [] := by
    cases t with
    | char => exact absurd rfl hchar
    | _ => simp [IsScalarField, NcType.isChar]
  unfold fieldMember numberMember
  simp only [hscalar]
  rw [BaseType.newNCArray_scalar, BaseType.appendDims_ncArray, List.nil_append]

/-- These are the members that the builder makes. -/
theorem eq_membersFor {f : NcFile} {ncid varid : Nat} (fields : NcFields) (hnumbers : Numbers cfg fields)
    {xtype : NcType} {i : Nat} {ncs vars : List BaseType}
    (h : Throwing.eval f.answer (Ncdds.buildFields cfg ncid varid dataset xtype fields i ncs) = .ok vars) :
    vars = ncs ++ membersFor cfg dataset fields := by
  match fields with
  | .nil =>
      rw [Ncdds.buildFields] at h
      rw [membersFor, List.append_nil]
      exact (Except.ok.inj h).symm
  | .cons fieldName offset (.atomic t) sizes rest =>
      obtain ⟨⟨c, hc, hstr⟩, hrest⟩ := hnumbers
      obtain ⟨field, hfield, h⟩ := of_buildFields_cons h
      have hscalar : field = .scalar c fieldName dataset := by
        change Ncdds.buildScalar cfg fieldName dataset (.atomic t) = .ok (some field) at hfield
        rw [Ncdds.buildScalar, hc] at hfield
        exact (Option.some.inj (Except.ok.inj hfield)).symm
      rw [hscalar, fieldMember_atomic hc hstr] at h
      rw [eq_membersFor rest hrest h, membersFor, hc, List.append_assoc]
      rfl
  | .cons fieldName offset (.compound id name size inner) sizes rest =>
      obtain ⟨rfl, hinner, hrest⟩ := hnumbers
      obtain ⟨field, ⟨b, hb, rfl⟩, h⟩ := of_buildFields_cons h
      obtain ⟨n, vars', hvars, ⟨-, hstructure⟩ | ⟨hne, -⟩⟩ := of_buildUserDefined_compound hb
      · obtain rfl := Option.some.inj hstructure
        rw [eq_membersFor inner hinner hvars] at h
        rw [eq_membersFor rest hrest h, membersFor, List.append_assoc]
        rfl
      · exact absurd rfl hne

/-- Their names are the ones that are looked for. -/
theorem map_name_membersFor (fields : NcFields) (hnumbers : Numbers cfg fields) :
    (membersFor cfg dataset fields).map BaseType.name = memberNames fields := by
  match fields with
  | .nil => rfl
  | .cons fieldName offset (.atomic t) sizes rest =>
      rw [membersFor, List.map_cons, name_numberMember, map_name_membersFor rest hnumbers.2]
      rfl
  | .cons fieldName offset (.compound id name size inner) sizes rest =>
      rw [membersFor, List.map_cons, map_name_membersFor rest hnumbers.2.2]
      rfl

/-- Each of these fields finds the member that was made for it. -/
def FindsOwn (cfg : Config) (dataset : String) (this : BaseType) : NcFields → Prop
  | .nil => True
  | .cons fieldName _ (.atomic t) sizes rest =>
    firstMember this fieldName =
        some (numberMember dataset fieldName sizes ((scalarClass cfg t).getD .ncStr)) ∧
      FindsOwn cfg dataset this rest
  | .cons _ _ (.compound _ typeName _ fields) _ rest =>
    firstMember this typeName = some (.ncStructure typeName dataset (membersFor cfg dataset fields)) ∧
      FindsOwn cfg dataset this rest
  | .cons _ _ _ _ rest => FindsOwn cfg dataset this rest

/-- A member whose name no member in front of it has is the first of its name. -/
theorem firstMember_append {n e : String} {pre rest : List BaseType} {b : BaseType}
    (hpre : b.name ∉ pre.map BaseType.name) :
    firstMember (.ncStructure n e (pre ++ b :: rest)) b.name = some b := by
  have hnone : pre.find? (fun a => a.name == b.name) = none := by
    rw [List.find?_eq_none]
    intro a ha heq
    exact hpre (List.mem_map.mpr ⟨a, ha, by simpa using heq⟩)
  rw [firstMember, List.find?_append, hnone, Option.none_or, List.find?_cons_of_pos (by simp)]

/-- Where the names are different, each field finds its own member. -/
theorem findsOwn_of_nodup {n e : String} (pre : List BaseType) (fields : NcFields)
    (hnumbers : Numbers cfg fields) (hnodup : (memberNames fields).Nodup)
    (hpre : ∀ m ∈ memberNames fields, m ∉ pre.map BaseType.name) :
    FindsOwn cfg dataset (.ncStructure n e (pre ++ membersFor cfg dataset fields)) fields := by
  -- one field: the member is found, and the rest goes on behind it
  have hcons : ∀ {b : BaseType} {rest : NcFields}, Numbers cfg rest →
      (b.name :: memberNames rest).Nodup →
      (∀ m ∈ b.name :: memberNames rest, m ∉ pre.map BaseType.name) →
      firstMember (.ncStructure n e (pre ++ b :: membersFor cfg dataset rest)) b.name = some b ∧
        ∀ m ∈ memberNames rest, m ∉ (pre ++ [b]).map BaseType.name := by
    intro b rest hrest hnodup hpre
    refine ⟨firstMember_append (hpre _ (List.mem_cons_self ..)), ?_⟩
    intro m hm hmem
    rw [List.map_append, List.mem_append] at hmem
    rcases hmem with hmem | hmem
    · exact hpre m (List.mem_cons_of_mem _ hm) hmem
    · obtain rfl := List.mem_singleton.mp hmem
      exact (List.nodup_cons.mp hnodup).1 hm
  match fields with
  | .nil => trivial
  | .cons fieldName offset (.atomic t) sizes rest =>
      have hname := name_numberMember dataset fieldName sizes ((scalarClass cfg t).getD .ncStr)
      rw [memberNames, lookupName, isUserDefinedType, if_neg Bool.false_ne_true, ← hname] at hnodup hpre
      obtain ⟨hfound, hpre'⟩ := hcons hnumbers.2 hnodup hpre
      have hrest := findsOwn_of_nodup (n := n) (e := e) _ rest hnumbers.2 (List.nodup_cons.mp hnodup).2
        hpre'
      rw [List.append_assoc] at hrest
      rw [hname] at hfound
      exact ⟨hfound, hrest⟩
  | .cons fieldName offset (.compound id name size inner) sizes rest =>
      obtain ⟨hfound, hpre'⟩ := hcons (b := .ncStructure name dataset (membersFor cfg dataset inner))
        hnumbers.2.2 hnodup hpre
      have hrest := findsOwn_of_nodup (n := n) (e := e) _ rest hnumbers.2.2
        (List.nodup_cons.mp hnodup).2 hpre'
      rw [List.append_assoc] at hrest
      exact ⟨hfound, hrest⟩

theorem findsOwn_membersFor {n e : String} (fields : NcFields) (hnumbers : Numbers cfg fields)
    (hnodup : (memberNames fields).Nodup) :
    FindsOwn cfg dataset (.ncStructure n e (membersFor cfg dataset fields)) fields :=
  findsOwn_of_nodup [] fields hnumbers hnodup fun _ _ => List.not_mem_nil

/-- The fills, where each field finds its own member at every depth. -/
def fillsOf (inner scalar : Nat → Int) : NcFields → List Fill
  | .nil => []
  | .cons fieldName offset (.atomic _) sizes rest =>
    ⟨[.member fieldName], .raw (if sizes = [] then scalar offset else inner offset)⟩ ::
      fillsOf inner scalar rest
  | .cons _ offset (.compound _ typeName _ fields) _ rest =>
    (fillsOf (fun o => toInt (o + inner offset)) (fun o => o + inner offset) fields).map
        (Fill.under [.member typeName]) ++ fillsOf inner scalar rest
  | .cons _ _ _ _ rest => fillsOf inner scalar rest

/-- Every field that was read was found with the class that the readers cast it to. -/
theorem classes_of_readNumbers (fields : NcFields) (hnumbers : Numbers cfg fields) {this : BaseType}
    {inner scalar : Nat → Int} {r : List Fill} (h : readNumbers this inner scalar fields = some r) :
    (∀ n ∈ atomicNames fields, ∃ b, firstMember this n = some b ∧ Castable (.atomic .int) b) ∧
      ∀ n ∈ nestedNames fields, ∃ m e vars, firstMember this n = some (.ncStructure m e vars) := by
  match fields with
  | .nil => simp [atomicNames, nestedNames]
  | .cons fieldName offset (.atomic t) sizes rest =>
      rw [readNumbers, bind_append_eq_some] at h
      obtain ⟨fills, more, hfills, hmore, -⟩ := h
      obtain ⟨hatomic, hnested⟩ := classes_of_readNumbers rest hnumbers.2 hmore
      refine ⟨?_, hnested⟩
      rw [atomicNames, List.forall_mem_cons]
      refine ⟨?_, hatomic⟩
      unfold numberFills at hfills
      split at hfills
      next hfound => exact ⟨_, hfound, rfl⟩
      next hfound => exact ⟨_, hfound, rfl⟩
      · cases hfills
  | .cons fieldName offset (.compound id name size inner) sizes rest =>
      rw [readNumbers, bind_append_eq_some] at h
      obtain ⟨fills, more, hfills, hmore, -⟩ := h
      obtain ⟨hatomic, hnested⟩ := classes_of_readNumbers rest hnumbers.2.2 hmore
      refine ⟨hatomic, ?_⟩
      rw [nestedNames, List.forall_mem_cons]
      refine ⟨?_, hnested⟩
      unfold structureFills at hfills
      split at hfills
      next hfound => exact ⟨_, _, _, hfound⟩
      · cases hfills

/-- Each name belongs to an atomic field or to a nested type. -/
theorem mem_memberNames {n : String} (fields : NcFields) (hnumbers : Numbers cfg fields) :
    n ∈ memberNames fields ↔ n ∈ atomicNames fields ∨ n ∈ nestedNames fields := by
  match fields with
  | .nil => simp [memberNames, atomicNames, nestedNames]
  | .cons fieldName offset (.atomic t) sizes rest =>
      rw [memberNames, atomicNames, List.mem_cons, List.mem_cons, mem_memberNames rest hnumbers.2, or_assoc]
      exact Iff.rfl
  | .cons fieldName offset (.compound id name size inner) sizes rest =>
      rw [memberNames, atomicNames, nestedNames, List.mem_cons, List.mem_cons,
        mem_memberNames rest hnumbers.2.2, or_left_comm]
      exact Iff.rfl
      all_goals simp

theorem nodup_memberNames (fields : NcFields) (hnumbers : Numbers cfg fields)
    (hatomic : (atomicNames fields).Nodup) (hnested : (nestedNames fields).Nodup)
    (hdisjoint : (atomicNames fields).Disjoint (nestedNames fields)) : (memberNames fields).Nodup := by
  match fields with
  | .nil => exact List.nodup_nil
  | .cons fieldName offset (.atomic t) sizes rest =>
      rw [atomicNames, List.nodup_cons] at hatomic
      rw [atomicNames, List.disjoint_cons_left] at hdisjoint
      rw [memberNames, List.nodup_cons, mem_memberNames rest hnumbers.2, not_or]
      exact ⟨⟨hatomic.1, hdisjoint.1⟩, nodup_memberNames rest hnumbers.2 hatomic.2 hnested hdisjoint.2⟩
  | .cons fieldName offset (.compound id name size inner) sizes rest =>
      rw [nestedNames, List.nodup_cons] at hnested
      rw [atomicNames, nestedNames, List.disjoint_cons_right] at hdisjoint
      · rw [memberNames, List.nodup_cons, mem_memberNames rest hnumbers.2.2, not_or]
        exact ⟨⟨hdisjoint.1, hnested.1⟩,
          nodup_memberNames rest hnumbers.2.2 hatomic hnested.2 hdisjoint.2⟩
      all_goals simp

/-- A compound that was read has different names, for a member cannot be of both classes. -/
theorem nodup_of_readNumbers {fields : NcFields} (hnumbers : Numbers cfg fields)
    (hatomic : (atomicNames fields).Nodup) (hnested : (nestedNames fields).Nodup) {this : BaseType}
    {inner scalar : Nat → Int} {r : List Fill} (h : readNumbers this inner scalar fields = some r) :
    (memberNames fields).Nodup := by
  obtain ⟨hatomic', hnested'⟩ := classes_of_readNumbers fields hnumbers h
  refine nodup_memberNames fields hnumbers hatomic hnested ?_
  intro n hn hn'
  obtain ⟨b, hb, hcast⟩ := hatomic' n hn
  obtain ⟨m, e, vars, hstructure⟩ := hnested' n hn'
  obtain rfl := Option.some.inj (hb.symm.trans hstructure)
  cases hcast

/-- What has been read of fields that find their own members. -/
theorem of_readNumbers (fields : NcFields) (hnumbers : Numbers cfg fields)
    (hinside : DistinctInside fields) {this : BaseType} (hown : FindsOwn cfg dataset this fields)
    {inner scalar : Nat → Int} {r : List Fill} (h : readNumbers this inner scalar fields = some r) :
    Unambiguous fields ∧ r = fillsOf inner scalar fields := by
  match fields with
  | .nil => exact ⟨trivial, (Option.some.inj h).symm⟩
  | .cons fieldName offset (.atomic t) sizes rest =>
      rw [readNumbers, bind_append_eq_some] at h
      obtain ⟨fills, more, hfills, hmore, rfl⟩ := h
      obtain ⟨hunambiguous, rfl⟩ := of_readNumbers rest hnumbers.2 hinside hown.2 hmore
      refine ⟨hunambiguous, ?_⟩
      rw [hown.1] at hfills
      rw [fillsOf]
      unfold numberMember at hfills
      by_cases hsizes : sizes = []
      · rw [if_pos hsizes] at hfills
        rw [if_pos hsizes, ← Option.some.inj hfills]
        rfl
      · rw [if_neg hsizes] at hfills
        rw [if_neg hsizes, ← Option.some.inj hfills]
        rfl
  | .cons fieldName offset (.compound id name size fields') sizes rest =>
      obtain ⟨rfl, hnumbers', hrest⟩ := hnumbers
      obtain ⟨hatomic, hnested, hinside', hinsideRest⟩ := hinside
      rw [readNumbers, bind_append_eq_some] at h
      obtain ⟨fills, more, hfills, hmore, rfl⟩ := h
      obtain ⟨hunambiguous, rfl⟩ := of_readNumbers rest hrest hinsideRest hown.2 hmore
      rw [hown.1] at hfills
      obtain ⟨inFills, hread, rfl⟩ := Option.map_eq_some_iff.mp hfills
      have hnodup := nodup_of_readNumbers hnumbers' hatomic hnested hread
      have hown' : FindsOwn cfg dataset (.ncStructure name dataset (membersFor cfg dataset fields')) fields' :=
        findsOwn_membersFor fields' hnumbers' hnodup
      obtain ⟨hunambiguous', rfl⟩ := of_readNumbers fields' hnumbers' hinside' hown' hread
      exact ⟨⟨rfl, hnodup, hunambiguous', hunambiguous⟩, rfl⟩

variable {f : NcFile} {d : NcData} {ncid varid : Nat}

/-- A Structure whose fields find their own members is read. -/
theorem eval_readFields (hpromote : cfg.promoteByteToShort = false) (fields : NcFields)
    (hnumbers : Numbers cfg fields) (hunambiguous : Unambiguous fields) {this : BaseType}
    (hown : FindsOwn cfg dataset this fields) {datatype : NcType}
    (hdatatype : isUserDefinedType datatype = true) (values : NcData) (i : Nat) (valuesOffset : Int) :
    Throwing.eval (f.serve d) (NCStructure.readFields cfg firstMember this dataset ncid varid datatype values
      fields i valuesOffset) =
      .ok (fillsOf (fun o => toInt (o + valuesOffset)) (fun o => o + valuesOffset) fields) := by
  match fields with
  | .nil =>
      rw [NCStructure.readFields]
      rfl
  | .cons fieldName offset (.atomic t) sizes rest =>
      obtain ⟨⟨c, hc, hstr⟩, hrest⟩ := hnumbers
      have hmore := eval_readFields hpromote rest hrest hunambiguous hown.2 hdatatype values (i + 1)
        valuesOffset
      obtain ⟨hfound, -⟩ := hown
      rw [NCStructure.readFields, Throwing.eval_bind, eval_inqField hdatatype, ok_bind]
      simp only [isUserDefinedType, Bool.false_eq_true, if_false]
      rw [Throwing.eval_bind, Throwing.eval_ofExcept, hfound, deref_some, ok_bind, hc, Option.getD_some]
      unfold numberMember
      -- the member is a scalar, or an Array that is read at once
      by_cases hsizes : sizes = []
      · rw [if_pos hsizes]
        dsimp only
        rw [Throwing.eval_bind, Throwing.eval_pure, ok_bind, Throwing.eval_bind, hmore, ok_bind, fillsOf,
          if_pos hsizes]
        rfl
      · rw [if_neg hsizes]
        obtain ⟨slab, nels, hformat, -⟩ := formatConstraint_whole sizes.length sizes
        dsimp only
        rw [List.length_map, if_neg (Nat.lt_irrefl _), hformat, Throwing.eval_bind, Throwing.eval_ofExcept, ok_bind,
          Throwing.eval_bind, eval_doCardinalArrayRead hpromote hc hstr, ok_bind]
        dsimp only
        rw [Throwing.eval_bind, Throwing.eval_pure, ok_bind, Throwing.eval_bind, hmore, ok_bind, fillsOf,
          if_neg hsizes]
        rfl
  | .cons fieldName offset (.compound id name size inner) sizes rest =>
      obtain ⟨-, hinner, hrest⟩ := hnumbers
      obtain ⟨-, hnodup, hunambiguous', hunambiguousRest⟩ := hunambiguous
      have hmore := eval_readFields hpromote rest hrest hunambiguousRest hown.2 hdatatype values (i + 1)
        valuesOffset
      have hname : isUserDefinedType (.compound id name size inner) = true := rfl
      -- the members inside are those that were built, so they are found too
      have hown' : FindsOwn cfg dataset (.ncStructure name dataset (membersFor cfg dataset inner)) inner :=
        findsOwn_membersFor inner hinner hnodup
      rw [NCStructure.readFields, Throwing.eval_bind, eval_inqField hdatatype, ok_bind]
      simp only [isUserDefinedType, if_true]
      have hfound : firstMember this (NcType.compound id name size inner).name = _ := hown.1
      rw [Throwing.eval_bind, eval_inqName hname, ok_bind, Throwing.eval_bind, Throwing.eval_ofExcept,
        hfound, deref_some, ok_bind]
      dsimp only
      rw [Throwing.eval_bind, eval_doStructureRead,
        eval_readFields hpromote inner hinner hunambiguous' hown' hname, ok_map, ok_bind]
      dsimp only
      rw [Throwing.eval_bind, Throwing.eval_pure, ok_bind, Throwing.eval_bind, hmore, ok_bind, fillsOf]
      rfl

/-- An element whose fields find their own members is read. -/
theorem eval_readElement (hpromote : cfg.promoteByteToShort = false) (fields : NcFields)
    (hnumbers : Numbers cfg fields) (hunambiguous : Unambiguous fields) {element : BaseType}
    (hown : FindsOwn cfg dataset element fields) {datatype : NcType}
    (hdatatype : isUserDefinedType datatype = true) (size : Nat) (values : NcData)
    (valuesOffset nels : Int) (slab : Slab) (i j : Nat) :
    Throwing.eval (f.serve d) (NCArray.readElement cfg firstMember element ncid varid datatype size values
      valuesOffset nels slab i fields j) =
      .ok ((fillsOf (fun o => toInt (o + valuesOffset + size * i)) (fun o => i * size + o) fields).map
        (Fill.under [.element i])) := by
  match fields with
  | .nil =>
      rw [NCArray.readElement]
      rfl
  | .cons fieldName offset (.atomic t) sizes rest =>
      obtain ⟨⟨c, hc, hstr⟩, hrest⟩ := hnumbers
      have hmore := eval_readElement hpromote rest hrest hunambiguous hown.2 hdatatype size values
        valuesOffset nels slab i (j + 1)
      obtain ⟨hfound, -⟩ := hown
      rw [NCArray.readElement, Throwing.eval_bind, eval_inqField hdatatype, ok_bind]
      simp only [isUserDefinedType, Bool.false_eq_true, if_false]
      rw [Throwing.eval_bind, Throwing.eval_ofExcept, hfound, deref_some, ok_bind, hc, Option.getD_some]
      unfold numberMember
      by_cases hsizes : sizes = []
      · rw [if_pos hsizes]
        dsimp only
        rw [Throwing.eval_bind, Throwing.eval_pure, ok_bind, Throwing.eval_bind, hmore, ok_bind, fillsOf,
          if_pos hsizes]
        rfl
      · rw [if_neg hsizes]
        dsimp only
        rw [Throwing.eval_bind, eval_doCardinalArrayRead hpromote hc hstr, ok_bind]
        dsimp only
        rw [Throwing.eval_bind, Throwing.eval_pure, ok_bind, Throwing.eval_bind, hmore, ok_bind, fillsOf,
          if_neg hsizes]
        rfl
  | .cons fieldName offset (.compound id name innerSize inner) sizes rest =>
      obtain ⟨-, hinner, hrest⟩ := hnumbers
      obtain ⟨-, hnodup, hunambiguous', hunambiguousRest⟩ := hunambiguous
      have hmore := eval_readElement hpromote rest hrest hunambiguousRest hown.2 hdatatype size values
        valuesOffset nels slab i (j + 1)
      have hname : isUserDefinedType (.compound id name innerSize inner) = true := rfl
      have hown' : FindsOwn cfg dataset (.ncStructure name dataset (membersFor cfg dataset inner)) inner :=
        findsOwn_membersFor inner hinner hnodup
      rw [NCArray.readElement, Throwing.eval_bind, eval_inqField hdatatype, ok_bind]
      simp only [isUserDefinedType, if_true]
      have hfound : firstMember element (NcType.compound id name innerSize inner).name = _ := hown.1
      rw [Throwing.eval_bind, eval_inqName hname, ok_bind, Throwing.eval_bind, Throwing.eval_ofExcept,
        hfound, deref_some, ok_bind]
      dsimp only
      rw [Throwing.eval_bind, eval_doStructureRead,
        eval_readFields hpromote inner hinner hunambiguous' hown' hname, ok_map, ok_bind]
      dsimp only
      rw [Throwing.eval_bind, Throwing.eval_pure, ok_bind, Throwing.eval_bind, hmore, ok_bind, fillsOf,
        List.map_append, List.map_map]
      rfl

end Members

/-! ## Offsets as integers -/

theorem toInt_add_toInt (a b : Int) : toInt (a + toInt b) = toInt (a + b) :=
  Int.add_bmod_bmod

/-- An offset in a nested structure, from the one at which the structure is. -/
theorem toInt_nested {base offset : Nat} {x : Int} (h : toInt x = toInt (base + offset : Nat)) (o : Nat) :
    toInt (o + toInt x) = toInt (base + offset + o : Nat) := by
  rw [h, toInt_add_toInt]
  congr 1
  omega

/-- An `int` holds an offset exactly if it is below `2 ^ 31`. -/
theorem toInt_natCast (n : Nat) : toInt n = n ↔ n < 2 ^ 31 := by
  unfold toInt
  constructor
  · intro h
    have hlt := Int.bmod_lt (x := (n : Int)) (m := 2 ^ 32) (by decide)
    rw [h] at hlt
    omega
  · intro h
    apply Int.bmod_eq_of_le <;> omega

theorem length_leaves (cfg : Config) (handed base : Nat) (inner scalar : Nat → Int) (fields : NcFields) :
    (fillsOf inner scalar fields).length = (leaves cfg handed base fields).length := by
  match fields with
  | .nil => rfl
  | .cons fieldName offset (.atomic t) sizes rest =>
      rw [fillsOf, leaves, List.length_cons, List.length_cons, length_leaves]
  | .cons fieldName offset (.compound id name size fields) sizes rest =>
      rw [fillsOf, leaves, List.length_append, List.length_append, List.length_map, List.length_map,
        length_leaves, length_leaves]
  | .cons fieldName offset (.vlen id name size) sizes rest => exact length_leaves cfg handed base _ _ rest
  | .cons fieldName offset (.opaqueBytes id name size) sizes rest =>
      exact length_leaves cfg handed base _ _ rest
  | .cons fieldName offset (.enum id name b members) sizes rest =>
      exact length_leaves cfg handed base _ _ rest

theorem Fill.under_injective (hops : List Hop) : Function.Injective (Fill.under hops) := by
  rintro ⟨p, s⟩ ⟨p', s'⟩ h
  injection h with hpath hstored
  obtain rfl : p = p' := List.append_cancel_left hpath
  obtain rfl : s = s' := hstored
  rfl

/-- Under the same hops the fills are those of the leaves if they were before. -/
theorem map_under_eq (hops : List Hop) (fills : List Fill) (ls : List Leaf) :
    fills.map (Fill.under hops) = (ls.map (Leaf.under hops)).map Leaf.fill ↔ fills = ls.map Leaf.fill := by
  have hcomm : (ls.map (Leaf.under hops)).map Leaf.fill = (ls.map Leaf.fill).map (Fill.under hops) := by
    rw [List.map_map, List.map_map]
    rfl
  rw [hcomm]
  exact (List.map_injective_iff.mpr (Fill.under_injective hops)).eq_iff

/-- The fills are those of the leaves exactly if every offset that was handed on fits. -/
theorem fillsOf_eq (cfg : Config) {handed base : Nat} {inner scalar : Nat → Int}
    (hinner : ∀ o : Nat, inner o = toInt (base + o : Nat))
    (hscalar : ∀ o : Nat, scalar o = (base + o : Nat) ↔ handed < 2 ^ 31) (fields : NcFields)
    (hnumbers : Numbers cfg fields) :
    fillsOf inner scalar fields = (leaves cfg handed base fields).map Leaf.fill ↔
      ∀ l ∈ leaves cfg handed base fields, l.handed < 2 ^ 31 := by
  match fields with
  | .nil => simp [fillsOf, leaves]
  | .cons fieldName offset (.atomic t) sizes rest =>
      rw [fillsOf, leaves, List.map_cons, List.cons_eq_cons, List.forall_mem_cons,
        fillsOf_eq cfg hinner hscalar rest hnumbers.2]
      refine and_congr ?_ Iff.rfl
      rw [Leaf.fill, Fill.mk.injEq, and_iff_right rfl, Stored.raw.injEq]
      by_cases hsizes : sizes = []
      · rw [if_pos hsizes, if_pos hsizes]
        exact hscalar offset
      · rw [if_neg hsizes, if_neg hsizes, hinner]
        exact toInt_natCast _
  | .cons fieldName offset (.compound id name size fields') sizes rest =>
      obtain ⟨-, hnumbers', hrest⟩ := hnumbers
      have hinner' : ∀ o : Nat, toInt (o + inner offset) = toInt (base + offset + o : Nat) := by
        intro o
        rw [hinner, toInt_add_toInt]
        congr 1
        omega
      -- inside, what is handed on to a scalar is a sum with an `int`
      have hscalar' : ∀ o : Nat, o + inner offset = (base + offset + o : Nat) ↔ base + offset < 2 ^ 31 := by
        intro o
        rw [hinner, ← toInt_natCast]
        omega
      have hlength : ((fillsOf (fun o => toInt (o + inner offset)) (fun o => o + inner offset) fields').map
          (Fill.under [.member name])).length = (((leaves cfg (base + offset) (base + offset) fields').map
            (Leaf.under [.member name])).map Leaf.fill).length := by
        rw [List.length_map, List.length_map, List.length_map, length_leaves]
      have hunder : ∀ ls : List Leaf, (∀ l ∈ ls.map (Leaf.under [.member name]), l.handed < 2 ^ 31) ↔
          ∀ l ∈ ls, l.handed < 2 ^ 31 := by
        intro ls
        rw [List.forall_mem_map]
        exact Iff.rfl
      rw [fillsOf, leaves, List.map_append, List.forall_mem_append, hunder,
        ← fillsOf_eq cfg hinner' hscalar' fields' hnumbers', ← fillsOf_eq cfg hinner hscalar rest hrest,
        ← map_under_eq [.member name]]
      constructor
      · -- the lists are equal part by part, since the parts have the same lengths
        exact fun h => List.append_inj h hlength
      · rintro ⟨h, h'⟩
        rw [h, h']

/-! ## Each leaf once, inside the buffer -/

/-- A leaf is inside a member. -/
theorem head_of_mem_leaves {cfg : Config} {handed base : Nat} (fields : NcFields)
    (hnumbers : Numbers cfg fields) {l : Leaf} (hl : l ∈ leaves cfg handed base fields) :
    ∃ n ∈ memberNames fields, ∃ hops, l.path = .member n :: hops := by
  match fields with
  | .nil => cases hl
  | .cons fieldName offset (.atomic t) sizes rest =>
      rw [leaves, List.mem_cons] at hl
      rcases hl with rfl | hl
      · exact ⟨fieldName, List.mem_cons_self .., [], rfl⟩
      · obtain ⟨n, hn, hpath⟩ := head_of_mem_leaves rest hnumbers.2 hl
        exact ⟨n, List.mem_cons_of_mem _ hn, hpath⟩
  | .cons fieldName offset (.compound id name size fields) sizes rest =>
      rw [leaves, List.mem_append, List.mem_map] at hl
      rcases hl with ⟨l, -, rfl⟩ | hl
      · exact ⟨name, List.mem_cons_self .., l.path, rfl⟩
      · obtain ⟨n, hn, hpath⟩ := head_of_mem_leaves rest hnumbers.2.2 hl
        exact ⟨n, List.mem_cons_of_mem _ hn, hpath⟩

theorem nodup_map_path_under {hops : List Hop} {ls : List Leaf} (h : (ls.map Leaf.path).Nodup) :
    ((ls.map (Leaf.under hops)).map Leaf.path).Nodup := by
  have hmap : (ls.map (Leaf.under hops)).map Leaf.path = (ls.map Leaf.path).map (hops ++ ·) := by
    rw [List.map_map, List.map_map]
    rfl
  rw [hmap]
  exact h.map fun _ _ => List.append_cancel_left

/-- No two leaves are in the same place. -/
theorem nodup_path_leaves {cfg : Config} {handed base : Nat} (fields : NcFields)
    (hnumbers : Numbers cfg fields) (hnodup : (memberNames fields).Nodup)
    (hunambiguous : Unambiguous fields) : ((leaves cfg handed base fields).map Leaf.path).Nodup := by
  match fields with
  | .nil => exact List.nodup_nil
  | .cons fieldName offset (.atomic t) sizes rest =>
      obtain ⟨hnotMem, hrest⟩ := List.nodup_cons.mp hnodup
      rw [leaves, List.map_cons, List.nodup_cons]
      refine ⟨?_, nodup_path_leaves rest hnumbers.2 hrest hunambiguous⟩
      intro hmem
      obtain ⟨l, hl, hpath⟩ := List.mem_map.mp hmem
      obtain ⟨n, hn, hops, hpath'⟩ := head_of_mem_leaves rest hnumbers.2 hl
      obtain ⟨heq, -⟩ := List.cons_eq_cons.mp (hpath.symm.trans hpath')
      obtain rfl := Hop.member.inj heq
      exact hnotMem hn
  | .cons fieldName offset (.compound id name size fields) sizes rest =>
      obtain ⟨hnotMem, hrest⟩ := List.nodup_cons.mp hnodup
      obtain ⟨-, hnodup', hunambiguous', hunambiguousRest⟩ := hunambiguous
      rw [leaves, List.map_append]
      refine (nodup_map_path_under (nodup_path_leaves fields hnumbers.2.1 hnodup' hunambiguous')).append
        (nodup_path_leaves rest hnumbers.2.2 hrest hunambiguousRest) ?_
      rintro path hmem hmem'
      rw [List.map_map] at hmem
      obtain ⟨l, -, rfl⟩ := List.mem_map.mp hmem
      obtain ⟨l', hl', hpath⟩ := List.mem_map.mp hmem'
      obtain ⟨n, hn, hops, hpath'⟩ := head_of_mem_leaves rest hnumbers.2.2 hl'
      obtain ⟨heq, -⟩ := List.cons_eq_cons.mp (hpath.symm.trans hpath')
      obtain rfl := Hop.member.inj heq
      exact hnotMem hn

/-- The width of a number is its size in the file. -/
theorem scalarWidth_eq {cfg : Config} (hpromote : cfg.promoteByteToShort = false) {t : AtomicType}
    {c : ScalarClass} (hc : scalarClass cfg t = some c) (hstr : c ≠ .ncStr) :
    scalarWidth c = NcFile.sizeofAtomic t := by
  cases t with
  | char => exact absurd (Option.some.inj hc).symm hstr
  | string => exact absurd (Option.some.inj hc).symm hstr
  | int64 => cases hc
  | uint64 => cases hc
  | byte =>
      rw [scalarClass, hpromote] at hc
      obtain rfl := Option.some.inj hc
      rfl
  | _ =>
      obtain rfl := Option.some.inj hc
      rfl

/-- A leaf lies inside its compound. -/
theorem end_le_of_mem_leaves {cfg : Config} (hpromote : cfg.promoteByteToShort = false)
    (fields : NcFields) (hnumbers : Numbers cfg fields) {handed base size : Nat}
    (hinside : Inside size fields) {l : Leaf} (hl : l ∈ leaves cfg handed base fields) :
    l.offset + l.width ≤ base + size := by
  match fields with
  | .nil => cases hl
  | .cons fieldName offset (.atomic t) sizes rest =>
      obtain ⟨⟨c, hc, hstr⟩, hrest⟩ := hnumbers
      obtain ⟨hfield, hinsideRest⟩ := hinside
      rw [leaves, List.mem_cons] at hl
      rcases hl with rfl | hl
      · have hwidth : leafWidth cfg t sizes = NcFile.sizeofAtomic t * sizes.prod := by
          rw [leafWidth, hc, Option.map_some, Option.getD_some, scalarWidth_eq hpromote hc hstr]
        dsimp only
        omega
      · exact end_le_of_mem_leaves hpromote rest hrest hinsideRest hl
  | .cons fieldName offset (.compound id name inner fields) sizes rest =>
      obtain ⟨hfield, hinside', hinsideRest⟩ := hinside
      rw [leaves, List.mem_append, List.mem_map] at hl
      rcases hl with ⟨l, hl, rfl⟩ | hl
      · have hle := end_le_of_mem_leaves hpromote fields hnumbers.2.1 hinside' hl
        show l.offset + l.width ≤ base + size
        omega
      · exact end_le_of_mem_leaves hpromote rest hnumbers.2.2 hinsideRest hl

/-! ## Elements -/

/-- The fills for the elements `is`, where each field finds its own member. -/
def elementFills (size : Nat) (fields : NcFields) (is : List Nat) : List Fill :=
  is.flatMap fun (i : Nat) =>
    (fillsOf (fun o => toInt (o + 0 + size * i)) (fun o => i * size + o) fields).map
      (Fill.under [.element i])

section Elements

variable {cfg : Config} {dataset : String} {f : NcFile} {d : NcData} {ncid varid : Nat}

/-- The elements are read exactly if there are none, or the names are different. -/
theorem eval_readElements (hpromote : cfg.promoteByteToShort = false) {fields : NcFields}
    (hnumbers : Numbers cfg fields) (hatomic : (atomicNames fields).Nodup)
    (hnested : (nestedNames fields).Nodup) (hdistinct : DistinctInside fields) {n : String}
    {datatype : NcType} (hdatatype : isUserDefinedType datatype = true) (size : Nat) (values : NcData)
    (nels : Int) (slab : Slab) (is : List Nat) (fills : List Fill) :
    Throwing.eval (f.serve d) (NCArray.readElements cfg firstMember
        (.ncStructure n dataset (membersFor cfg dataset fields)) ncid varid datatype size fields values 0
        nels slab is) = .ok fills ↔
      (is = [] ∨ (memberNames fields).Nodup ∧ Unambiguous fields) ∧ fills = elementFills size fields is := by
  have hown : (memberNames fields).Nodup →
      FindsOwn cfg dataset (.ncStructure n dataset (membersFor cfg dataset fields)) fields :=
    findsOwn_membersFor fields hnumbers
  constructor
  · intro h
    induction is generalizing fills with
    | nil =>
        rw [NCArray.readElements] at h
        exact ⟨.inl rfl, (Except.ok.inj h).symm⟩
    | cons i is ih =>
        rw [NCArray.readElements, Throwing.eval_bind] at h
        obtain ⟨first, hfirst, h⟩ := bind_eq_ok.mp h
        rw [Throwing.eval_bind] at h
        obtain ⟨more, hmore, h⟩ := bind_eq_ok.mp h
        obtain ⟨fills', hfills', -⟩ := of_readElement hpromote fields hnumbers hdatatype hfirst
        have hnodup := nodup_of_readNumbers hnumbers hatomic hnested hfills'
        obtain ⟨hunambiguous, -⟩ := of_readNumbers fields hnumbers hdistinct (hown hnodup) hfills'
        rw [eval_readElement hpromote fields hnumbers hunambiguous (hown hnodup) hdatatype] at hfirst
        obtain rfl := Except.ok.inj hfirst
        obtain ⟨-, rfl⟩ := ih more hmore
        exact ⟨.inr ⟨hnodup, hunambiguous⟩, (Except.ok.inj h).symm⟩
  · rintro ⟨hcond, rfl⟩
    induction is with
    | nil =>
        rw [NCArray.readElements]
        rfl
    | cons i is ih =>
        obtain ⟨hnodup, hunambiguous⟩ := hcond.resolve_left (List.cons_ne_nil i is)
        rw [NCArray.readElements, Throwing.eval_bind,
          eval_readElement hpromote fields hnumbers hunambiguous (hown hnodup) hdatatype, ok_bind,
          Throwing.eval_bind, ih (.inr ⟨hnodup, hunambiguous⟩), ok_bind]
        rfl

end Elements

/-- Lists that are made piece by piece, with pieces of the same lengths. -/
theorem flatMap_inj {α β : Type} {g g' : α → List β} (hlength : ∀ a, (g a).length = (g' a).length)
    (l : List α) : l.flatMap g = l.flatMap g' ↔ ∀ a ∈ l, g a = g' a := by
  induction l with
  | nil => simp
  | cons a l ih =>
      rw [List.flatMap_cons, List.flatMap_cons, List.forall_mem_cons, ← ih]
      constructor
      · exact fun h => List.append_inj h (hlength a)
      · rintro ⟨h, h'⟩
        rw [h, h']

theorem length_flatMap_range {β : Type} {g : Nat → List β} {k : Nat} (hlength : ∀ a, (g a).length = k)
    (n : Nat) : ((List.range n).flatMap g).length = n * k := by
  induction n with
  | zero => simp
  | succ n ih => simp [List.range_succ, ih, hlength, Nat.succ_mul]

/-- `m` elements that were read are `n` elements as they should be exactly if the numbers agree and every
offset that was handed on fits. -/
theorem elementFills_eq {cfg : Config} {fields : NcFields} (hnumbers : Numbers cfg fields)
    (m n size : Nat) :
    elementFills size fields (List.range m) = (arrayLeaves cfg n size fields).map Leaf.fill ↔
      (m = n ∨ leaves cfg 0 0 fields = []) ∧ ∀ l ∈ arrayLeaves cfg n size fields, l.handed < 2 ^ 31 := by
  have hleaves : ∀ i, (leaves cfg 0 (i * size) fields).length = (leaves cfg 0 0 fields).length := by
    intro i
    rw [← length_leaves cfg 0 (i * size) (fun _ => 0) (fun _ => 0),
      ← length_leaves cfg 0 0 (fun _ => 0) (fun _ => 0)]
  have hlengthL : ∀ k, (arrayLeaves cfg k size fields).length = k * (leaves cfg 0 0 fields).length :=
    length_flatMap_range fun i => by rw [List.length_map, hleaves]
  have hlengthF : (elementFills size fields (List.range m)).length =
      m * (leaves cfg 0 0 fields).length :=
    length_flatMap_range (k := (leaves cfg 0 0 fields).length)
      (fun i => by rw [List.length_map, length_leaves cfg 0 0]) m
  by_cases hnone : leaves cfg 0 0 fields = []
  · have hlength0 : (leaves cfg 0 0 fields).length = 0 := by rw [hnone]; rfl
    have hempty : arrayLeaves cfg n size fields = [] := by
      apply List.eq_nil_of_length_eq_zero
      rw [hlengthL, hlength0, Nat.mul_zero]
    have hempty' : elementFills size fields (List.range m) = [] := by
      apply List.eq_nil_of_length_eq_zero
      rw [hlengthF, hlength0, Nat.mul_zero]
    simp [hempty, hempty', hnone]
  by_cases hmn : m = n
  · subst hmn
    -- element by element
    have helement : ∀ i : Nat, (fillsOf (fun o => toInt (o + 0 + size * i)) (fun o => i * size + o) fields).map
          (Fill.under [.element i]) =
            ((leaves cfg 0 (i * size) fields).map (Leaf.under [.element i])).map Leaf.fill ↔
          ∀ l ∈ (leaves cfg 0 (i * size) fields).map (Leaf.under [.element i]), l.handed < 2 ^ 31 := by
      intro i
      have hinner : ∀ o : Nat, toInt (o + 0 + size * i) = toInt (i * size + o : Nat) := by
        intro o
        rw [Int.add_zero, Int.add_comm, Int.mul_comm]
        rfl
      have hscalar : ∀ o : Nat, (i * size + o : Int) = (i * size + o : Nat) ↔ 0 < 2 ^ 31 := by
        intro o
        exact iff_of_true rfl (by decide)
      rw [map_under_eq, fillsOf_eq cfg hinner hscalar fields hnumbers, List.forall_mem_map]
      exact Iff.rfl
    rw [elementFills, arrayLeaves, List.map_flatMap, flatMap_inj]
    · simp only [helement, List.mem_flatMap, true_or, true_and]
      constructor
      · rintro h l ⟨i, hi, hl⟩
        exact h i hi l hl
      · exact fun h i hi l hl => h l ⟨i, hi, hl⟩
    · intro i
      rw [List.length_map, List.length_map, List.length_map, length_leaves]
  · have hpos : 0 < (leaves cfg 0 0 fields).length := List.length_pos_of_ne_nil hnone
    refine iff_of_false ?_ fun h => h.1.elim hmn hnone
    intro heq
    have hlength := congrArg List.length heq
    rw [hlengthF, List.length_map, hlengthL] at hlength
    exact hmn (Nat.eq_of_mul_eq_mul_right hpos hlength)

theorem nodup_path_arrayLeaves {cfg : Config} {fields : NcFields} (hnumbers : Numbers cfg fields)
    (hnodup : (memberNames fields).Nodup) (hunambiguous : Unambiguous fields) (n size : Nat) :
    ((arrayLeaves cfg n size fields).map Leaf.path).Nodup := by
  rw [arrayLeaves, List.map_flatMap, List.nodup_flatMap]
  refine ⟨fun i _ => nodup_map_path_under (nodup_path_leaves fields hnumbers hnodup hunambiguous), ?_⟩
  refine List.Pairwise.imp ?_ (List.nodup_range (n := n))
  intro i j hij path hmem hmem'
  obtain ⟨_, hl, rfl⟩ := List.mem_map.mp hmem
  obtain ⟨l, -, rfl⟩ := List.mem_map.mp hl
  obtain ⟨_, hl', hpath⟩ := List.mem_map.mp hmem'
  obtain ⟨l', -, rfl⟩ := List.mem_map.mp hl'
  obtain ⟨heq, -⟩ := List.cons_eq_cons.mp hpath
  exact hij (Hop.element.inj heq).symm

theorem end_le_of_mem_arrayLeaves {cfg : Config} (hpromote : cfg.promoteByteToShort = false)
    {fields : NcFields} (hnumbers : Numbers cfg fields) {n size : Nat} (hinside : Inside size fields)
    {l : Leaf} (hl : l ∈ arrayLeaves cfg n size fields) : l.offset + l.width ≤ n * size := by
  obtain ⟨i, hi, hl⟩ := List.mem_flatMap.mp hl
  obtain ⟨l', hl', rfl⟩ := List.mem_map.mp hl
  have hle := end_le_of_mem_leaves hpromote fields hnumbers hinside hl'
  have hlast : i * size + size ≤ n * size := by
    rw [← Nat.succ_mul]
    exact Nat.mul_le_mul_right size (List.mem_range.mp hi)
  exact hle.trans hlast

/-! ## Reading right -/

/-- Each of the leaves got its bytes, once, and nothing else was stored; no leaf ends behind the buffer. -/
def ReadsRight (d : NcData) (expected : List Leaf) (r : Except NcError Values) : Prop :=
  ∃ fills, r = .ok (some d, fills) ∧ fills = expected.map Leaf.fill ∧ (fills.map Fill.path).Nodup ∧
    ∀ l ∈ expected, l.offset + l.width ≤ d.bytes.length

theorem eval_unlessThere {f : NcFile} {d : NcData} (values : Option NcData) {x : Acc NcData}
    (h : Throwing.eval (f.serve d) x = .ok d) :
    Throwing.eval (f.serve d) (unlessThere values x) = .ok (values.getD d) := by
  cases values with
  | none => exact h
  | some d' => rfl

theorem eval_getSlab {f : NcFile} {d : NcData} (ncid varid : Nat) (slab : Slab) (mem : MemType) (room : Nat)
    (e : Int → NcError) : Throwing.eval (f.serve d) (getSlab ncid varid slab mem room e) = .ok d := by
  unfold getSlab
  split
  · exact eval_accOrThrow_ok e rfl
  · exact eval_accOrThrow_ok e rfl

theorem toNat_toInt (n : Nat) : (toInt n).toNat = n ↔ n < 2 ^ 31 := by
  constructor
  · intro h
    rcases Nat.eq_zero_or_pos n with rfl | hpos
    · decide
    · rw [← toInt_natCast]
      omega
  · intro h
    rw [(toInt_natCast n).mpr h]
    exact Int.toNat_natCast n

section Reading

variable {cfg : Config} {dataset : String} {f : NcFile} {ncid varid : Nat} {id : Nat} {name : String}
  {size : Nat} {fields : NcFields} {dimIds : List Nat} {b : BaseType}

/-- The Structure has one member for each field. -/
theorem structureOf_eq (hnumbers : Numbers cfg fields)
    (hbuilt : Throwing.eval f.answer (Ncdds.buildUserDefined cfg ncid varid dataset
      (.compound id name size fields) dimIds) = .ok (some b)) :
    ∃ n, structureOf b = .ncStructure n dataset (membersFor cfg dataset fields) := by
  obtain ⟨n, vars, hvars, hshape⟩ := of_buildUserDefined_compound hbuilt
  obtain rfl := eq_membersFor fields hnumbers hvars
  refine ⟨n, ?_⟩
  rcases hshape with ⟨-, hb⟩ | ⟨-, dims, hb⟩
  · obtain rfl := Option.some.inj hb
    rfl
  · obtain rfl := Option.some.inj hb
    rfl

/-- What `do_array_read` does with a compound of numbers: the elements are read exactly if there are none,
or the names are different. -/
theorem eval_doArrayRead (hpromote : cfg.promoteByteToShort = false)
    (hbuilt : Throwing.eval f.answer (Ncdds.buildUserDefined cfg ncid varid dataset
      (.compound id name size fields) dimIds) = .ok (some b))
    (hnumbers : Numbers cfg fields) (hatomic : (atomicNames fields).Nodup)
    (hnested : (nestedNames fields).Nodup) (hdistinct : DistinctInside fields) (d : NcData)
    (values : Option NcData) (varName : String) (nels : Int) (slab : Slab) (fills : List Fill) :
    Throwing.eval (f.serve d) (NCArray.doArrayRead cfg firstMember varName (structureOf b) ncid varid
        (.compound id name size fields) values 0 nels slab) = .ok (some (values.getD d), fills) ↔
      (nels ≤ 0 ∨ (memberNames fields).Nodup ∧ Unambiguous fields) ∧
        fills = elementFills size fields (List.range nels.toNat) := by
  obtain ⟨m, hstructure⟩ := structureOf_eq hnumbers hbuilt
  have hnone : List.range nels.toNat = [] ↔ nels ≤ 0 := by
    rw [List.range_eq_nil]
    omega
  rw [NCArray.doArrayRead, Throwing.eval_bind, eval_inqUserType rfl, ok_bind, Throwing.eval_bind,
    eval_unlessThere values (eval_getSlab ncid varid slab .native _ _), ok_bind, hstructure]
  dsimp only
  rw [Throwing.eval_bind, bind_eq_ok, ← hnone]
  constructor
  · rintro ⟨fills', hfills', h⟩
    rw [← (Prod.mk.inj (Except.ok.inj h)).2]
    rw [eval_readElements hpromote hnumbers hatomic hnested hdistinct rfl] at hfills'
    exact hfills'
  · intro h
    refine ⟨fills, ?_, rfl⟩
    rw [eval_readElements hpromote hnumbers hatomic hnested hdistinct rfl]
    exact h

/-- What `do_structure_read` does with one. -/
theorem eval_doStructureRead_iff (hpromote : cfg.promoteByteToShort = false)
    (hbuilt : Throwing.eval f.answer (Ncdds.buildUserDefined cfg ncid varid dataset
      (.compound id name size fields) dimIds) = .ok (some b))
    (hnumbers : Numbers cfg fields) (hatomic : (atomicNames fields).Nodup)
    (hnested : (nestedNames fields).Nodup) (hdistinct : DistinctInside fields) (d : NcData)
    (values : Option NcData) (fills : List Fill) :
    Throwing.eval (f.serve d) (NCStructure.doStructureRead cfg firstMember (structureOf b) dataset ncid varid
        (.compound id name size fields) values 0) = .ok (some (values.getD d), fills) ↔
      ((memberNames fields).Nodup ∧ Unambiguous fields) ∧
        fills = fillsOf (fun o => toInt (o + 0)) (fun o => o + 0) fields := by
  obtain ⟨m, hstructure⟩ := structureOf_eq hnumbers hbuilt
  have hown : (memberNames fields).Nodup →
      FindsOwn cfg dataset (.ncStructure m dataset (membersFor cfg dataset fields)) fields :=
    findsOwn_membersFor fields hnumbers
  rw [NCStructure.doStructureRead, Throwing.eval_bind, eval_inqUserType rfl, ok_bind, Throwing.eval_bind,
    eval_unlessThere values (eval_accOrThrow_ok _ rfl), ok_bind, hstructure, Throwing.eval_bind, bind_eq_ok]
  constructor
  · rintro ⟨fills', hfills', h⟩
    obtain rfl := (Prod.mk.inj (Except.ok.inj h)).2
    have hread := of_readFields hpromote fields hnumbers rfl hfills'
    have hnodup := nodup_of_readNumbers hnumbers hatomic hnested hread
    obtain ⟨hunambiguous, rfl⟩ := of_readNumbers fields hnumbers hdistinct (hown hnodup) hread
    exact ⟨⟨hnodup, hunambiguous⟩, rfl⟩
  · rintro ⟨⟨hnodup, hunambiguous⟩, rfl⟩
    exact ⟨_, eval_readFields hpromote fields hnumbers hunambiguous (hown hnodup) rfl _ _ _, rfl⟩

/-- `n` elements are read right, where the count arrives as an `int`. -/
theorem doArrayRead_readsRight (hpromote : cfg.promoteByteToShort = false)
    (hbuilt : Throwing.eval f.answer (Ncdds.buildUserDefined cfg ncid varid dataset
      (.compound id name size fields) dimIds) = .ok (some b))
    (hnumbers : Numbers cfg fields) (hatomic : (atomicNames fields).Nodup)
    (hnested : (nestedNames fields).Nodup) (hdistinct : DistinctInside fields)
    (hinside : Inside size fields) (d : NcData) (n : Nat) (values : Option NcData) (varName : String)
    (slab : Slab) (hbuffer : (values.getD d).bytes.length = n * size) :
    ReadsRight (values.getD d) (arrayLeaves cfg n size fields)
        (Throwing.eval (f.serve d) (NCArray.doArrayRead cfg firstMember varName (structureOf b) ncid varid
          (.compound id name size fields) values 0 (toInt n) slab)) ↔
      (toInt n ≤ 0 ∨ (memberNames fields).Nodup ∧ Unambiguous fields) ∧
        (n < 2 ^ 31 ∨ leaves cfg 0 0 fields = []) ∧
          ∀ l ∈ arrayLeaves cfg n size fields, l.handed < 2 ^ 31 := by
  have heval := eval_doArrayRead hpromote hbuilt hnumbers hatomic hnested hdistinct d values varName
    (toInt n) slab
  rw [← toNat_toInt, ← elementFills_eq hnumbers]
  constructor
  · rintro ⟨fills, hfills, hexpected, -⟩
    obtain ⟨hnames, hread⟩ := (heval fills).mp hfills
    exact ⟨hnames, hread.symm.trans hexpected⟩
  · rintro ⟨hnames, hexpected⟩
    refine ⟨_, (heval _).mpr ⟨hnames, rfl⟩, hexpected, ?_, ?_⟩
    · have hpaths : (elementFills size fields (List.range (toInt n).toNat)).map Fill.path =
          (arrayLeaves cfg n size fields).map Leaf.path := by
        rw [hexpected, List.map_map]
        rfl
      rcases hnames with hnone | ⟨hnodup, hunambiguous⟩
      · rw [Int.toNat_of_nonpos hnone]
        exact List.nodup_nil
      · rw [hpaths]
        exact nodup_path_arrayLeaves hnumbers hnodup hunambiguous n size
    · intro l hl
      rw [hbuffer]
      exact end_le_of_mem_arrayLeaves hpromote hnumbers hinside hl

/-- One value is read right. -/
theorem doStructureRead_readsRight (hpromote : cfg.promoteByteToShort = false)
    (hbuilt : Throwing.eval f.answer (Ncdds.buildUserDefined cfg ncid varid dataset
      (.compound id name size fields) dimIds) = .ok (some b))
    (hnumbers : Numbers cfg fields) (hatomic : (atomicNames fields).Nodup)
    (hnested : (nestedNames fields).Nodup) (hdistinct : DistinctInside fields)
    (hinside : Inside size fields) (d : NcData) (values : Option NcData)
    (hbuffer : (values.getD d).bytes.length = size) :
    ReadsRight (values.getD d) (leaves cfg 0 0 fields)
        (Throwing.eval (f.serve d) (NCStructure.doStructureRead cfg firstMember (structureOf b) dataset ncid
          varid (.compound id name size fields) values 0)) ↔
      ((memberNames fields).Nodup ∧ Unambiguous fields) ∧
        ∀ l ∈ leaves cfg 0 0 fields, l.handed < 2 ^ 31 := by
  have heval := eval_doStructureRead_iff hpromote hbuilt hnumbers hatomic hnested hdistinct d values
  have hinner : ∀ o : Nat, toInt (o + 0) = toInt (0 + o : Nat) := by
    intro o
    rw [Int.add_zero, Nat.zero_add]
  have hscalar : ∀ o : Nat, (o + 0 : Int) = (0 + o : Nat) ↔ 0 < 2 ^ 31 := by
    intro o
    refine iff_of_true ?_ (by decide)
    rw [Int.add_zero, Nat.zero_add]
  have hexpected := fillsOf_eq cfg hinner hscalar fields hnumbers
  rw [← hexpected]
  constructor
  · rintro ⟨fills, hfills, heq, -⟩
    obtain ⟨hnames, rfl⟩ := (heval fills).mp hfills
    exact ⟨hnames, heq⟩
  · rintro ⟨hnames, heq⟩
    refine ⟨_, (heval _).mpr ⟨hnames, rfl⟩, heq, ?_, ?_⟩
    · rw [heq, List.map_map]
      exact nodup_path_leaves fields hnumbers hnames.1 hnames.2
    · intro l hl
      have hle := end_le_of_mem_leaves hpromote fields hnumbers hinside hl
      rw [Nat.zero_add] at hle
      rw [hbuffer]
      exact hle

/-- What the readers make of a buffer of compounds of numbers: every leaf of every element gets its own bytes
exactly if the names that are looked for are different in each compound, the number of elements is an `int`,
and so is every offset that is handed on to an Array or a nested Structure. -/
theorem reads_iff (hpromote : cfg.promoteByteToShort = false)
    (hbuilt : Throwing.eval f.answer (Ncdds.buildUserDefined cfg ncid varid dataset
      (.compound id name size fields) dimIds) = .ok (some b))
    (hnumbers : Numbers cfg fields) (hatomic : (atomicNames fields).Nodup)
    (hnested : (nestedNames fields).Nodup) (hdistinct : DistinctInside fields)
    (hinside : Inside size fields) :
    (∀ (d : NcData) (values : Option NcData) (n : Nat) (varName : String) (slab : Slab),
      (values.getD d).bytes.length = n * size →
      (ReadsRight (values.getD d) (arrayLeaves cfg n size fields)
          (Throwing.eval (f.serve d) (NCArray.doArrayRead cfg firstMember varName (structureOf b) ncid varid
            (.compound id name size fields) values 0 (toInt n) slab)) ↔
        (toInt n ≤ 0 ∨ (memberNames fields).Nodup ∧ Unambiguous fields) ∧
          (n < 2 ^ 31 ∨ leaves cfg 0 0 fields = []) ∧
            ∀ l ∈ arrayLeaves cfg n size fields, l.handed < 2 ^ 31)) ∧
      ∀ (d : NcData) (values : Option NcData), (values.getD d).bytes.length = size →
        (ReadsRight (values.getD d) (leaves cfg 0 0 fields)
            (Throwing.eval (f.serve d) (NCStructure.doStructureRead cfg firstMember (structureOf b) dataset
              ncid varid (.compound id name size fields) values 0)) ↔
          ((memberNames fields).Nodup ∧ Unambiguous fields) ∧
            ∀ l ∈ leaves cfg 0 0 fields, l.handed < 2 ^ 31) := by
  constructor
  · intro d values n varName slab hbuffer
    exact doArrayRead_readsRight hpromote hbuilt hnumbers hatomic hnested hdistinct hinside d n values
      varName slab hbuffer
  · intro d values hbuffer
    exact doStructureRead_readsRight hpromote hbuilt hnumbers hatomic hnested hdistinct hinside d values
      hbuffer

end Reading

/-- The fields of a compound with an array, a nested compound and a number. -/
def pixelFields : NcFields :=
  .cons "rgb" 0 (.atomic .ubyte) [3] (.cons "at" 4 pointType [] (.cons "depth" 8 (.atomic .int) [] .nil))

def pixelStructure : BaseType :=
  .ncStructure "x" "f.nc" [.ncArray "rgb" "f.nc" (.scalar .ncByte "rgb" "f.nc") [.whole 3 ""],
    .ncStructure "point" "f.nc" [.scalar .ncInt32 "x" "f.nc"], .scalar .ncInt32 "depth" "f.nc"]

/-- Two of them are read right, and so is one. -/
theorem reads_pixels :
    ReadsRight ⟨List.replicate 24 0, []⟩ (arrayLeaves {} 2 12 pixelFields)
        (Throwing.eval
          ((NcFile.ofScalar (.compound 33 "pixel" 12 pixelFields)).serve ⟨List.replicate 24 0, []⟩)
          (NCArray.doArrayRead {} firstMember "x" pixelStructure 0 0 (.compound 33 "pixel" 12 pixelFields)
            none 0 (toInt (2 : Nat)) ⟨1, [0], [2], [1], false⟩)) ∧
      ReadsRight ⟨List.replicate 12 0, []⟩ (leaves {} 0 0 pixelFields)
        (Throwing.eval
          ((NcFile.ofScalar (.compound 33 "pixel" 12 pixelFields)).serve ⟨List.replicate 12 0, []⟩)
          (NCStructure.doStructureRead {} firstMember pixelStructure "f.nc" 0 0
            (.compound 33 "pixel" 12 pixelFields) none 0)) := by
  have hbuilt : Throwing.eval (NcFile.ofScalar (.compound 33 "pixel" 12 pixelFields)).answer
      (Ncdds.buildUserDefined {} 0 0 "f.nc" (.compound 33 "pixel" 12 pixelFields) []) =
      .ok (some pixelStructure) := by
    rfl
  have hnumbers : Numbers {} pixelFields :=
    ⟨⟨.ncByte, rfl, by decide⟩, rfl, ⟨⟨.ncInt32, rfl, by decide⟩, trivial⟩, ⟨.ncInt32, rfl, by decide⟩,
      trivial⟩
  have hdistinct : DistinctInside pixelFields := ⟨by decide, by decide, trivial, trivial⟩
  have hinside : Inside 12 pixelFields :=
    ⟨by decide, by decide, ⟨by decide, trivial⟩, by decide, trivial⟩
  have hnames : (memberNames pixelFields).Nodup ∧ Unambiguous pixelFields :=
    ⟨by decide, rfl, by decide, trivial, trivial⟩
  obtain ⟨helements, hone⟩ :=
    reads_iff rfl hbuilt hnumbers (by decide) (by decide) hdistinct hinside
  constructor
  · refine (helements ⟨List.replicate 24 0, []⟩ none 2 "x" ⟨1, [0], [2], [1], false⟩ rfl).mpr ?_
    exact ⟨.inr hnames, .inl (by decide), by decide⟩
  · exact (hone ⟨List.replicate 12 0, []⟩ none rfl).mpr ⟨hnames, by decide⟩

/-- The fields of a compound of eight bytes: a nested number, and a number behind it. -/
def sampleFields : NcFields := .cons "at" 0 pointType [] (.cons "value" 4 (.atomic .int) [] .nil)

/-- Of `2 ^ 28 + 1` such compounds the last one starts at `2 ^ 31`. That offset is handed on to the nested
Structure, and what arrives there is `- 2 ^ 31`: the number is taken from two gigabytes in front of the
buffer. -/
theorem not_reads_samples :
    ¬ ∀ (f : NcFile) (cfg : Config) (ncid varid : Nat) (dataset : String) (id : Nat) (name : String)
        (size : Nat) (fields : NcFields) (dimIds : List Nat) (b : BaseType) (d : NcData) (n : Nat)
        (varName : String) (slab : Slab), cfg.promoteByteToShort = false →
      Throwing.eval f.answer (Ncdds.buildUserDefined cfg ncid varid dataset
        (.compound id name size fields) dimIds) = .ok (some b) →
      Numbers cfg fields → (atomicNames fields).Nodup → (nestedNames fields).Nodup →
      DistinctInside fields → Inside size fields → d.bytes.length = n * size →
      ReadsRight d (arrayLeaves cfg n size fields)
        (Throwing.eval (f.serve d) (NCArray.doArrayRead cfg firstMember varName (structureOf b) ncid varid
          (.compound id name size fields) none 0 (toInt n) slab)) := by
  intro h
  have hbuilt : Throwing.eval (NcFile.ofScalar (.compound 33 "sample" 8 sampleFields)).answer
      (Ncdds.buildUserDefined {} 0 0 "f.nc" (.compound 33 "sample" 8 sampleFields) []) =
      .ok (some (.ncStructure "x" "f.nc"
        [.ncStructure "point" "f.nc" [.scalar .ncInt32 "x" "f.nc"], .scalar .ncInt32 "value" "f.nc"])) := by
    rfl
  have hnumbers : Numbers {} sampleFields :=
    ⟨rfl, ⟨⟨.ncInt32, rfl, by decide⟩, trivial⟩, ⟨.ncInt32, rfl, by decide⟩, trivial⟩
  have hdistinct : DistinctInside sampleFields := ⟨by decide, by decide, trivial, trivial⟩
  have hinside : Inside 8 sampleFields := ⟨by decide, ⟨by decide, trivial⟩, by decide, trivial⟩
  obtain ⟨bytes, hbuffer⟩ : ∃ bytes : List UInt8, bytes.length = (2 ^ 28 + 1) * 8 :=
    ⟨List.replicate ((2 ^ 28 + 1) * 8) 0, List.length_replicate⟩
  have hright := h (NcFile.ofScalar (.compound 33 "sample" 8 sampleFields)) {} 0 0 "f.nc" 33 "sample" 8
    sampleFields [] _ ⟨bytes, []⟩ (2 ^ 28 + 1) "x" ⟨1, [0], [2 ^ 28 + 1], [1], false⟩ rfl hbuilt hnumbers
    (by decide) (by decide) hdistinct hinside hbuffer
  obtain ⟨-, -, hfits⟩ := (doArrayRead_readsRight rfl hbuilt hnumbers (by decide) (by decide) hdistinct
    hinside ⟨bytes, []⟩ (2 ^ 28 + 1) none "x" ⟨1, [0], [2 ^ 28 + 1], [1], false⟩ hbuffer).mp hright
  -- the number in the last element
  have hlast : (⟨[.element (2 ^ 28), .member "point", .member "x"], 2 ^ 31, 4, 2 ^ 31⟩ : Leaf) ∈
      arrayLeaves {} (2 ^ 28 + 1) 8 sampleFields :=
    List.mem_flatMap.mpr ⟨2 ^ 28, List.mem_range.mpr (Nat.lt_succ_self _), List.mem_cons_self ..⟩
  exact absurd (hfits _ hlast) (Nat.lt_irrefl _)

end Skunk.NetCDF
