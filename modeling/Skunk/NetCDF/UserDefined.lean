import Skunk.NetCDF.NewNcdds

/-!
# User-defined types in the builder in use

A compound type is a tree, and `build_user_defined` walks it. `Mirrors` says what a DAP value for
the tree should look like: a Structure with one member for each field, in order. This module finds
the types for which the function delivers that.

It calls itself on *every* field, to find out whether the field is user-defined, and the inquiry that
comes first fails for an atomic type. So the recursion comes back from a tree only if there is no
atomic field anywhere in it. A compound field that is an array gets its sizes twice, once inside the
recursion and once outside; and the dimensions of a variable are its identifiers, not its lengths.
-/

namespace Skunk.NetCDF

open Skunk.Effect

/-! ## What a value for a type looks like -/

/-- A field that is a scalar to DAP. -/
def IsScalarField (type : NcType) (sizes : List Nat) : Prop :=
  sizes.length = 0 ∨ (sizes.length = 1 ∧ type.isChar)

instance (type : NcType) (sizes : List Nat) : Decidable (IsScalarField type sizes) :=
  inferInstanceAs (Decidable (_ ∨ _))

/-- `b` is an Array of elements that satisfy `P`, with dimensions of these sizes. -/
def IsArrayOf (P : BaseType → Prop) (sizes : List Nat) : BaseType → Prop
  | .ncArray _ _ elem dims => P elem ∧ dims.map ArrayDim.size = sizes
  | _ => False

mutual
/-- `b` mirrors one value of the type: a scalar of its class, or a Structure of its fields. -/
def Mirrors (cfg : Config) : NcType → BaseType → Prop
  | .atomic t, .scalar c _ _ => scalarClass cfg t = some c
  | .compound _ _ _ fields, .ncStructure _ _ vars => MirrorsFields cfg fields vars
  | _, _ => False

/-- One member for each field, in field order. -/
def MirrorsFields (cfg : Config) : NcFields → List BaseType → Prop
  | .nil, [] => True
  | .cons _ _ type sizes rest, b :: bs =>
      (if IsScalarField type sizes then Mirrors cfg type b
        else IsArrayOf (Mirrors cfg type) sizes b) ∧ MirrorsFields cfg rest bs
  | _, _ => False
end

/-- `b` mirrors a variable of this type with dimensions `dimIds` of the file. -/
def MirrorsVariable (f : NcFile) (cfg : Config) (type : NcType) (dimIds : List Nat)
    (b : BaseType) : Prop :=
  if dimIds = [] then Mirrors cfg type b
  else IsArrayOf (Mirrors cfg type) (dimIds.map fun d => (f.dims[d]?.map Dim.length).getD 0) b

mutual
/-- Built from supported atomic types and compounds only. -/
def SupportedType (cfg : Config) : NcType → Prop
  | .atomic t => (scalarClass cfg t).isSome
  | .compound _ _ _ fields => SupportedFields cfg fields
  | _ => False

def SupportedFields (cfg : Config) : NcFields → Prop
  | .nil => True
  | .cons _ _ type _ rest => SupportedType cfg type ∧ SupportedFields cfg rest
end

/-- Every field, at every depth, is a compound without dimensions. -/
def CompoundsOnly : NcFields → Prop
  | .nil => True
  | .cons _ _ (.compound _ _ _ fields) sizes rest =>
      sizes = [] ∧ CompoundsOnly fields ∧ CompoundsOnly rest
  | .cons .. => False

/-! ## What the function does -/

section Outcome

variable (f : NcFile) (cfg : Config) (ncid varid : Nat) (dataset : String)

/-- The name that the function reads for every Structure: that of the variable. -/
def structureName : String := (f.answer (.ncInqVarname ncid varid)).out

/-- What it returns for a compound type once it has the members. -/
def wrapStructure (dimIds : List Nat) (members : List BaseType) : BaseType :=
  let s := BaseType.ncStructure (structureName f ncid varid) dataset members
  if dimIds = [] then s
  else .ncArray (structureName f ncid varid) dataset s (dimIds.map fun d => .whole d "")

/-- A compound becomes a Structure of what its fields become. -/
theorem eval_buildUserDefined_compound (id : Nat) (name : String) (size : Nat) (fields : NcFields)
    (dimIds : List Nat) :
    Throwing.eval f.answer
        (NewNcdds.buildUserDefined cfg ncid varid dataset (.compound id name size fields) dimIds) =
      (some ∘ wrapStructure f ncid varid dataset dimIds) <$>
        Throwing.eval f.answer (NewNcdds.buildFields cfg ncid varid dataset
          (.compound id name size fields) fields 0) := by
  have huser : f.answer (.ncInqUserType ncid (.compound id name size fields)) = .ok () := rfl
  rw [NewNcdds.buildUserDefined, Throwing.eval_bind, eval_inqOrThrow_ok _ huser, ok_bind,
    Throwing.eval_bind, eval_inq, ok_bind, Throwing.eval_bind]
  cases Throwing.eval f.answer (NewNcdds.buildFields cfg ncid varid dataset
    (.compound id name size fields) fields 0) with
  | error e => rfl
  | ok members => cases dimIds <;> simp [wrapStructure, structureName]

/-- An atomic type makes the first inquiry fail. -/
theorem eval_buildUserDefined_atomic (t : AtomicType) (dimIds : List Nat) :
    Throwing.eval f.answer
        (NewNcdds.buildUserDefined cfg ncid varid dataset (.atomic t) dimIds) =
      .error (.internalErr ("Could not inquire user type " ++ toString t.code)) := by
  have huser : f.answer (.ncInqUserType ncid (.atomic t)) = .fail ncEBadType () := rfl
  have hstatus : ncEBadType ≠ ncNoErr := by decide
  rw [NewNcdds.buildUserDefined, Throwing.eval_bind, eval_inqOrThrow, huser, NcReply.status_fail,
    if_neg hstatus]
  · rfl
  · simp

/-- The member for a compound field: its Structure, which is turned into an array a second time if the field
is an array. -/
def compoundMember (sizes : List Nat) (members : List BaseType) : Except NcError BaseType :=
  if cfg.releaseFirst = true ∧ sizes ≠ [] then .error .undefined
  else .ok (wrapStructure f ncid varid dataset (sizes ++ sizes) members)

/-- A field that is a compound is built as one, and the fields behind it follow. -/
theorem eval_buildFields_compound {xtype : NcType} (hx : isUserDefinedType xtype)
    (fieldName : String) (offset id : Nat) (name : String) (size : Nat) (fields : NcFields)
    (sizes : List Nat) (rest : NcFields) (i : Nat) :
    Throwing.eval f.answer (NewNcdds.buildFields cfg ncid varid dataset xtype
        (.cons fieldName offset (.compound id name size fields) sizes rest) i) =
      (do
        let ms ← Throwing.eval f.answer (NewNcdds.buildFields cfg ncid varid dataset
          (.compound id name size fields) fields 0)
        let m ← compoundMember f cfg ncid varid dataset sizes ms
        let ms' ← Throwing.eval f.answer (NewNcdds.buildFields cfg ncid varid dataset xtype
          rest (i + 1))
        return m :: ms') := by
  have hfield : f.answer (.ncInqCompoundField ncid xtype i) = .ok () := if_pos hx
  rw [NewNcdds.buildFields, Throwing.eval_bind, inqUnchecked, eval_inqOrThrow_ok _ hfield, ok_bind,
    Throwing.eval_bind, eval_buildUserDefined_compound]
  cases Throwing.eval f.answer (NewNcdds.buildFields cfg ncid varid dataset
    (.compound id name size fields) fields 0) with
  | error e => rfl
  | ok ms =>
      cases sizes with
      | nil =>
          simp [wrapStructure, compoundMember, NcType.isChar, NewNcdds.newMember]
          rfl
      | cons n ns =>
          cases horder : cfg.releaseFirst with
          | true => simp [wrapStructure, compoundMember, NcType.isChar, NewNcdds.makeNCArray, horder]
          | false =>
              simp [wrapStructure, compoundMember, NcType.isChar, NewNcdds.makeNCArray, horder,
                NewNcdds.newMember, BaseType.name]
              rfl

end Outcome

/-! ## When it mirrors the type -/

section Mirroring

variable {f : NcFile} {cfg : Config} {ncid varid : Nat} {dataset : String}

/-- A Structure mirrors a compound exactly if its members mirror the fields. -/
theorem mirrors_wrapStructure_nil {id : Nat} {name : String} {size : Nat} {fields : NcFields}
    {ms : List BaseType} :
    Mirrors cfg (.compound id name size fields) (wrapStructure f ncid varid dataset [] ms) ↔
      MirrorsFields cfg fields ms := by
  simp [wrapStructure, Mirrors]

theorem not_isScalarField_compound {id : Nat} {name : String} {size : Nat} {fields : NcFields}
    {sizes : List Nat} (h : sizes ≠ []) :
    ¬ IsScalarField (.compound id name size fields) sizes := by
  simp [IsScalarField, NcType.isChar, h]

/-- A compound field mirrors its type exactly if it has no dimensions and its members do. -/
theorem mirrorsFields_cons_compound {fieldName : String} {offset id : Nat} {name : String}
    {size : Nat} {inner rest : NcFields} {sizes : List Nat} {ms ms' : List BaseType} :
    MirrorsFields cfg (.cons fieldName offset (.compound id name size inner) sizes rest)
        (wrapStructure f ncid varid dataset (sizes ++ sizes) ms :: ms') ↔
      sizes = [] ∧ MirrorsFields cfg inner ms ∧ MirrorsFields cfg rest ms' := by
  rw [MirrorsFields]
  by_cases hsizes : sizes = []
  · subst hsizes
    have hscalar : IsScalarField (.compound id name size inner) [] := Or.inl rfl
    rw [if_pos hscalar, List.nil_append, mirrors_wrapStructure_nil]
    simp
  · rw [if_neg (not_isScalarField_compound hsizes)]
    simp [wrapStructure, hsizes, IsArrayOf, Function.comp_def]

/-- The members mirror the fields exactly if there are only compounds without dimensions. -/
theorem buildFields_mirrors_iff {xtype : NcType} (hx : isUserDefinedType xtype)
    (fields : NcFields) (i : Nat) (hsup : SupportedFields cfg fields) :
    (∃ ms, Throwing.eval f.answer
        (NewNcdds.buildFields cfg ncid varid dataset xtype fields i) = .ok ms ∧
      MirrorsFields cfg fields ms) ↔ CompoundsOnly fields := by
  match fields with
  | .nil => simp [NewNcdds.buildFields, MirrorsFields, CompoundsOnly]
  | .cons fieldName offset (.atomic t) sizes rest =>
      have hfield : f.answer (.ncInqCompoundField ncid xtype i) = .ok () := if_pos hx
      simp [NewNcdds.buildFields, inqUnchecked, eval_inqOrThrow_ok _ hfield,
        eval_buildUserDefined_atomic, CompoundsOnly]
  | .cons fieldName offset (.compound id name size inner) sizes rest =>
      have huser : isUserDefinedType (.compound id name size inner) := rfl
      have hinner := buildFields_mirrors_iff huser inner 0
        (by simpa [SupportedType] using hsup.1)
      have hrest := buildFields_mirrors_iff hx rest (i + 1) hsup.2
      rw [eval_buildFields_compound f cfg ncid varid dataset hx, CompoundsOnly, ← hinner, ← hrest]
      cases Throwing.eval f.answer (NewNcdds.buildFields cfg ncid varid dataset
        (.compound id name size inner) inner 0) with
      | error e => simp
      | ok ms =>
          rw [ok_bind, compoundMember]
          split
          next hsecond => simp [hsecond.2]
          · cases Throwing.eval f.answer
              (NewNcdds.buildFields cfg ncid varid dataset xtype rest (i + 1)) with
            | error e => simp
            | ok ms' => simpa using mirrorsFields_cons_compound
  | .cons _ _ (.vlen ..) _ _ => exact absurd hsup.1 (by simp [SupportedType])
  | .cons _ _ (.opaqueBytes ..) _ _ => exact absurd hsup.1 (by simp [SupportedType])
  | .cons _ _ (.enum ..) _ _ => exact absurd hsup.1 (by simp [SupportedType])

/-- A Structure with dimensions mirrors the variable exactly if its members do and each dimension
is as long as its number. -/
theorem mirrorsVariable_wrapStructure {id : Nat} {name : String} {size : Nat}
    {fields : NcFields} {dimIds : List Nat} {ms : List BaseType}
    (hdims : ∀ d ∈ dimIds, d < f.dims.length) :
    MirrorsVariable f cfg (.compound id name size fields) dimIds
        (wrapStructure f ncid varid dataset dimIds ms) ↔
      MirrorsFields cfg fields ms ∧
        ∀ d ∈ dimIds, f.dims[d]?.map Dim.length = some d := by
  by_cases hnil : dimIds = []
  · subst hnil
    simp [MirrorsVariable, mirrors_wrapStructure_nil]
  · have hlengths : (dimIds = dimIds.map fun d => (f.dims[d]?.map Dim.length).getD 0) ↔
        ∀ d ∈ dimIds, f.dims[d]?.map Dim.length = some d := by
      conv_lhs => rw [← List.map_id dimIds]
      rw [List.map_map, List.map_inj_left]
      refine forall₂_congr fun d hd => ?_
      simp [List.getElem?_eq_getElem (hdims d hd), eq_comm]
    simp [MirrorsVariable, wrapStructure, hnil, IsArrayOf, Function.comp_def, Mirrors, hlengths]

/-- For a variable of a supported compound type, `build_user_defined` returns a value that mirrors
it exactly if there is no atomic and no array field at any depth, and each of the variable's
dimensions is as long as its own identifier. -/
theorem buildUserDefined_mirrors_iff (f : NcFile) (cfg : Config) (ncid varid : Nat)
    (dataset : String) (v : Var) (id : Nat) (name : String) (size : Nat) (fields : NcFields)
    (hv : f.vars[varid]? = some v) (htype : v.type = .compound id name size fields)
    (hsup : SupportedFields cfg fields) :
    (∃ b, Throwing.eval f.answer
        (NewNcdds.buildUserDefined cfg ncid varid dataset v.type v.dimIds) = .ok (some b) ∧
      MirrorsVariable f cfg v.type v.dimIds b) ↔
    CompoundsOnly fields ∧ ∀ d ∈ v.dimIds, f.dims[d]?.map Dim.length = some d := by
  have hdims := f.dimIds_lt v (List.mem_of_getElem? hv)
  have huser : isUserDefinedType (.compound id name size fields) := rfl
  rw [htype, eval_buildUserDefined_compound,
    ← buildFields_mirrors_iff huser fields 0 hsup]
  cases Throwing.eval f.answer (NewNcdds.buildFields cfg ncid varid dataset
    (.compound id name size fields) fields 0) with
  | error e => simp
  | ok ms => simpa using mirrorsVariable_wrapStructure hdims

end Mirroring

/-- A compound of one field, a compound without fields. -/
def nestedType : NcType :=
  .compound 32 "outer" 1 (.cons "inner" 0 (.compound 33 "inner" 1 .nil) [] .nil)

theorem nestedType_mirrors :
    ∃ b, Throwing.eval (NcFile.ofScalar nestedType).answer
        (NewNcdds.buildUserDefined {} 0 0 "f.nc" nestedType []) = .ok (some b) ∧
      MirrorsVariable (NcFile.ofScalar nestedType) {} nestedType [] b :=
  (buildUserDefined_mirrors_iff (NcFile.ofScalar nestedType) {} 0 0 "f.nc" ⟨"x", nestedType, [], []⟩
    32 "outer" 1 _ rfl rfl (by simp [SupportedFields, SupportedType])).mpr
    (by simp [CompoundsOnly])

def pointType : NcType := .compound 32 "point" 4 (.cons "x" 0 (.atomic .int) [] .nil)

/-- The field of type `NC_INT` ends the function. -/
theorem pointType_throws :
    SupportedType {} pointType ∧
    Throwing.eval (NcFile.ofScalar pointType).answer
        (NewNcdds.buildUserDefined {} 0 0 "f.nc" pointType []) =
      .error (.internalErr "Could not inquire user type 4") ∧
    ¬ ∃ b, Throwing.eval (NcFile.ofScalar pointType).answer
        (NewNcdds.buildUserDefined {} 0 0 "f.nc" pointType []) = .ok (some b) ∧
      MirrorsVariable (NcFile.ofScalar pointType) {} pointType [] b := by
  have hthrow : Throwing.eval (NcFile.ofScalar pointType).answer
        (NewNcdds.buildUserDefined {} 0 0 "f.nc" pointType []) =
      .error (.internalErr "Could not inquire user type 4") := by
    rfl
  refine ⟨by simp [pointType, SupportedType, SupportedFields, scalarClass], hthrow, ?_⟩
  rintro ⟨b, hb, -⟩
  rw [hthrow] at hb
  cases hb

end Skunk.NetCDF
