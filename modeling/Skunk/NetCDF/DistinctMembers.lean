import Skunk.NetCDF.GridMaps
import Skunk.NetCDF.UserDefined

/-!
# The names of members

The members of a Grid or a Structure are found by their names, so DAP wants these to be different. The
names of Maps are those of dimensions, and a variable may have a dimension twice. All members of all
Structures that are built for a variable have the variable's name. `distinctMembers_iff` says for which
datasets that is good enough.
-/

namespace Skunk.NetCDF

open Skunk.Effect

mutual
/-- In every Grid and every Structure, at every depth, the names of the members are different. -/
def DistinctMembers : BaseType → Prop
  | .scalar .. => True
  | .ncArray _ _ var _ => DistinctMembers var
  | .ncStructure _ _ vars => (vars.map BaseType.name).Nodup ∧ AllDistinct vars
  | .ncGrid _ _ arrayVar maps =>
    (arrayVar.name :: maps.map BaseType.name).Nodup ∧ DistinctMembers arrayVar ∧ AllDistinct maps

def AllDistinct : List BaseType → Prop
  | [] => True
  | b :: bs => DistinctMembers b ∧ AllDistinct bs
end

def NcFields.length : NcFields → Nat
  | .nil => 0
  | .cons _ _ _ _ rest => rest.length + 1

/-- The compounds among the fields have one field each, at most, at every depth. -/
def SlenderInside : NcFields → Prop
  | .nil => True
  | .cons _ _ (.compound _ _ _ fields) _ rest =>
    (fields.length ≤ 1 ∧ SlenderInside fields) ∧ SlenderInside rest
  | .cons _ _ _ _ rest => SlenderInside rest

/-- A variable with a coordinate variable for each dimension has none of its array's dimensions twice, and
a compound has one field at most, and so has each compound inside it. -/
def DistinctParts (f : NcFile) : Prop :=
  ∀ varid v, f.vars[varid]? = some v →
    ((∀ d ∈ v.dimIds, HasCoordinateVariable f varid d) → (arrayDims v).Nodup) ∧
    ∀ id name size fields, v.type = .compound id name size fields →
      fields.length ≤ 1 ∧ SlenderInside fields

variable {f : NcFile} {cfg : Config} {filename : String} {ncid varid : Nat} {v : Var}

/-! ## Grids -/

/-- The Maps have the names of the dimensions, and nothing inside. -/
theorem names_of_maps {ds : List Nat} {maps : List BaseType}
    (h : List.Forall₂ (MapFor f cfg filename) ds maps) :
    maps.map BaseType.name = ds.map (dimName f) ∧ AllDistinct maps := by
  induction h with
  | nil => exact ⟨rfl, trivial⟩
  | cons hm _ ih =>
      obtain ⟨w, -, c, hname, -, rfl⟩ := hm
      refine ⟨?_, trivial, ih.2⟩
      rw [List.map_cons, List.map_cons, ih.1]
      exact congrArg (· :: _) hname

/-- No variable is its own coordinate variable. -/
theorem name_ne_dimName (hv : f.vars[varid]? = some v) {d : Nat} (h : HasCoordinateVariable f varid d) :
    v.name ≠ dimName f d := by
  obtain ⟨i, w, hw, hne, hname⟩ := h
  intro hsame
  have hi := findIdx?_name f.varNames_nodup hw
  rw [hname, ← hsame, findIdx?_name f.varNames_nodup hv] at hi
  exact hne (Option.some.inj hi).symm

/-- The members of a Grid have different names exactly if no dimension comes twice. -/
theorem distinctMembers_grid_iff (hv : f.vars[varid]? = some v)
    (hcoord : ∀ d ∈ v.dimIds, HasCoordinateVariable f varid d) {c : ScalarClass} {dims : List ArrayDim}
    {maps : List BaseType} (hmaps : List.Forall₂ (MapFor f cfg filename) (arrayDims v) maps) :
    DistinctMembers (.ncGrid v.name filename
      (.ncArray v.name filename (.scalar c v.name filename) dims) maps) ↔ (arrayDims v).Nodup := by
  obtain ⟨hnames, hinside⟩ := names_of_maps hmaps
  have hdims := f.dimIds_lt v (List.mem_of_getElem? hv)
  have hnew : v.name ∉ (arrayDims v).map (dimName f) := by
    intro hmem
    obtain ⟨d, hd, hname⟩ := List.mem_map.mp hmem
    exact name_ne_dimName hv (hcoord d (mem_arrayDims hd)) hname.symm
  have hinj : ∀ d ∈ arrayDims v, ∀ d' ∈ arrayDims v, dimName f d = dimName f d' → d = d' :=
    fun d hd d' hd' => dimName_inj (hdims d (mem_arrayDims hd)) (hdims d' (mem_arrayDims hd'))
  show (v.name :: maps.map BaseType.name).Nodup ∧ True ∧ AllDistinct maps ↔ _
  rw [hnames, List.nodup_cons, and_iff_right hnew, true_and, and_iff_left hinside]
  exact ⟨List.Nodup.of_map _, List.Nodup.map_on hinj⟩

/-! ## Structures -/

theorem name_wrapStructure (dimIds : List Nat) (ms : List BaseType) :
    (wrapStructure f ncid varid filename dimIds ms).name = structureName f ncid varid := by
  unfold wrapStructure
  split <;> rfl

theorem distinctMembers_wrapStructure (dimIds : List Nat) (ms : List BaseType) :
    DistinctMembers (wrapStructure f ncid varid filename dimIds ms) ↔
      (ms.map BaseType.name).Nodup ∧ AllDistinct ms := by
  unfold wrapStructure
  split <;> rfl

theorem of_compoundMember {sizes : List Nat} {ms : List BaseType} {m : BaseType}
    (h : compoundMember f cfg ncid varid filename sizes ms = .ok m) :
    m = wrapStructure f ncid varid filename (sizes ++ sizes) ms := by
  unfold compoundMember at h
  split at h
  · cases h
  · exact (Except.ok.inj h).symm

/-- Other types than compounds are refused. -/
theorem of_buildUserDefined_some {type : NcType} {dimIds : List Nat} {b : Option BaseType}
    (h : Throwing.eval f.answer (NewNcdds.buildUserDefined cfg ncid varid filename type dimIds) = .ok b) :
    ∃ id name size fields ms, type = .compound id name size fields ∧
      Throwing.eval f.answer (NewNcdds.buildFields cfg ncid varid filename type fields 0) = .ok ms ∧
      b = some (wrapStructure f ncid varid filename dimIds ms) := by
  cases type with
  | compound id name size fields =>
      rw [eval_buildUserDefined_compound] at h
      cases hms : Throwing.eval f.answer (NewNcdds.buildFields cfg ncid varid filename
          (.compound id name size fields) fields 0) with
      | error e =>
          rw [hms] at h
          cases h
      | ok ms =>
          rw [hms] at h
          exact ⟨id, name, size, fields, ms, rfl, hms, (Except.ok.inj h).symm⟩
  | _ =>
      rw [NewNcdds.buildUserDefined, Throwing.eval_bind] at h
      · obtain ⟨_, -, h⟩ := bind_eq_ok.mp h
        cases h
      all_goals simp

/-- Where the loop returns, the first field is a compound. -/
theorem compound_of_buildFields {xtype type : NcType} {fieldName : String} {offset i : Nat}
    {sizes : List Nat} {rest : NcFields} {ms : List BaseType}
    (h : Throwing.eval f.answer (NewNcdds.buildFields cfg ncid varid filename xtype
      (.cons fieldName offset type sizes rest) i) = .ok ms) :
    ∃ id name size fields, type = .compound id name size fields := by
  rw [NewNcdds.buildFields, Throwing.eval_bind] at h
  obtain ⟨_, -, h⟩ := bind_eq_ok.mp h
  rw [Throwing.eval_bind] at h
  obtain ⟨b, hb, -⟩ := bind_eq_ok.mp h
  obtain ⟨id, name, size, fields, _, htype, -, -⟩ := of_buildUserDefined_some hb
  exact ⟨id, name, size, fields, htype⟩

/-- A member for each field, all of the name of the variable. -/
theorem members_distinct_iff {xtype : NcType} (hx : isUserDefinedType xtype) (fields : NcFields) {i : Nat}
    {ms : List BaseType}
    (h : Throwing.eval f.answer (NewNcdds.buildFields cfg ncid varid filename xtype fields i) = .ok ms) :
    ms.map BaseType.name = List.replicate fields.length (structureName f ncid varid) ∧
      (AllDistinct ms ↔ SlenderInside fields) := by
  match fields with
  | .nil =>
      obtain rfl := Except.ok.inj h
      exact ⟨rfl, Iff.rfl⟩
  | .cons fieldName offset (.compound id name size inner) sizes rest =>
      have huser : isUserDefinedType (.compound id name size inner) := rfl
      rw [eval_buildFields_compound f cfg ncid varid filename hx] at h
      obtain ⟨ms₁, hinner, h⟩ := bind_eq_ok.mp h
      obtain ⟨m, hmember, h⟩ := bind_eq_ok.mp h
      obtain ⟨ms₂, hrest, h⟩ := bind_eq_ok.mp h
      obtain rfl := Except.ok.inj h
      obtain rfl := of_compoundMember hmember
      obtain ⟨hnames₁, hdistinct₁⟩ := members_distinct_iff huser inner hinner
      obtain ⟨hnames₂, hdistinct₂⟩ := members_distinct_iff hx rest hrest
      refine ⟨?_, ?_⟩
      · rw [List.map_cons, hnames₂, name_wrapStructure]
        rfl
      · rw [AllDistinct, distinctMembers_wrapStructure, hnames₁, List.nodup_replicate, hdistinct₁,
          hdistinct₂, SlenderInside]
  | .cons _ _ (.atomic _) _ _ | .cons _ _ (.vlen ..) _ _ | .cons _ _ (.opaqueBytes ..) _ _
  | .cons _ _ (.enum ..) _ _ =>
      obtain ⟨_, _, _, _, htype⟩ := compound_of_buildFields h
      cases htype

/-! ## Every variable -/

/-- What does not become a Grid is a Structure, or has no members. -/
theorem distinctMembers_other_iff (hv : f.vars[varid]? = some v) (hgrid : gridMaps f varid v.dimIds = none)
    {b : BaseType}
    (h : Throwing.eval f.answer (NewNcdds.readOneVariable cfg filename ncid varid v) = .ok (some b)) :
    DistinctMembers b ↔ ∀ id name size fields, v.type = .compound id name size fields →
      fields.length ≤ 1 ∧ SlenderInside fields := by
  have hmem := List.mem_of_getElem? hv
  have hdims := f.dimIds_lt v hmem
  simp only [NewNcdds.readOneVariable, Throwing.eval_bind, Throwing.eval_ofExcept,
    nameBuf_new (f.varNames_le v hmem), ok_bind, eval_isGrid_new ncid hdims, hgrid, Option.map_none,
    Throwing.eval_ite] at h
  split at h
  next huser =>
    obtain ⟨id, name, size, fields, ms, htype, hms, hb⟩ := of_buildUserDefined_some h
    obtain rfl := Option.some.inj hb
    obtain ⟨hnames, hdistinct⟩ := members_distinct_iff huser fields hms
    rw [distinctMembers_wrapStructure, hnames, List.nodup_replicate, hdistinct, htype]
    constructor
    · rintro hslender _ _ _ _ heq
      obtain ⟨-, -, -, rfl⟩ := NcType.compound.inj heq
      exact hslender
    · intro hall
      exact hall id name size fields rfl
  next huser =>
    -- a scalar and an Array have no members
    refine iff_of_true ?_ ?_
    · split at h
      · have hderef : (NewNcdds.buildScalar cfg v.name filename v.type >>= deref) = .ok b := by
          rw [h]
          rfl
        obtain ⟨c, rfl⟩ := of_buildScalar hderef
        trivial
      · obtain ⟨bt, hbt, h⟩ := bind_eq_ok.mp h
        obtain ⟨ar, har, h⟩ := bind_eq_ok.mp h
        obtain rfl := Option.some.inj (Except.ok.inj h)
        obtain ⟨c, rfl⟩ := of_buildScalar hbt
        rw [NewNcdds.buildArray, BaseType.newNCArray_scalar,
          eval_buildArrayDims_new ncid fun d hd => hdims d (List.mem_of_mem_take hd)] at har
        obtain rfl := Except.ok.inj har
        trivial
    · intro id name size fields htype
      rw [htype] at huser
      exact absurd rfl huser

/-- A Grid is built of an atomic type only. -/
theorem not_compound_of_grid (hv : f.vars[varid]? = some v) {ms : List Ncdds.Map}
    (hgrid : gridMaps f varid v.dimIds = some ms) {b : Option BaseType}
    (h : Throwing.eval f.answer (NewNcdds.readOneVariable cfg filename ncid varid v) = .ok b) (id : Nat)
    (name : String) (size : Nat) (fields : NcFields) : v.type ≠ .compound id name size fields := by
  have hmem := List.mem_of_getElem? hv
  have hdims := f.dimIds_lt v hmem
  intro htype
  simp only [NewNcdds.readOneVariable, Throwing.eval_bind, Throwing.eval_ofExcept,
    nameBuf_new (f.varNames_le v hmem), ok_bind, eval_isGrid_new ncid hdims, hgrid, Option.map_some,
    eval_rereadDims ncid hdims hgrid, htype] at h
  cases h

/-- What is built for a variable has distinct members exactly if its dimensions and its type allow it. -/
theorem distinctMembers_readOneVariable_iff (hv : f.vars[varid]? = some v) {b : BaseType}
    (h : Throwing.eval f.answer (NewNcdds.readOneVariable cfg filename ncid varid v) = .ok (some b)) :
    DistinctMembers b ↔ ((∀ d ∈ v.dimIds, HasCoordinateVariable f varid d) → (arrayDims v).Nodup) ∧
      ∀ id name size fields, v.type = .compound id name size fields →
        fields.length ≤ 1 ∧ SlenderInside fields := by
  have hdims := f.dimIds_lt v (List.mem_of_getElem? hv)
  have hiff : (gridMaps f varid v.dimIds).isSome ↔ ∀ d ∈ v.dimIds, HasCoordinateVariable f varid d :=
    gridMaps_isSome_iff hdims
  cases hgrid : gridMaps f varid v.dimIds with
  | none =>
      rw [hgrid] at hiff
      rw [distinctMembers_other_iff hv hgrid h, ← hiff]
      exact (and_iff_right (absurd · Bool.false_ne_true)).symm
  | some ms =>
      have hcoord := hiff.mp (by rw [hgrid]; rfl)
      obtain ⟨c, dims, maps, hb, hmaps⟩ := of_readOneVariable_grid hv hgrid h
      obtain rfl := Option.some.inj hb
      rw [distinctMembers_grid_iff hv hcoord hmaps, and_iff_left]
      · exact ⟨fun hnodup _ => hnodup, fun himp => himp hcoord⟩
      · intro id name size fields htype
        exact absurd htype (not_compound_of_grid hv hgrid h id name size fields)

/-- All Grids and Structures of a dataset have distinct members exactly if its variables have distinct
parts. -/
theorem distinctMembers_iff (f : NcFile) (cfg : Config) (filename : String) (ncid : Nat)
    {dds : List BaseType}
    (h : Throwing.eval f.answer (NewNcdds.readAllVariables cfg filename ncid f.vars.length) = .ok dds) :
    (∀ b ∈ dds, DistinctMembers b) ↔ DistinctParts f := by
  obtain ⟨bs, rfl, hbs⟩ := of_readAllVariablesLoop (fun i hi => List.mem_range.mp hi) h
  constructor
  · intro hall varid v hv
    have hlt := (List.getElem?_eq_some_iff.mp hv).1
    obtain ⟨b, hb, hread⟩ := exists_mem_of_forall₂ hbs (List.mem_range.mpr hlt)
    exact (distinctMembers_readOneVariable_iff hv (hread v hv)).mp (hall b hb)
  · intro hparts b hb
    obtain ⟨varid, hvarid, hread⟩ := exists_mem_of_forall₂ hbs.flip hb
    have hv := List.getElem?_eq_getElem (List.mem_range.mp hvarid)
    exact (distinctMembers_readOneVariable_iff hv (hread _ hv)).mpr (hparts varid _ hv)

/-- One dimension, once. -/
theorem coordinateFile_distinct :
    (∀ b ∈ [BaseType.ncArray "x" "f.nc" (.scalar .ncFloat32 "x" "f.nc") [.whole 3 "x"],
        .ncGrid "v" "f.nc" (.ncArray "v" "f.nc" (.scalar .ncFloat32 "v" "f.nc") [.whole 3 "x"])
          [.ncArray "x" "f.nc" (.scalar .ncFloat32 "x" "f.nc") [.whole 3 "x"]]],
      DistinctMembers b) ↔ DistinctParts (coordinateFile [0] (by decide)) :=
  distinctMembers_iff (coordinateFile [0] (by decide)) {} "f.nc" 0 (by rfl)

theorem oneDim_nodup : ([⟨"x", 3⟩].map Dim.name).Nodup := List.nodup_singleton _

theorem oneDim_le : ∀ d ∈ [(⟨"x", 3⟩ : Dim)], d.name.utf8ByteSize ≤ ncMaxName :=
  List.forall_mem_singleton.mpr (by decide)

/-- A matrix along one dimension. -/
def squareFile : NcFile where
  dims := [⟨"x", 3⟩]
  vars := [⟨"x", .atomic .float, [0], []⟩, ⟨"v", .atomic .float, [0, 0], []⟩]
  globalAtts := []
  unlimdim := none
  dimIds_lt := List.forall_mem_cons.mpr ⟨by decide, List.forall_mem_singleton.mpr (by decide)⟩
  dimNames_nodup := oneDim_nodup
  varNames_nodup := by
    show ["x", "v"].Nodup
    decide
  dimNames_le := oneDim_le
  varNames_le := by
    refine List.forall_mem_cons.mpr ⟨?_, List.forall_mem_singleton.mpr (by decide)⟩
    show "x".utf8ByteSize ≤ ncMaxName
    decide

/-- Its Grid has the Map `x` twice. -/
theorem squareFile_not_distinct :
    ¬ ∀ (f : NcFile) (cfg : Config) (filename : String) (ncid : Nat) (dds : List BaseType),
      Throwing.eval f.answer (NewNcdds.readAllVariables cfg filename ncid f.vars.length) = .ok dds →
      ∀ b ∈ dds, DistinctMembers b := by
  intro hall
  have hgrid := hall squareFile {} "f.nc" 0
    [.ncArray "x" "f.nc" (.scalar .ncFloat32 "x" "f.nc") [.whole 3 "x"],
      .ncGrid "v" "f.nc" (.ncArray "v" "f.nc" (.scalar .ncFloat32 "v" "f.nc") [.whole 3 "x", .whole 3 "x"])
        [.ncArray "x" "f.nc" (.scalar .ncFloat32 "x" "f.nc") [.whole 3 "x"],
          .ncArray "x" "f.nc" (.scalar .ncFloat32 "x" "f.nc") [.whole 3 "x"]]] (by rfl) _
    (List.mem_cons_of_mem _ List.mem_cons_self)
  have hnodup : ["v", "x", "x"].Nodup := hgrid.1
  revert hnodup
  decide

end Skunk.NetCDF
