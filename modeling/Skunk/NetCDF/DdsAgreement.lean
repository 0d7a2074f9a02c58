import Skunk.NetCDF.Ncdds
import Skunk.NetCDF.NewNcdds
import Mathlib.Data.List.Forall2

/-!
# The two DDS builders, compared

Both builders only inquire, so each has an outcome against `NcFile.answer`. This module computes the
outcome of each for a single variable and compares them: for a variable of an accepted atomic type
they add the same DAP variable unless

* the compiler evaluates `bt.release()` before `bt->name()` and the variable becomes a Grid; or
* the variable is a scalar to DAP (rank 0, or a one-dimensional `NC_CHAR`) and every one of its
  dimensions has a coordinate variable: `is_grid` is asked first in `new_ncdds.cc` and says yes; or
* a name that the previous builder reads does not fit its buffers.

A rank-0 variable has no dimension that could lack a coordinate variable, so it always falls under
the first exception.
-/

namespace Skunk.NetCDF

open Skunk.Effect

/-! ## Looking things up in a faithful library -/

theorem findIdx?_name {α : Type} {l : List α} {name : α → String} (hl : (l.map name).Nodup)
    {i : Nat} {a : α} (ha : l[i]? = some a) :
    l.findIdx? (fun x => name x == name a) = some i := by
  obtain ⟨hi, rfl⟩ := List.getElem?_eq_some_iff.mp ha
  rw [List.findIdx?_eq_some_iff_getElem]
  refine ⟨hi, by simp, fun j hj => ?_⟩
  intro heq
  have hj' : j < (l.map name).length := by
    rw [List.length_map]
    exact Nat.lt_trans hj hi
  have hi' : i < (l.map name).length := by
    rw [List.length_map]
    exact hi
  have hnames : (l.map name)[j] = (l.map name)[i] := by simpa using heq
  have hji := (List.Nodup.getElem_inj_iff hl).mp hnames
  omega

variable (f : NcFile)

@[simp] theorem answer_ncInqDim (ncid d : Nat) :
    f.answer (.ncInqDim ncid d) = .ofOption ncEBadDim ⟨"", 0⟩ f.dims[d]? := rfl

theorem answer_ncInqDimid {ncid d : Nat} {dim : Dim} (hd : f.dims[d]? = some dim) :
    f.answer (.ncInqDimid ncid dim.name) = .ok d := by
  show NcReply.ofOption ncEBadDim (0 : Nat) (f.dims.findIdx? (·.name == dim.name)) = .ok d
  rw [findIdx?_name f.dimNames_nodup hd, NcReply.ofOption_some]

theorem answer_ncInqDimlen {ncid d : Nat} {dim : Dim} (hd : f.dims[d]? = some dim) :
    f.answer (.ncInqDimlen ncid d) = .ok dim.length := by
  show NcReply.ofOption ncEBadDim (0 : Nat) (f.dims[d]?.map Dim.length) = .ok dim.length
  rw [hd, Option.map_some, NcReply.ofOption_some]

theorem answer_ncInqVarid (ncid : Nat) (name : String) :
    f.answer (.ncInqVarid ncid name) =
      .ofOption ncENotVar (0 : Nat) (f.vars.findIdx? (·.name == name)) := rfl

theorem answer_ncInqVarid_name {varid : Nat} {v : Var} (hv : f.vars[varid]? = some v) (ncid : Nat) :
    f.answer (.ncInqVarid ncid v.name) = .ok varid := by
  rw [answer_ncInqVarid, findIdx?_name f.varNames_nodup hv, NcReply.ofOption_some]

theorem answer_ncInqVartype {ncid varid : Nat} {v : Var} (hv : f.vars[varid]? = some v) :
    f.answer (.ncInqVartype ncid varid) = .ok v.type := by
  show NcReply.ofOption ncENotVar (.atomic .byte) (f.vars[varid]?.map Var.type) = .ok v.type
  rw [hv, Option.map_some, NcReply.ofOption_some]

theorem answer_ncInqVar {ncid varid : Nat} {v : Var} (hv : f.vars[varid]? = some v) :
    f.answer (.ncInqVar ncid varid) = .ok v := by
  show NcReply.ofOption ncENotVar NcFile.noVar f.vars[varid]? = .ok v
  rw [hv, NcReply.ofOption_some]

@[simp] theorem ncENotVar_ne : ncENotVar ≠ ncNoErr := by decide

/-! ## Coordinate variables -/

/-- The coordinate variable of dimension `d`, seen from variable `varid`: another variable of the
dimension's name. It comes as the Map that it makes. -/
def coordMap (varid d : Nat) : Option Ncdds.Map :=
  match f.dims[d]? with
  | none => none
  | some dim =>
    match f.vars.findIdx? (·.name == dim.name) with
    | none => none
    | some coord =>
      if coord = varid then none
      else f.vars[coord]?.map fun v => ⟨dim.name, v.type, dim.length⟩

/-- The Maps for these dimensions, if each has one. -/
def gridMaps (varid : Nat) : List Nat → Option (List Ncdds.Map)
  | [] => some []
  | d :: ds =>
    match coordMap f varid d with
    | none => none
    | some m => (gridMaps varid ds).map (m :: ·)

theorem vars_getElem?_of_findIdx? {name : String} {coord : Nat}
    (h : f.vars.findIdx? (·.name == name) = some coord) : ∃ v, f.vars[coord]? = some v := by
  obtain ⟨hlt, -⟩ := List.findIdx?_eq_some_iff_getElem.mp h
  exact ⟨_, List.getElem?_eq_getElem hlt⟩

theorem eval_findMatching_old (ncid : Nat) {varid d : Nat} {dim : Dim}
    (hd : f.dims[d]? = some dim) :
    Throwing.eval f.answer
        (Ncdds.findMatchingCoordinateVariable ncid varid dim.name dim.length) =
      .ok ((coordMap f varid d).map Ncdds.Map.type) := by
  rw [Ncdds.findMatchingCoordinateVariable, Throwing.eval_bind, eval_inq,
    answer_ncInqDimid f hd, ok_bind, NcReply.status_ok, NcReply.out_ok, if_pos rfl,
    Throwing.eval_bind, eval_inqOrThrow_ok _ (answer_ncInqDimlen f hd), ok_bind, if_pos rfl, Throwing.eval_bind,
    eval_inq, answer_ncInqVarid, ok_bind]
  simp only [coordMap, hd]
  cases hc : f.vars.findIdx? (·.name == dim.name) with
  | none =>
      split
      · rfl
      · next h => exact absurd (Or.inr ncENotVar_ne) h
  | some coord =>
      obtain ⟨v, hv⟩ := vars_getElem?_of_findIdx? f hc
      split
      · next h =>
          have hself : coord = varid := h.elim Eq.symm (fun h => absurd rfl h)
          simp [hself]
      · next h =>
          have hself : ¬ coord = varid := fun heq => h (Or.inl heq.symm)
          rw [Throwing.eval_bind, NcReply.ofOption_some, NcReply.out_ok,
            eval_inqOrThrow_ok _ (answer_ncInqVartype f hv)]
          simp [hself, hv]

theorem eval_findMatching_new (ncid : Nat) {varid d : Nat} {dim : Dim}
    (hd : f.dims[d]? = some dim) :
    Throwing.eval f.answer
        (NewNcdds.findMatchingCoordinateVariable ncid varid dim.name dim.length) =
      .ok ((coordMap f varid d).map Ncdds.Map.type) := by
  rw [NewNcdds.findMatchingCoordinateVariable, Throwing.eval_bind, eval_inq,
    answer_ncInqDimid f hd, ok_bind, NcReply.status_ok, NcReply.out_ok,
    if_neg (not_not_intro rfl), Throwing.eval_bind,
    eval_inqOrThrow_ok _ (answer_ncInqDimlen f hd), ok_bind, if_neg (not_not_intro rfl),
    Throwing.eval_bind, eval_inq, answer_ncInqVarid, ok_bind]
  simp only [coordMap, hd]
  cases hc : f.vars.findIdx? (·.name == dim.name) with
  | none =>
      split
      · rfl
      · next h => exact absurd ncENotVar_ne h
  | some coord =>
      obtain ⟨v, hv⟩ := vars_getElem?_of_findIdx? f hc
      split
      · next h => exact absurd rfl h
      · split
        · next hself =>
            have hself' : coord = varid := hself
            simp [hself']
        · next hself =>
            have hself' : ¬ coord = varid := hself
            rw [Throwing.eval_bind, NcReply.ofOption_some, NcReply.out_ok,
              eval_inqOrThrow_ok _ (answer_ncInqVartype f hv)]
            simp [hself', hv]

/-! ## `is_grid` -/

/-- The dimensions that `is_grid` looks at: up to the first without a coordinate variable. -/
def gridReads (varid : Nat) : List Nat → List Nat
  | [] => []
  | d :: ds => if (coordMap f varid d).isSome then d :: gridReads varid ds else [d]

def dimName (d : Nat) : String := (f.dims[d]?.map Dim.name).getD ""

/-- A name that fits the buffers of `ncdds.cc`, NUL included. -/
def Fits (name : String) : Prop := name.utf8ByteSize < Ncdds.maxNcName

instance (name : String) : Decidable (Fits name) := inferInstanceAs (Decidable (_ < _))

theorem nameBuf_old (name : String) :
    nameBuf Ncdds.maxNcName name = if Fits name then .ok name else .error .undefined := rfl

theorem nameBuf_new {name : String} (h : name.utf8ByteSize ≤ ncMaxName) :
    nameBuf NewNcdds.maxNameLen name = .ok name :=
  if_pos (Nat.lt_succ_of_le h)

theorem coordMap_eq_some {varid d : Nat} {dim : Dim} {m : Ncdds.Map} (hd : f.dims[d]? = some dim)
    (h : coordMap f varid d = some m) :
    m.name = dim.name ∧ m.size = dim.length ∧ ∃ v ∈ f.vars, v.type = m.type := by
  simp only [coordMap, hd] at h
  split at h
  · cases h
  · split at h
    · cases h
    · obtain ⟨v, hv, rfl⟩ := Option.map_eq_some_iff.mp h
      exact ⟨rfl, rfl, v, List.mem_of_getElem? hv, rfl⟩

variable {f}

theorem eval_isGrid_old (ncid : Nat) {varid : Nat} {ds : List Nat} (d₀ : Nat)
    (hds : ∀ d ∈ ds, d < f.dims.length) :
    Throwing.eval f.answer (Ncdds.isGrid ncid varid d₀ ds) =
      if ∀ d ∈ gridReads f varid ds, Fits (dimName f d) then .ok (gridMaps f varid ds)
      else .error .undefined := by
  induction ds generalizing d₀ with
  | nil => simp [Ncdds.isGrid, gridReads, gridMaps]
  | cons d ds ih =>
      obtain ⟨dim, hd⟩ : ∃ dim, f.dims[d]? = some dim :=
        ⟨_, List.getElem?_eq_getElem (hds d (by simp))⟩
      have ih' := ih (d₀ + 1) (fun x hx => hds x (by simp [hx]))
      have hname : dimName f d = dim.name := by simp [dimName, hd]
      simp only [Ncdds.isGrid, Throwing.eval_bind, eval_inqOrThrow, answer_ncInqDim, hd,
        NcReply.ofOption_some, NcReply.status_ok, NcReply.out_ok, if_true, ok_bind,
        Throwing.eval_ofExcept, nameBuf_old, gridReads, gridMaps]
      by_cases hfit : Fits dim.name
      · simp only [hfit, if_true, ok_bind, eval_findMatching_old f ncid hd]
        obtain hc | ⟨m, hc⟩ := Option.eq_none_or_eq_some (coordMap f varid d)
        · simp [hc, hname, hfit]
        · obtain ⟨hmn, hms, -⟩ := coordMap_eq_some f hd hc
          simp only [hc, Option.map_some, Throwing.eval_bind, ih', Option.isSome_some, if_true,
            List.forall_mem_cons, hname, hfit, true_and]
          split
          · cases gridMaps f varid ds <;> simp [← hmn, ← hms]
          · rfl
      · have hno : ¬ ∀ x ∈ (if (coordMap f varid d).isSome then d :: gridReads f varid ds
            else [d]), Fits (dimName f x) := by
          intro hall
          refine hfit (hname ▸ hall d ?_)
          split <;> simp
        simp [hfit, hno]

/-- It is a Grid if each dimension has a coordinate variable, and these are the Maps. -/
theorem eval_isGrid_new (ncid : Nat) {varid : Nat} {ds : List Nat}
    (hds : ∀ d ∈ ds, d < f.dims.length) :
    Throwing.eval f.answer (NewNcdds.isGrid ncid varid ds) =
      .ok ((gridMaps f varid ds).map fun ms =>
        ⟨ms.map Ncdds.Map.name, ms.map Ncdds.Map.type, ms.map Ncdds.Map.size⟩) := by
  induction ds with
  | nil => simp [NewNcdds.isGrid, gridMaps]
  | cons d ds ih =>
      have hlt := hds d (by simp)
      have hd : f.dims[d]? = some f.dims[d] := by simp [hlt]
      have hle := f.dimNames_le f.dims[d] (List.getElem_mem hlt)
      have ih' := ih (fun x hx => hds x (by simp [hx]))
      simp only [NewNcdds.isGrid, Throwing.eval_bind, eval_inqOrThrow, answer_ncInqDim, hd,
        NcReply.ofOption_some, NcReply.status_ok, NcReply.out_ok, if_true, ok_bind,
        Throwing.eval_ofExcept, nameBuf_new hle, gridMaps, eval_findMatching_new f ncid hd]
      cases hc : coordMap f varid d with
      | none => simp
      | some m =>
          obtain ⟨hmn, hms, -⟩ := coordMap_eq_some f hd hc
          simp only [Option.map_some, Throwing.eval_bind, ih', ok_bind]
          cases gridMaps f varid ds <;> simp [← hmn, ← hms]

/-! ## Scalars, Maps and Grids of accepted types -/

/-- The class that `build_scalar` gives to a type it accepts. -/
def typeClass (cfg : Config) : NcType → Option ScalarClass
  | .atomic t => scalarClass cfg t
  | _ => none

section Accepted

variable {cfg : Config} {t : NcType} {c : ScalarClass} (h : typeClass cfg t = some c)
include h

theorem not_userDefined_of_typeClass : isUserDefinedType t = false := by
  cases t <;> simp_all [typeClass, isUserDefinedType]

theorem buildScalar_old (name dataset : String) :
    Ncdds.buildScalar cfg name dataset t = .ok (some (.scalar c name dataset)) := by
  cases t <;> simp_all [typeClass, Ncdds.buildScalar]

theorem buildScalar_new (name dataset : String) :
    NewNcdds.buildScalar cfg name dataset t = .ok (some (.scalar c name dataset)) := by
  cases t <;> simp_all [typeClass, NewNcdds.buildScalar]

end Accepted

/-- The Array that stands for a Map whose elements have class `c`. -/
def mapVar (filename : String) (c : ScalarClass) (m : Ncdds.Map) : BaseType :=
  .ncArray m.name filename (.scalar c m.name filename) [.whole m.size m.name]

theorem buildMap_old {cfg : Config} {m : Ncdds.Map} {c : ScalarClass}
    (h : typeClass cfg m.type = some c) (filename : String) :
    Ncdds.buildMap cfg filename m = .ok (mapVar filename c m) := by
  simp only [Ncdds.buildMap, buildScalar_old h]
  rfl

/-- If the name is read first, the Array has the name of its variable. -/
theorem makeNCArray_scalar {cfg : Config} (horder : cfg.releaseFirst = false) (filename : String)
    (c : ScalarClass) (name : String) :
    NewNcdds.makeNCArray cfg filename (some (.scalar c name filename)) =
      .ok (.ncArray name filename (.scalar c name filename) []) := by
  rw [NewNcdds.makeNCArray, horder]
  rfl

theorem buildMap_new {cfg : Config} (horder : cfg.releaseFirst = false) {m : Ncdds.Map} {c : ScalarClass}
    (h : typeClass cfg m.type = some c) (filename : String) :
    NewNcdds.buildMap cfg filename (m.name, m.type, m.size) = .ok (mapVar filename c m) := by
  rw [NewNcdds.buildMap, buildScalar_new h, ok_bind, makeNCArray_scalar horder]
  rfl

/-- Both builders make the same Maps, if the name is read first. -/
theorem mapM_buildMap {cfg : Config} (filename : String) {ms : List Ncdds.Map}
    (h : ∀ m ∈ ms, (typeClass cfg m.type).isSome) :
    ∃ arrs, ms.mapM (Ncdds.buildMap cfg filename) = .ok arrs ∧
      (cfg.releaseFirst = false →
        (ms.map fun m => (m.name, m.type, m.size)).mapM (NewNcdds.buildMap cfg filename) = .ok arrs) := by
  induction ms with
  | nil => exact ⟨[], rfl, fun _ => rfl⟩
  | cons m ms ih =>
      obtain ⟨arrs, hold, hnew⟩ := ih fun x hx => h x (by simp [hx])
      obtain ⟨c, hc⟩ := Option.isSome_iff_exists.mp (h m (by simp))
      refine ⟨mapVar filename c m :: arrs, ?_, ?_⟩
      · rw [List.mapM_cons, buildMap_old hc, ok_bind, hold]
        rfl
      · intro horder
        rw [List.map_cons, List.mapM_cons, buildMap_new horder hc, ok_bind, hnew horder]
        rfl

theorem zip_map_append {α β γ : Type} (g : α → β) (h : α → γ) (l : List α) (extra : List γ) :
    (l.map g).zip (l.map h ++ extra) = l.map fun a => (g a, h a) := by
  induction l with
  | nil => rfl
  | cons a l ih => simpa using ih

theorem zip_map_append_left {α β γ : Type} (g : α → β) (h : α → γ) (l : List α)
    (extra : List β) : (l.map g ++ extra).zip (l.map h) = l.map fun a => (g a, h a) := by
  induction l with
  | nil => simp
  | cons a l ih => simpa using ih

/-- Given the same maps, both builders make the same Grid; the names that `read_all_variables`
appends once more are not used. -/
theorem buildGrid_eq {cfg : Config} (name filename : String) (c : ScalarClass) (type : NcType)
    {ms : List Ncdds.Map} (h : ∀ m ∈ ms, (typeClass cfg m.type).isSome) (extra : List String) :
    ∃ ar maps names,
      Ncdds.buildGrid cfg name filename (.scalar c name filename) type ms =
        .ok (.ncGrid name filename ar maps, names) ∧
      (cfg.releaseFirst = false →
        NewNcdds.buildGrid cfg (.ncArray name filename (.scalar c name filename) []) filename
          ms.length type (ms.map Ncdds.Map.name ++ extra) (ms.map Ncdds.Map.type)
          (ms.map Ncdds.Map.size) = .ok (.ncGrid name filename ar maps)) := by
  let ndims := if type.isChar then ms.length - 1 else ms.length
  obtain ⟨arrs, hold, hnew⟩ := mapM_buildMap filename
    fun m (hm : m ∈ ms.take ndims) => h m (List.mem_of_mem_take hm)
  refine ⟨.ncArray name filename (.scalar c name filename)
    ((ms.take ndims).map fun m => .whole m.size m.name), arrs,
    (ms.take ndims).map Ncdds.Map.name, ?_, ?_⟩
  · simp only [Ncdds.buildGrid, show (if type.isChar then ms.length - 1 else ms.length) = ndims
      from rfl, hold, ok_bind, BaseType.newNCArray_scalar, BaseType.appendDims_ncArray,
      List.nil_append]
    rfl
  · intro horder
    have hzip : (ms.map Ncdds.Map.name ++ extra).zip
        ((ms.map Ncdds.Map.type).zip (ms.map Ncdds.Map.size)) =
          ms.map fun m => (m.name, m.type, m.size) := by
      rw [List.zip_map', zip_map_append_left]
    simp only [NewNcdds.buildGrid, show (if type.isChar then ms.length - 1 else ms.length) = ndims
      from rfl, hzip, ← List.map_take, hnew horder, zip_map_append]
    simp [BaseType.name, Function.comp_def]

/-! ## Arrays -/

/-- Dimension `d` of the file as a dimension of a DAP array. -/
def dapDim (f : NcFile) (d : Nat) : ArrayDim :=
  .whole ((f.dims[d]?.map Dim.length).getD 0) (dimName f d)

/-- The dimensions that an Array keeps: the last one of `NC_CHAR` is the length of a string. -/
def arrayDims (v : Var) : List Nat :=
  v.dimIds.take (if v.type.isChar then v.dimIds.length - 1 else v.dimIds.length)

theorem eval_buildArrayDims_old (ncid varid : Nat) {ds : List Nat} (d₀ : Nat)
    (hds : ∀ d ∈ ds, d < f.dims.length) (n dataset : String) (t : BaseType)
    (dims : List ArrayDim) :
    Throwing.eval f.answer
        (Ncdds.buildArrayDims ncid varid d₀ ds (.ncArray n dataset t dims)) =
      if ∀ d ∈ ds, Fits (dimName f d) then .ok (.ncArray n dataset t (dims ++ ds.map (dapDim f)))
      else .error .undefined := by
  induction ds generalizing d₀ dims with
  | nil => simp [Ncdds.buildArrayDims]
  | cons d ds ih =>
      have hlt := hds d (by simp)
      have hd : f.dims[d]? = some f.dims[d] := List.getElem?_eq_getElem hlt
      have hname : dimName f d = f.dims[d].name := by simp [dimName, hd]
      have hdap : dapDim f d = .whole f.dims[d].length f.dims[d].name := by simp [dapDim, hd, hname]
      simp only [Ncdds.buildArrayDims, Throwing.eval_bind, eval_inqOrThrow, answer_ncInqDim, hd,
        NcReply.ofOption_some, NcReply.status_ok, NcReply.out_ok, if_true, ok_bind,
        Throwing.eval_ofExcept, nameBuf_old]
      by_cases hfit : Fits f.dims[d].name
      · simp only [hfit, if_true, ok_bind, BaseType.appendDim,
          ih (d₀ + 1) fun x hx => hds x (by simp [hx])]
        simp [hname, hfit, hdap]
      · simp [hname, hfit]

/-- The dimensions are appended in order, with their names and lengths. -/
theorem eval_buildArrayDims_new (ncid : Nat) {ds : List Nat}
    (hds : ∀ d ∈ ds, d < f.dims.length) (n dataset : String) (t : BaseType)
    (dims : List ArrayDim) :
    Throwing.eval f.answer (NewNcdds.buildArrayDims ncid ds (.ncArray n dataset t dims)) =
      .ok (.ncArray n dataset t (dims ++ ds.map (dapDim f))) := by
  induction ds generalizing dims with
  | nil => simp [NewNcdds.buildArrayDims]
  | cons d ds ih =>
      have hlt := hds d (by simp)
      have hd : f.dims[d]? = some f.dims[d] := List.getElem?_eq_getElem hlt
      have hle := f.dimNames_le f.dims[d] (List.getElem_mem hlt)
      have hdap : dapDim f d = .whole f.dims[d].length f.dims[d].name := by
        simp [dapDim, dimName, hd]
      simp only [NewNcdds.buildArrayDims, Throwing.eval_bind, eval_inqOrThrow, answer_ncInqDim,
        hd, NcReply.ofOption_some, NcReply.status_ok, NcReply.out_ok, if_true, ok_bind,
        Throwing.eval_ofExcept, nameBuf_new hle, BaseType.appendDim,
        ih fun x hx => hds x (by simp [hx])]
      simp [hdap]

/-- The new builder reads the dimensions of a Grid once more, and finds them as before. -/
theorem eval_rereadDims (ncid : Nat) {varid : Nat} {ds : List Nat} {ms : List Ncdds.Map}
    (hds : ∀ d ∈ ds, d < f.dims.length) (hms : gridMaps f varid ds = some ms) :
    Throwing.eval f.answer (NewNcdds.rereadDims ncid ds) =
      .ok (ms.map Ncdds.Map.name, ms.map Ncdds.Map.size) := by
  induction ds generalizing ms with
  | nil =>
      obtain rfl : [] = ms := Option.some.inj hms
      rfl
  | cons d ds ih =>
      have hlt := hds d (by simp)
      have hd : f.dims[d]? = some f.dims[d] := List.getElem?_eq_getElem hlt
      simp only [gridMaps] at hms
      split at hms
      · cases hms
      · next m hm =>
          obtain ⟨hmn, hmsz, -⟩ := coordMap_eq_some f hd hm
          obtain ⟨ms', hms', rfl⟩ := Option.map_eq_some_iff.mp hms
          simp only [NewNcdds.rereadDims, Throwing.eval_bind, eval_inq, answer_ncInqDim, hd,
            NcReply.ofOption_some, NcReply.out_ok, ok_bind,
            ih (fun x hx => hds x (by simp [hx])) hms']
          simp [hmn, hmsz]

/-! ## One variable -/

/-- A variable that is a scalar to DAP. -/
def IsScalar (v : Var) : Prop := v.ndims = 0 ∨ (v.ndims = 1 ∧ v.type.isChar)

instance (v : Var) : Decidable (IsScalar v) := inferInstanceAs (Decidable (_ ∨ _))

/-- Every variable has an atomic type that `build_scalar` accepts. -/
def Accepted (cfg : Config) (f : NcFile) : Prop := ∀ v ∈ f.vars, (typeClass cfg v.type).isSome

/-- The dimensions whose names the previous builder reads. -/
def oldReads (f : NcFile) (varid : Nat) (v : Var) : List Nat :=
  if IsScalar v then []
  else gridReads f varid v.dimIds ++
    if (gridMaps f varid v.dimIds).isSome then [] else arrayDims v

/-- Every name that the previous builder reads for this variable fits its buffers. -/
def NamesFit (f : NcFile) (varid : Nat) (v : Var) : Prop :=
  Fits v.name ∧ ∀ d ∈ oldReads f varid v, Fits (dimName f d)

instance (varid : Nat) (v : Var) : Decidable (NamesFit f varid v) :=
  inferInstanceAs (Decidable (_ ∧ _))

section OneVariable

variable (f) (cfg : Config) (filename : String) (varid : Nat) (v : Var) (c : ScalarClass)

def scalarOf : BaseType := .scalar c v.name filename

def arrayOf : BaseType :=
  .ncArray v.name filename (.scalar c v.name filename) ((arrayDims v).map (dapDim f))

/-- The variable as a Grid with these Maps. -/
def gridOf (ms : List Ncdds.Map) : Except NcError BaseType :=
  Prod.fst <$> Ncdds.buildGrid cfg v.name filename (.scalar c v.name filename) v.type ms

/-- What `read_variables` makes of a variable. -/
def oldOutcome : Except NcError BaseType :=
  if ¬ NamesFit f varid v then .error .undefined
  else if IsScalar v then .ok (scalarOf filename v c)
  else match gridMaps f varid v.dimIds with
    | some ms => gridOf cfg filename v c ms
    | none => .ok (arrayOf f filename v c)

/-- What `read_all_variables` makes of a variable. -/
def newOutcome : Except NcError BaseType :=
  match gridMaps f varid v.dimIds with
  | some ms => if cfg.releaseFirst then .error .undefined else gridOf cfg filename v c ms
  | none => if IsScalar v then .ok (scalarOf filename v c) else .ok (arrayOf f filename v c)

variable {f cfg varid v c}

theorem gridMaps_accepted (hacc : Accepted cfg f) {ds : List Nat} {ms : List Ncdds.Map}
    (hds : ∀ d ∈ ds, d < f.dims.length) (hms : gridMaps f varid ds = some ms) :
    ∀ m ∈ ms, (typeClass cfg m.type).isSome := by
  induction ds generalizing ms with
  | nil =>
      obtain rfl : [] = ms := Option.some.inj hms
      simp
  | cons d ds ih =>
      have hlt := hds d (by simp)
      have hd : f.dims[d]? = some f.dims[d] := List.getElem?_eq_getElem hlt
      simp only [gridMaps] at hms
      split at hms
      · cases hms
      · next m hm =>
          obtain ⟨-, -, w, hw, hwt⟩ := coordMap_eq_some f hd hm
          obtain ⟨ms', hms', rfl⟩ := Option.map_eq_some_iff.mp hms
          have hrest := ih (fun x hx => hds x (by simp [hx])) hms'
          exact List.forall_mem_cons.mpr ⟨hwt ▸ hacc w hw, hrest⟩

/-- A Grid is built as such, and by both builders. -/
theorem gridOf_eq {ms : List Ncdds.Map} (hms : ∀ m ∈ ms, (typeClass cfg m.type).isSome) (extra : List String) :
    ∃ ar maps names,
      gridOf cfg filename v c ms = .ok (.ncGrid v.name filename ar maps) ∧
      Ncdds.buildGrid cfg v.name filename (.scalar c v.name filename) v.type ms =
        .ok (.ncGrid v.name filename ar maps, names) ∧
      (cfg.releaseFirst = false →
        NewNcdds.buildGrid cfg (.ncArray v.name filename (.scalar c v.name filename) []) filename
          ms.length v.type (ms.map Ncdds.Map.name ++ extra) (ms.map Ncdds.Map.type)
          (ms.map Ncdds.Map.size) = .ok (.ncGrid v.name filename ar maps)) := by
  obtain ⟨ar, maps, names, hold, hnew⟩ := buildGrid_eq v.name filename c v.type hms extra
  refine ⟨ar, maps, names, ?_, hold, hnew⟩
  rw [gridOf, hold]
  rfl

theorem mem_arrayDims {d : Nat} (hd : d ∈ arrayDims v) : d ∈ v.dimIds := List.mem_of_mem_take hd

/-- The previous builder adds its outcome to the DDS, and the names of some Maps to its list. -/
theorem eval_readVariable (ncid : Nat) (hshow : cfg.showSharedDims = true)
    (hacc : Accepted cfg f) (hv : f.vars[varid]? = some v) (hc : typeClass cfg v.type = some c) :
    ∃ names, ∀ col, Throwing.eval f.answer (Ncdds.readVariable cfg filename ncid varid col) =
      (fun b => { col with dds := col.dds ++ [b], allMaps := col.allMaps ++ names }) <$>
        oldOutcome f cfg filename varid v c := by
  have hdims := f.dimIds_lt v (List.mem_of_getElem? hv)
  by_cases hname : Fits v.name
  case neg =>
    -- the name of the variable is read before all else
    refine ⟨[], fun col => ?_⟩
    rw [oldOutcome, if_pos fun h => hname h.1]
    simp [Ncdds.readVariable, eval_inqOrThrow_ok _ (answer_ncInqVar f hv), nameBuf_old, hname]
  by_cases hscalar : IsScalar v
  case pos =>
    have hfit : NamesFit f varid v := ⟨hname, by simp [oldReads, hscalar]⟩
    refine ⟨[], fun col => ?_⟩
    have hscalar' : v.ndims = 0 ∨ (v.ndims = 1 ∧ v.type.isChar) := hscalar
    simp [Ncdds.readVariable, eval_inqOrThrow_ok _ (answer_ncInqVar f hv), nameBuf_old, hname,
      oldOutcome, hfit, hscalar, hscalar', not_userDefined_of_typeClass hc,
      buildScalar_old hc, Ncdds.addVar, scalarOf]
  have hscalar' : ¬ (v.ndims = 0 ∨ (v.ndims = 1 ∧ v.type.isChar)) := hscalar
  -- `is_grid` reads the names of the dimensions up to the first without a Map
  by_cases hreads : ∀ d ∈ gridReads f varid v.dimIds, Fits (dimName f d)
  case neg =>
    have hfit : ¬ NamesFit f varid v := fun h =>
      hreads fun d hd => h.2 d (by rw [oldReads, if_neg hscalar]; exact List.mem_append_left _ hd)
    refine ⟨[], fun col => ?_⟩
    simp [Ncdds.readVariable, eval_inqOrThrow_ok _ (answer_ncInqVar f hv), nameBuf_old, hname,
      oldOutcome, hfit, hscalar', not_userDefined_of_typeClass hc, eval_isGrid_old ncid 0 hdims,
      hreads]
  have hisGrid : Throwing.eval f.answer (Ncdds.isGrid ncid varid 0 v.dimIds) =
      .ok (gridMaps f varid v.dimIds) := by
    rw [eval_isGrid_old ncid 0 hdims, if_pos hreads]
  obtain hgrid | ⟨ms, hgrid⟩ := Option.eq_none_or_eq_some (gridMaps f varid v.dimIds)
  · have harr : Throwing.eval f.answer (Ncdds.readArray cfg filename ncid varid v.name v) =
        if ∀ d ∈ arrayDims v, Fits (dimName f d) then .ok (arrayOf f filename v c)
        else .error .undefined := by
      simp only [Ncdds.readArray, Throwing.eval_bind, Throwing.eval_ofExcept, buildScalar_old hc,
        ok_bind, deref_some, Ncdds.buildArray, BaseType.newNCArray_scalar, BaseType.name_scalar,
        eval_buildArrayDims_old ncid varid 0 (fun d hd => hdims d (List.mem_of_mem_take hd)),
        arrayOf, List.nil_append]
      rfl
    have hfit : NamesFit f varid v ↔ ∀ d ∈ arrayDims v, Fits (dimName f d) := by
      simp only [NamesFit, oldReads, hname, hscalar, hgrid, true_and, if_false,
        Option.isSome_none, Bool.false_eq_true, List.mem_append, or_imp, forall_and]
      exact and_iff_right hreads
    refine ⟨[], fun col => ?_⟩
    simp only [Ncdds.readVariable, Throwing.eval_bind, Throwing.eval_ofExcept,
      eval_inqOrThrow_ok _ (answer_ncInqVar f hv), ok_bind, nameBuf_old, hname, if_true,
      not_userDefined_of_typeClass hc, Bool.false_eq_true, if_false, hscalar', hisGrid, hgrid,
      hshow, harr, oldOutcome, hfit]
    split <;> simp_all [Ncdds.addVar]
  · have hfit : NamesFit f varid v := by
      refine ⟨hname, ?_⟩
      simpa [oldReads, hscalar, hgrid] using hreads
    obtain ⟨ar, maps, names, hgr, hold, -⟩ :=
      gridOf_eq filename (v := v) (c := c) (gridMaps_accepted hacc hdims hgrid) []
    refine ⟨names, fun col => ?_⟩
    simp [Ncdds.readVariable, eval_inqOrThrow_ok _ (answer_ncInqVar f hv), nameBuf_old, hname,
      oldOutcome, hfit, hscalar, hscalar', not_userDefined_of_typeClass hc, hisGrid, hgrid,
      buildScalar_old hc, hold, hgr, Ncdds.addVar]

theorem gridMaps_length {ds : List Nat} {ms : List Ncdds.Map}
    (hms : gridMaps f varid ds = some ms) : ms.length = ds.length := by
  induction ds generalizing ms with
  | nil =>
      obtain rfl : [] = ms := Option.some.inj hms
      rfl
  | cons d ds ih =>
      simp only [gridMaps] at hms
      split at hms
      · cases hms
      · obtain ⟨ms', hms', rfl⟩ := Option.map_eq_some_iff.mp hms
        simp [ih hms']

/-- The new builder returns its outcome. -/
theorem eval_readOneVariable (ncid : Nat) (hacc : Accepted cfg f)
    (hv : f.vars[varid]? = some v) (hc : typeClass cfg v.type = some c) :
    Throwing.eval f.answer (NewNcdds.readOneVariable cfg filename ncid varid v) =
      some <$> newOutcome f cfg filename varid v c := by
  have hmem := List.mem_of_getElem? hv
  have hdims := f.dimIds_lt v hmem
  simp only [NewNcdds.readOneVariable, Throwing.eval_bind, Throwing.eval_ofExcept,
    nameBuf_new (f.varNames_le v hmem), ok_bind, eval_isGrid_new ncid hdims, newOutcome]
  obtain hgrid | ⟨ms, hgrid⟩ := Option.eq_none_or_eq_some (gridMaps f varid v.dimIds)
  · have harr : Throwing.eval f.answer (NewNcdds.buildArray (.scalar c v.name filename) filename
        ncid v.type v.dimIds) = .ok (arrayOf f filename v c) := by
      simp only [NewNcdds.buildArray, BaseType.newNCArray_scalar, BaseType.name_scalar,
        eval_buildArrayDims_new ncid (fun d hd => hdims d (List.mem_of_mem_take hd)),
        List.nil_append]
      rfl
    by_cases hscalar : IsScalar v
    · have hscalar' : v.ndims = 0 ∨ (v.ndims = 1 ∧ v.type.isChar) := hscalar
      simp [hgrid, not_userDefined_of_typeClass hc, hscalar, hscalar', buildScalar_new hc,
        scalarOf]
    · have hscalar' : ¬ (v.ndims = 0 ∨ (v.ndims = 1 ∧ v.type.isChar)) := hscalar
      simp [hgrid, not_userDefined_of_typeClass hc, hscalar, hscalar', buildScalar_new hc, harr]
  · obtain ⟨ar, maps, names, hgr, -, hnew⟩ := gridOf_eq filename (v := v) (c := c)
      (gridMaps_accepted hacc hdims hgrid) (ms.map Ncdds.Map.name)
    rw [gridMaps_length hgrid] at hnew
    simp only [hgrid, Option.map_some, Throwing.eval_bind, eval_rereadDims ncid hdims hgrid,
      ok_bind, Throwing.eval_ofExcept, buildScalar_new hc, hgr]
    cases horder : cfg.releaseFirst with
    | true =>
        rw [NewNcdds.makeNCArray, horder]
        rfl
    | false =>
        rw [makeNCArray_scalar horder, ok_bind, show v.ndims = v.dimIds.length from rfl, hnew horder]
        rfl

end OneVariable

/-! ## All variables -/

/-- The outcome `o` for the variable at `varid`. -/
def outcomeAt (f : NcFile) (cfg : Config)
    (o : Nat → Var → ScalarClass → Except NcError BaseType) (varid : Nat) :
    Except NcError BaseType :=
  match f.vars[varid]? with
  | none => .error .undefined
  | some v =>
    match typeClass cfg v.type with
    | none => .error .undefined
    | some c => o varid v c

theorem outcomeAt_eq {cfg : Config} {o : Nat → Var → ScalarClass → Except NcError BaseType}
    {varid : Nat} {v : Var} {c : ScalarClass} (hv : f.vars[varid]? = some v)
    (hc : typeClass cfg v.type = some c) : outcomeAt f cfg o varid = o varid v c := by
  simp [outcomeAt, hv, hc]

/-- An accepted variable, with its class. -/
theorem Accepted.get {cfg : Config} (hacc : Accepted cfg f) {varid : Nat}
    (h : varid < f.vars.length) :
    ∃ v c, f.vars[varid]? = some v ∧ typeClass cfg v.type = some c := by
  obtain ⟨c, hc⟩ := Option.isSome_iff_exists.mp (hacc _ (List.getElem_mem h))
  exact ⟨_, c, List.getElem?_eq_getElem h, hc⟩

section AllVariables

variable {cfg : Config} (filename : String) (ncid : Nat) (hacc : Accepted cfg f)
include hacc

/-- The first loop collects what each variable comes to. -/
theorem eval_readVariableLoop (hshow : cfg.showSharedDims = true) {varids : List Nat}
    (hvarids : ∀ i ∈ varids, i < f.vars.length) (col : Ncdds.Collected) :
    Ncdds.Collected.dds <$>
        Throwing.eval f.answer (Ncdds.readVariableLoop cfg filename ncid varids col) =
      (col.dds ++ ·) <$> varids.mapM (outcomeAt f cfg (oldOutcome f cfg filename)) := by
  induction varids generalizing col with
  | nil => simp [Ncdds.readVariableLoop]
  | cons varid varids ih =>
      obtain ⟨v, c, hv, hc⟩ := hacc.get (hvarids varid (by simp))
      obtain ⟨names, hread⟩ := eval_readVariable filename ncid hshow hacc hv hc
      rw [Ncdds.readVariableLoop, Throwing.eval_bind, hread col, List.mapM_cons,
        outcomeAt_eq hv hc]
      cases oldOutcome f cfg filename varid v c with
      | error e => rfl
      | ok b =>
          rw [ok_map, ok_bind, ok_bind, ih fun x hx => hvarids x (by simp [hx])]
          cases varids.mapM (outcomeAt f cfg (oldOutcome f cfg filename)) <;> simp

/-- The loop collects what each variable comes to. -/
theorem eval_readAllVariablesLoop {varids : List Nat}
    (hvarids : ∀ i ∈ varids, i < f.vars.length) (dds : List BaseType) :
    Throwing.eval f.answer (NewNcdds.readAllVariablesLoop cfg filename ncid varids dds) =
      (dds ++ ·) <$> varids.mapM (outcomeAt f cfg (newOutcome f cfg filename)) := by
  induction varids generalizing dds with
  | nil => simp [NewNcdds.readAllVariablesLoop]
  | cons varid varids ih =>
      obtain ⟨v, c, hv, hc⟩ := hacc.get (hvarids varid (by simp))
      simp only [NewNcdds.readAllVariablesLoop, Throwing.eval_bind, eval_inq,
        answer_ncInqVar f hv, ok_bind, NcReply.status_ok, NcReply.out_ok, ne_eq, not_true_eq_false,
        if_false, eval_readOneVariable filename ncid hacc hv hc, Throwing.eval_ofExcept,
        List.mapM_cons, outcomeAt_eq hv hc]
      cases newOutcome f cfg filename varid v c with
      | error e => rfl
      | ok b =>
          rw [ok_map, ok_bind, ok_bind, NewNcdds.addVarNocopy, ok_bind,
            ih fun x hx => hvarids x (by simp [hx])]
          cases varids.mapM (outcomeAt f cfg (newOutcome f cfg filename)) <;> simp

theorem eval_readVariables (hshow : cfg.showSharedDims = true) :
    Throwing.eval f.answer (Ncdds.readVariables cfg filename ncid f.vars.length) =
      (List.range f.vars.length).mapM (outcomeAt f cfg (oldOutcome f cfg filename)) := by
  have hrange : ∀ i ∈ List.range f.vars.length, i < f.vars.length :=
    fun i hi => List.mem_range.mp hi
  have hloop := eval_readVariableLoop filename ncid hacc hshow hrange ⟨[], [], []⟩
  simp only [List.nil_append, id_map'] at hloop
  rw [← hloop, Ncdds.readVariables, Throwing.eval_bind]
  cases Throwing.eval f.answer (Ncdds.readVariableLoop cfg filename ncid
    (List.range f.vars.length) ⟨[], [], []⟩) <;> simp [hshow]

theorem eval_readAllVariables :
    Throwing.eval f.answer (NewNcdds.readAllVariables cfg filename ncid f.vars.length) =
      (List.range f.vars.length).mapM (outcomeAt f cfg (newOutcome f cfg filename)) := by
  rw [NewNcdds.readAllVariables, eval_readAllVariablesLoop filename ncid hacc
    fun i hi => List.mem_range.mp hi]
  simp

end AllVariables

/-- `mapM` succeeds with the outcomes of the elements. -/
theorem mapM_eq_ok_iff {α β ε : Type} {g : α → Except ε β} {l : List α} {bs : List β} :
    l.mapM g = .ok bs ↔ List.Forall₂ (fun a b => g a = .ok b) l bs := by
  induction l generalizing bs with
  | nil => simp [eq_comm]
  | cons a l ih =>
      rw [List.mapM_cons, List.forall₂_cons_left_iff]
      constructor
      · intro h
        cases hga : g a with
        | error e => simp [hga] at h
        | ok b =>
            cases hl : l.mapM g with
            | error e => simp [hga, hl] at h
            | ok bs' =>
                refine ⟨b, bs', rfl, ih.mp hl, ?_⟩
                simpa [hga, hl, eq_comm] using h
      · rintro ⟨b, bs', hb, hbs', rfl⟩
        simp [hb, ih.mpr hbs']

/-- Two `mapM`s over the same list succeed alike exactly if the elements do. -/
theorem mapM_agree_iff {α β ε : Type} {g h : α → Except ε β} {l : List α} :
    (∃ bs, l.mapM g = .ok bs ∧ l.mapM h = .ok bs) ↔
      ∀ a ∈ l, ∃ b, g a = .ok b ∧ h a = .ok b := by
  simp only [mapM_eq_ok_iff]
  constructor
  · rintro ⟨bs, hg, hh⟩
    induction hg with
    | nil => simp
    | cons hb _ ih =>
        cases hh with
        | cons hb' hh => exact List.forall_mem_cons.mpr ⟨⟨_, hb, hb'⟩, ih hh⟩
  · intro hall
    induction l with
    | nil => exact ⟨[], .nil, .nil⟩
    | cons a l ih =>
        obtain ⟨⟨b, hb, hb'⟩, hrest⟩ := List.forall_mem_cons.mp hall
        obtain ⟨bs, hg, hh⟩ := ih hrest
        exact ⟨b :: bs, .cons hb hg, .cons hb' hh⟩

/-! ## When the builders agree -/

/-- Dimension `d` has a coordinate variable other than variable `varid`. -/
def HasCoordinateVariable (f : NcFile) (varid d : Nat) : Prop :=
  ∃ i w, f.vars[i]? = some w ∧ i ≠ varid ∧ w.name = dimName f d

theorem coordMap_isSome_iff {varid d : Nat} (hd : d < f.dims.length) :
    (coordMap f varid d).isSome ↔ HasCoordinateVariable f varid d := by
  have hd' : f.dims[d]? = some f.dims[d] := List.getElem?_eq_getElem hd
  have hname : dimName f d = f.dims[d].name := by simp [dimName, hd']
  simp only [coordMap, hd', HasCoordinateVariable, hname]
  constructor
  · intro h
    split at h
    · cases h
    · next i hi =>
        obtain ⟨hlt, heq, -⟩ := List.findIdx?_eq_some_iff_getElem.mp hi
        split at h
        · cases h
        · next hself =>
            exact ⟨i, _, List.getElem?_eq_getElem hlt, hself, by simpa using heq⟩
  · rintro ⟨i, w, hw, hself, hname⟩
    have hi := findIdx?_name f.varNames_nodup hw
    rw [hname] at hi
    simp [hi, hself, hw]

theorem gridMaps_isSome_iff {varid : Nat} {ds : List Nat} (hds : ∀ d ∈ ds, d < f.dims.length) :
    (gridMaps f varid ds).isSome ↔ ∀ d ∈ ds, HasCoordinateVariable f varid d := by
  induction ds with
  | nil => simp [gridMaps]
  | cons d ds ih =>
      have hd : (coordMap f varid d).isSome ↔ HasCoordinateVariable f varid d :=
        coordMap_isSome_iff (hds d (by simp))
      have ih' := ih fun x hx => hds x (by simp [hx])
      rw [List.forall_mem_cons, ← hd, ← ih', gridMaps]
      cases coordMap f varid d <;> simp

/-- The new builder makes a Grid of it only where the name is read before the pointer is released. -/
def Buildable (f : NcFile) (cfg : Config) (varid : Nat) (v : Var) : Prop :=
  cfg.releaseFirst = true → ∃ d ∈ v.dimIds, ¬ HasCoordinateVariable f varid d

/-- The condition under which both builders add the same for a variable: the names that the previous
one reads fit its buffers, a scalar has a dimension that lacks a coordinate variable, and so has every
variable if the compiler releases first. -/
def SameVariable (f : NcFile) (cfg : Config) (varid : Nat) (v : Var) : Prop :=
  NamesFit f varid v ∧ (IsScalar v → ∃ d ∈ v.dimIds, ¬ HasCoordinateVariable f varid d) ∧
    Buildable f cfg varid v

/-- The outcomes are equal exactly under `SameVariable`. -/
theorem outcomes_agree_iff {cfg : Config} (hacc : Accepted cfg f) (filename : String)
    {varid : Nat} {v : Var} (c : ScalarClass) (hv : f.vars[varid]? = some v) :
    (∃ b, oldOutcome f cfg filename varid v c = .ok b ∧
      newOutcome f cfg filename varid v c = .ok b) ↔ SameVariable f cfg varid v := by
  have hdims := f.dimIds_lt v (List.mem_of_getElem? hv)
  have hgrid : (gridMaps f varid v.dimIds).isSome ↔
      ∀ d ∈ v.dimIds, HasCoordinateVariable f varid d := gridMaps_isSome_iff hdims
  have hnot : (∃ d ∈ v.dimIds, ¬ HasCoordinateVariable f varid d) ↔
      ¬ (gridMaps f varid v.dimIds).isSome := by
    rw [hgrid]
    simp only [not_forall, exists_prop]
  rw [SameVariable, Buildable, hnot]
  by_cases hfit : NamesFit f varid v
  case neg => simp [oldOutcome, hfit]
  by_cases hscalar : IsScalar v
  · obtain hm | ⟨ms, hm⟩ := Option.eq_none_or_eq_some (gridMaps f varid v.dimIds)
    · simp [oldOutcome, newOutcome, hfit, hscalar, hm]
    · obtain ⟨ar, maps, -, hgr, -⟩ := gridOf_eq filename (v := v) (c := c)
        (gridMaps_accepted hacc hdims hm) []
      cases horder : cfg.releaseFirst <;>
        simp [oldOutcome, newOutcome, hfit, hscalar, hm, hgr, horder, scalarOf]
  · obtain hm | ⟨ms, hm⟩ := Option.eq_none_or_eq_some (gridMaps f varid v.dimIds)
    · simp [oldOutcome, newOutcome, hfit, hscalar, hm]
    · obtain ⟨ar, maps, -, hgr, -⟩ := gridOf_eq filename (v := v) (c := c)
        (gridMaps_accepted hacc hdims hm) []
      cases horder : cfg.releaseFirst <;>
        simp [oldOutcome, newOutcome, hfit, hscalar, hm, hgr, horder]

theorem oldOutcome_scalar {cfg : Config} {filename : String} {varid : Nat} {v : Var}
    {c : ScalarClass} {b : BaseType} (hb : oldOutcome f cfg filename varid v c = .ok b)
    (hscalar : IsScalar v) : b = .scalar c v.name filename := by
  by_cases hfit : NamesFit f varid v
  · simp only [oldOutcome, hfit, hscalar, not_true_eq_false, if_false, if_true] at hb
    exact (Except.ok.inj hb).symm
  · simp [oldOutcome, hfit] at hb

/-- Both builders succeed with the same DDS, in which every scalar is one. -/
def SameDds (f : NcFile) (cfg : Config) (filename : String) (ncid : Nat) : Prop :=
  ∃ dds : List BaseType,
    Throwing.eval f.answer (Ncdds.readVariables cfg filename ncid f.vars.length) = .ok dds ∧
    Throwing.eval f.answer (NewNcdds.readAllVariables cfg filename ncid f.vars.length) = .ok dds ∧
    ∀ (varid : Nat) (v : Var), f.vars[varid]? = some v → IsScalar v →
      ∃ c, dds[varid]? = some (BaseType.scalar c v.name filename)

/-- For variables of accepted atomic types, `read_all_variables` builds the DDS of `read_variables`
exactly if every variable meets `SameVariable`. -/
theorem sameDds_iff (f : NcFile) (cfg : Config) (filename : String) (ncid : Nat)
    (hshow : cfg.showSharedDims = true) (hacc : Accepted cfg f) :
    SameDds f cfg filename ncid ↔
      ∀ varid v, f.vars[varid]? = some v → SameVariable f cfg varid v := by
  have hpoint : (∃ dds,
      (List.range f.vars.length).mapM (outcomeAt f cfg (oldOutcome f cfg filename)) = .ok dds ∧
      (List.range f.vars.length).mapM (outcomeAt f cfg (newOutcome f cfg filename)) = .ok dds) ↔
      ∀ varid v, f.vars[varid]? = some v → SameVariable f cfg varid v := by
    -- both loops go over the variables in order, so it is a question of each of them
    rw [mapM_agree_iff]
    constructor
    · intro h varid v hv
      have hlt := (List.getElem?_eq_some_iff.mp hv).1
      obtain ⟨v', c, hv', hc⟩ := hacc.get hlt
      obtain rfl : v = v' := Option.some.inj (hv.symm.trans hv')
      have hb := h varid (List.mem_range.mpr hlt)
      rw [outcomeAt_eq hv hc, outcomeAt_eq hv hc] at hb
      exact (outcomes_agree_iff hacc filename c hv).mp hb
    · intro h varid hvarid
      obtain ⟨v, c, hv, hc⟩ := hacc.get (List.mem_range.mp hvarid)
      rw [outcomeAt_eq hv hc, outcomeAt_eq hv hc]
      exact (outcomes_agree_iff hacc filename c hv).mpr (h varid v hv)
  rw [SameDds, ← hpoint, eval_readVariables filename ncid hacc hshow,
    eval_readAllVariables filename ncid hacc]
  constructor
  · rintro ⟨dds, hold, hnew, -⟩
    exact ⟨dds, hold, hnew⟩
  · rintro ⟨dds, hold, hnew⟩
    refine ⟨dds, hold, hnew, fun varid v hv hscalar => ?_⟩
    have hall := List.forall₂_iff_get.mp (mapM_eq_ok_iff.mp hold)
    have hlt := (List.getElem?_eq_some_iff.mp hv).1
    obtain ⟨v', c, hv', hc⟩ := hacc.get hlt
    obtain rfl : v = v' := Option.some.inj (hv.symm.trans hv')
    have hlen : varid < dds.length := by
      rw [← hall.1, List.length_range]
      exact hlt
    have hb := hall.2 varid (by simpa using hlt) hlen
    simp only [List.get_eq_getElem, List.getElem_range, outcomeAt_eq hv hc] at hb
    exact ⟨c, by rw [List.getElem?_eq_getElem hlen, oldOutcome_scalar hb hscalar]⟩

/-- A dataset with one variable of type `NC_INT`, of rank 1, along a dimension without a coordinate
variable. -/
def arrayFile : NcFile where
  dims := [⟨"n", 3⟩]
  vars := [⟨"x", .atomic .int, [0], []⟩]
  globalAtts := []
  unlimdim := none
  dimIds_lt := List.forall_mem_singleton.mpr (List.forall_mem_singleton.mpr (by decide))
  dimNames_nodup := List.nodup_singleton _
  varNames_nodup := List.nodup_singleton _
  dimNames_le := List.forall_mem_singleton.mpr (by decide)
  varNames_le := List.forall_mem_singleton.mpr (by decide)

theorem arrayFile_sameDds : SameDds arrayFile { showSharedDims := true } "f.nc" 0 := by
  refine (sameDds_iff arrayFile { showSharedDims := true } "f.nc" 0 rfl ?_).mpr fun varid v hv => ?_
  · simp [Accepted, arrayFile, typeClass, scalarClass]
  · have hlt := (List.getElem?_eq_some_iff.mp hv).1
    obtain rfl : varid = 0 := Nat.lt_one_iff.mp hlt
    obtain rfl : ⟨"x", .atomic .int, [0], []⟩ = v := Option.some.inj hv
    refine ⟨by decide, fun hscalar => absurd hscalar (by decide), fun horder => absurd horder (by decide)⟩

/-- A dataset with one variable of type `NC_INT`, of rank 0. -/
def scalarFile : NcFile := NcFile.ofScalar (.atomic .int)

/-- The previous builder makes a scalar of its variable, the new one a Grid without Maps. -/
theorem scalarFile_not_sameDds :
    Accepted { showSharedDims := true } scalarFile ∧
    Throwing.eval scalarFile.answer
      (Ncdds.readVariables { showSharedDims := true } "f.nc" 0 scalarFile.vars.length) =
        .ok [.scalar .ncInt32 "x" "f.nc"] ∧
    Throwing.eval scalarFile.answer
      (NewNcdds.readAllVariables { showSharedDims := true } "f.nc" 0 scalarFile.vars.length) =
        .ok [.ncGrid "x" "f.nc" (.ncArray "x" "f.nc" (.scalar .ncInt32 "x" "f.nc") []) []] ∧
    ¬ SameDds scalarFile { showSharedDims := true } "f.nc" 0 := by
  have hold : Throwing.eval scalarFile.answer
      (Ncdds.readVariables { showSharedDims := true } "f.nc" 0 scalarFile.vars.length) =
        .ok [.scalar .ncInt32 "x" "f.nc"] := by
    rfl
  have hnew : Throwing.eval scalarFile.answer
      (NewNcdds.readAllVariables { showSharedDims := true } "f.nc" 0 scalarFile.vars.length) =
        .ok [.ncGrid "x" "f.nc" (.ncArray "x" "f.nc" (.scalar .ncInt32 "x" "f.nc") []) []] := by
    rfl
  refine ⟨by simp [Accepted, scalarFile, NcFile.ofScalar, typeClass, scalarClass], hold, hnew, ?_⟩
  rintro ⟨dds, h₁, h₂, -⟩
  rw [hold] at h₁
  rw [hnew, ← h₁] at h₂
  cases h₂

end Skunk.NetCDF
