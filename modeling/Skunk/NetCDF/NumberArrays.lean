import Skunk.Container.Places
import Skunk.NetCDF.ArrayRoom

/-!
# Arrays of numbers

`NCArray::read` of a variable of numbers gives the values that the constraint selects, in row-major order
(`read_numbers`). So a constraint that the server applies selects what a client would select from the whole
array (`read_selects`).
-/

namespace Skunk.NetCDF

open Skunk.Container Skunk.Effect

/-! ## Numbers -/

/-- The types of numbers that are read. -/
def AtomicType.IsNumber (t : AtomicType) : Prop := t ≠ .char ∧ t ≠ .string ∧ t ≠ .int64 ∧ t ≠ .uint64

instance (t : AtomicType) : Decidable t.IsNumber := inferInstanceAs (Decidable (_ ∧ _))

/-- A signed byte as a short. -/
def signExtended (b : UInt8) : List UInt8 := [b, if b < 128 then 0 else 255]

/-- The bytes of a value, as they are stored. -/
def Config.stored (cfg : Config) (t : AtomicType) (bytes : List UInt8) : List UInt8 :=
  if t = .byte ∧ cfg.promoteByteToShort then bytes.flatMap signExtended else bytes

/-- The values that `val2buf` gets for an Array of `count` numbers of `width` bytes each. -/
def Fill.numbers (d : NcData) (width count : Nat) (fill : Fill) : List (List UInt8) :=
  match fill.stored with
  | .raw offset => (List.range count).map fun i => (d.bytes.drop (offset.toNat + i * width)).take width
  | .shorts offset nels => (List.range nels.toNat).map fun i =>
    ((d.bytes.drop (offset.toNat + i)).take 1).flatMap signExtended
  | _ => []

/-- The template of an array of promoted bytes is for shorts. -/
def Config.Template (cfg : Config) (t : AtomicType) (var : BaseType) : Prop :=
  t = .byte → cfg.promoteByteToShort = true → ∃ name dataset, var = .scalar .ncInt16 name dataset

/-- A variable of numbers, and what an Array for it is made with. -/
structure NumberArray where
  varid : Nat
  v : Var
  t : AtomicType
  var : BaseType
  dims : List ArrayDim

namespace NumberArray

variable (a : NumberArray)

/-- The tuples that the constraint selects, in their order. -/
def tuples : List (List Int) := rowMajor (a.dims.map ArrayDim.indices)

def numbers (values : Values) : List (List UInt8) :=
  match values with
  | (some d, [fill]) => fill.numbers d (NcFile.sizeofAtomic a.t) (countAll a.dims)
  | _ => []

/-- The variable is in the file, is one of numbers or an enum, and is constrained to few enough values. -/
structure Readable (f : NcFile) (cfg : Config) (cell : Nat → List Int → List UInt8) : Prop where
  found : f.vars[a.varid]? = some a.v
  read : a.v.readAs = .atomic a.t
  number : a.t.IsNumber
  rank : a.v.ndims ≤ maxNcDims
  dims : Constrains f a.v a.dims
  ints (d : ArrayDim) : d ∈ a.dims → d.IsInt
  count : countAll a.dims < 2 ^ 31
  cells (s : List Int) : s ∈ a.tuples → (cell a.varid s).length = NcFile.sizeofAtomic a.t
  template : cfg.Template a.t a.var

end NumberArray

section

variable {f : NcFile} {cell : Nat → List Int → List UInt8} {varid ncid : Nat} {v : Var}
  {dims : List ArrayDim} {t : AtomicType} {lib : (c : NcAccess) → NcReply c.Out}

/-- An array has the dimensions of its variable. -/
theorem arrayDims_number (hread : v.readAs = .atomic t) (hnumber : t.IsNumber) : arrayDims v = v.dimIds := by
  have hchar : v.type.isChar = false := by
    cases htype : v.type with
    | atomic t' =>
        have ht : t' = t := by
          rw [Var.readAs, htype] at hread
          exact NcType.atomic.inj hread
        subst ht
        cases t' with
        | char => exact absurd rfl hnumber.1
        | _ => rfl
    | _ => rfl
  simp [arrayDims, hchar]

def selectedCells (cell : List Int → List UInt8) (dims : List ArrayDim) : List UInt8 :=
  (rowMajor (dims.map ArrayDim.indices)).flatMap cell

/-- The library reads what the constraint selects. -/
theorem eval_getSlab_cells (h : Delivers f cell lib) (hv : f.vars[varid]? = some v) (hmem : v.LeavesBytes .native)
    (hdims : List.Forall₂ (fun d id => d.size = (dapDim f id).size ∧ d.Admitted) dims v.dimIds) {room : Nat}
    (hroom : (selectedCells (cell varid) dims).length ≤ room) (ncid : Nat) (e : Int → NcError) :
    Throwing.eval lib (getSlab ncid varid (slabOf maxNcDims dims) .native room e) =
      .ok ⟨selectedCells (cell varid) dims, []⟩ := by
  have hstep : (if (slabOf maxNcDims dims).hasStride then (slabOf maxNcDims dims).step
      else List.replicate (slabOf maxNcDims dims).edg.length 1) = dims.map ArrayDim.stride := by
    unfold slabOf
    dsimp only
    cases hstride : dims.any fun d => d.stride ≠ 1 with
    | true => rfl
    | false =>
        rw [strides_eq_replicate hstride]
        simp
  have hslab : hyperslab (slabOf maxNcDims dims).cor (slabOf maxNcDims dims).edg (dims.map ArrayDim.stride) =
      rowMajor (dims.map ArrayDim.indices) := congrArg rowMajor (axes_map dims)
  have hroom' : ((hyperslab (slabOf maxNcDims dims).cor (slabOf maxNcDims dims).edg
      (dims.map ArrayDim.stride)).flatMap (cell varid)).length ≤ room := by
    rw [hslab]
    exact hroom
  rw [h.eval_getSlab hv hmem hstep (slabWithin_of_forall₂ hdims) hroom' ncid e, hslab]
  rfl

/-- What is made of the buffer. -/
def Config.numberFill (cfg : Config) (t : AtomicType) (nels : Int) : Fill :=
  ⟨[], if t = .byte ∧ cfg.promoteByteToShort then .shorts 0 nels else .raw 0⟩

/-- `do_cardinal_array_read` of numbers that are not in the buffer yet. -/
theorem eval_doCardinalArrayRead_number {cfg : Config} {var : BaseType} (hlib : Reports f lib)
    (hdelivers : Delivers f cell lib) (hv : f.vars[varid]? = some v) (hreadAs : v.readAs = .atomic t)
    (hnumber : t.IsNumber)
    (hdims : List.Forall₂ (fun d id => d.size = (dapDim f id).size ∧ d.Admitted) dims v.dimIds)
    (hlength : (selectedCells (cell varid) dims).length = countAll dims * NcFile.sizeofAtomic t)
    (hsmall : countAll dims < 2 ^ 31) (hvar : cfg.Template t var) (name : String) :
    Throwing.eval lib (NCArray.doCardinalArrayRead cfg name var ncid varid (.atomic t)
      none 0 (countAll dims) (slabOf maxNcDims dims)) =
      .ok (some ⟨selectedCells (cell varid) dims, []⟩, [cfg.numberFill t (countAll dims)]) := by
  have hsize : f.answer (.ncInqType ncid (.atomic t)) = .ok (NcFile.sizeofAtomic t) := rfl
  have hbound : NcFile.sizeofAtomic t ≤ 8 := by cases t <;> decide
  have hroom : (selectedCells (cell varid) dims).length ≤
      toSizeT (countAll dims * NcFile.sizeofAtomic t) := by
    have hmul : countAll dims * NcFile.sizeofAtomic t < 2 ^ 31 * 9 := by
      apply Nat.mul_lt_mul'' hsmall
      omega
    rw [hlength, toSizeT]
    omega
  have hread := eval_getSlab_cells hdelivers hv ⟨t, hreadAs, hnumber.2.1⟩ hdims hroom ncid
  rw [NCArray.doCardinalArrayRead, Throwing.eval_bind, hlib.eval _ hsize, ok_bind]
  cases t with
  | char => exact absurd rfl hnumber.1
  | string => exact absurd rfl hnumber.2.1
  | int64 => exact absurd rfl hnumber.2.2.1
  | uint64 => exact absurd rfl hnumber.2.2.2
  | byte =>
      dsimp only
      rw [unlessThere, Throwing.eval_bind, hread, ok_bind]
      cases hpromote : cfg.promoteByteToShort with
      | false => simp [Config.numberFill, hpromote]
      | true =>
          obtain ⟨n, ds, rfl⟩ := hvar rfl hpromote
          simp [Config.numberFill, hpromote]
  | _ =>
      dsimp only
      rw [unlessThere, Throwing.eval_bind, hread, ok_bind]
      simp [Config.numberFill]

/-- `do_array_read`; an enum is read as its base type. -/
theorem eval_doArrayRead_number {cfg : Config} {lookup : BaseType → String → Option BaseType}
    {var : BaseType} (hlib : Reports f lib) (hread : v.readAs = .atomic t) (name : String) (nels : Int)
    (slab : Slab) :
    Throwing.eval lib
        (NCArray.doArrayRead cfg lookup name var ncid varid v.type none 0 nels slab) =
      Throwing.eval lib
        (NCArray.doCardinalArrayRead cfg name var ncid varid (.atomic t) none 0 nels slab) := by
  cases htype : v.type with
  | atomic t' =>
      have ht : t' = t := by
        rw [Var.readAs, htype] at hread
        exact NcType.atomic.inj hread
      rw [ht]
      rfl
  | enum id typeName base members =>
      have ht : base = t := by
        rw [Var.readAs, htype] at hread
        exact NcType.atomic.inj hread
      have hquery : f.answer (.ncInqUserType ncid (.enum id typeName base members)) = .ok () := rfl
      have henum : f.answer (.ncInqEnum ncid (.enum id typeName base members)) = .ok () := rfl
      rw [NCArray.doArrayRead, Throwing.eval_bind, hlib.eval _ hquery, ok_bind,
        Throwing.eval_bind, hlib.eval _ henum, ok_bind, ht]
  | compound | vlen | opaqueBytes => simp [Var.readAs, htype] at hread

end

/-! ## Values in their order -/

section

variable {f : NcFile} {cell : Nat → List Int → List UInt8} {varid : Nat} {v : Var}
  {dims : List ArrayDim} {t : AtomicType} {cfg : Config} {lib : (c : NcAccess) → NcReply c.Out}

theorem length_selectedCells {width : Nat}
    (hcell : ∀ s ∈ rowMajor (dims.map ArrayDim.indices), (cell varid s).length = width) :
    (selectedCells (cell varid) dims).length = countAll dims * width := by
  rw [selectedCells, List.length_flatMap, List.map_congr_left hcell, List.map_const', List.sum_replicate,
    smul_eq_mul, length_rowMajor_indices]

/-- The values are taken from the buffer one after the other. -/
theorem numbers_numberFill
    (hcell : ∀ s ∈ rowMajor (dims.map ArrayDim.indices), (cell varid s).length = NcFile.sizeofAtomic t) :
    (cfg.numberFill t (countAll dims)).numbers ⟨selectedCells (cell varid) dims, []⟩ (NcFile.sizeofAtomic t)
      (countAll dims) =
      (rowMajor (dims.map ArrayDim.indices)).map fun s => cfg.stored t (cell varid s) := by
  have hcut : ∀ i (hi : i < (rowMajor (dims.map ArrayDim.indices)).length),
      ((selectedCells (cell varid) dims).drop (i * NcFile.sizeofAtomic t)).take (NcFile.sizeofAtomic t) =
        cell varid (rowMajor (dims.map ArrayDim.indices))[i] :=
    fun i hi => take_drop_flatMap hcell hi
  apply List.ext_getElem
  · rw [List.length_map, length_rowMajor_indices]
    by_cases hpromote : t = .byte ∧ cfg.promoteByteToShort = true
    · simp [Config.numberFill, Fill.numbers, hpromote]
    · simp [Config.numberFill, Fill.numbers, hpromote]
  · intro i hi hi'
    rw [List.length_map] at hi'
    have hvalue := hcut i hi'
    by_cases hpromote : t = .byte ∧ cfg.promoteByteToShort = true
    · obtain ⟨rfl, hpromote⟩ := hpromote
      simp only [NcFile.sizeofAtomic, Nat.mul_one] at hvalue
      simp [Config.numberFill, Fill.numbers, Config.stored, hpromote, hvalue]
    · simp [Config.numberFill, Fill.numbers, Config.stored, hpromote, hvalue]

/-- `NCArray::read` of a variable of numbers, or of an enum, gives the values that the constraint selects, in
their order. A signed byte may be promoted to a short. -/
theorem read_numbers (hlib : Reports f lib) (hdelivers : Delivers f cell lib) {a : NumberArray}
    (h : a.Readable f cfg cell) (lookup : BaseType → String → Option BaseType) (dataset : String) :
    ∃ values, Throwing.eval (opening lib)
        (NCArray.read cfg lookup a.v.name dataset a.var a.dims false) = .ok values ∧
      a.numbers values = a.tuples.map fun s => cfg.stored a.t (cell a.varid s) := by
  have hids : List.Forall₂ (fun d id => d.size = (dapDim f id).size ∧ d.Admitted) a.dims a.v.dimIds := by
    rw [← arrayDims_number h.read h.number]
    exact h.dims
  have hrank : a.dims.length ≤ maxNcDims := by
    rw [hids.length_eq]
    exact h.rank
  have hcount := h.count
  have hnels : toInt (toLong (countAll a.dims)) = countAll a.dims := by
    rw [toLong_of_lt (by omega), toInt_of_lt hcount]
  refine ⟨(some ⟨selectedCells (cell a.varid) a.dims, []⟩, [cfg.numberFill a.t (countAll a.dims)]), ?_,
    numbers_numberFill h.cells⟩
  show Throwing.eval _ (usingFile _ _ _ _) = _
  rw [eval_usingFile, eval_values hlib h.found hrank (admitted_of_forall₂ hids) h.ints,
    eval_doArrayRead_number hlib h.read, hnels]
  exact eval_doCardinalArrayRead_number hlib hdelivers h.found h.read h.number hids
    (length_selectedCells h.cells) hcount h.template a.v.name

end

/-! ## Selecting -/

section

variable {f : NcFile} {cell : Nat → List Int → List UInt8} {v : Var} {dims : List ArrayDim} {cfg : Config}
  {lib : (c : NcAccess) → NcReply c.Out}

/-- Nothing is constrained. -/
def wholeDims (f : NcFile) (v : Var) : List ArrayDim := (arrayDims v).map (dapDim f)

theorem indices_dapDim (f : NcFile) (d : Nat) : (dapDim f d).indices = axis 0 (dapDim f d).size 1 := by
  have hcount : (dapDim f d).count = (dapDim f d).size := by
    show ((((dapDim f d).size : Int) - 1 - 0) / 1 + 1).toNat = _
    rw [Int.ediv_one]
    omega
  rw [ArrayDim.indices, hcount]
  rfl

/-- In a whole dimension, an index is its own position. -/
theorem entries_whole {lengths : List Nat} {s : List Int} (h : Within lengths s) :
    entries (lengths.map fun n => axis 0 n 1) (s.map Int.toNat) = some s := by
  induction h with
  | nil => rfl
  | @cons n i lengths s hi _ ih =>
      rw [List.map_cons, List.map_cons, entries_cons_eq_some]
      refine ⟨i, s, ?_, ih, rfl⟩
      rw [axis_whole, List.getElem?_map, List.getElem?_range (by omega)]
      simp [hi.1]

theorem admitted_dapDim (f : NcFile) (d : Nat) : (dapDim f d).Admitted := by
  show (0 : Int) ≤ 0 ∧ (0 : Int) ≤ ((dapDim f d).size : Int) - 1 ∧
      ((dapDim f d).size : Int) - 1 < (dapDim f d).size ∧ (1 : Int) ≤ 1 ∨
    (dapDim f d).size = 0 ∧ (0 : Int) = 0 ∧ ((dapDim f d).size : Int) - 1 = -1 ∧ (1 : Int) = 1
  omega

/-- The whole dimensions are a constraint. -/
theorem constrains_whole (f : NcFile) (v : Var) : Constrains f v (wholeDims f v) := by
  apply List.forall₂_map_left_iff.mpr
  apply List.forall₂_same.mpr
  intro d _
  exact ⟨rfl, admitted_dapDim f d⟩

theorem indices_wholeDims (hids : arrayDims v = v.dimIds) :
    (wholeDims f v).map ArrayDim.indices = (f.lengths v).map fun n => axis 0 n 1 := by
  simp [wholeDims, NcFile.lengths, hids, indices_dapDim]

theorem countAll_wholeDims (hids : arrayDims v = v.dimIds) :
    countAll (wholeDims f v) = (f.lengths v).prod := by
  rw [← length_rowMajor_indices, indices_wholeDims hids, length_rowMajor, List.map_map]
  congr 1
  exact List.map_id'' (fun n => length_axis 0 n 1) _

/-- There are no more values than in the whole array. -/
theorem Constrains.countAll_le (h : Constrains f v dims) (hids : arrayDims v = v.dimIds) :
    countAll dims ≤ (f.lengths v).prod := by
  rw [Constrains, hids] at h
  rw [countAll, NcFile.lengths]
  generalize v.dimIds = ids at h
  induction h with
  | nil => rfl
  | cons hd _ ih =>
      rw [List.map_cons, List.map_cons, List.prod_cons, List.prod_cons, ← hd.1]
      exact Nat.mul_le_mul hd.2.count_le ih

/-- The same variable without a constraint. -/
def NumberArray.whole (f : NcFile) (a : NumberArray) : NumberArray := { a with dims := wholeDims f a.v }

/-- What a constraint gives are the values of the whole array at the places of the selected tuples. -/
theorem read_selects (hlib : Reports f lib) (hdelivers : Delivers f cell lib) {a : NumberArray}
    (h : (a.whole f).Readable f cfg cell) (hdims : Constrains f a.v a.dims) (hints : ∀ d ∈ a.dims, d.IsInt)
    (lookup : BaseType → String → Option BaseType) (dataset : String) :
    ∃ values whole, Throwing.eval (opening lib)
        (NCArray.read cfg lookup a.v.name dataset a.var a.dims false) = .ok values ∧
      Throwing.eval (opening lib)
        (NCArray.read cfg lookup a.v.name dataset a.var (wholeDims f a.v) false) = .ok whole ∧
      (a.numbers values).map some = a.tuples.map fun s =>
        ((a.whole f).numbers whole)[place (f.lengths a.v) (s.map Int.toNat)]? := by
  have hids : arrayDims a.v = a.v.dimIds := arrayDims_number h.read h.number
  have hwithin : ∀ s ∈ a.tuples, Within (f.lengths a.v) s := by
    intro s hs
    rw [Constrains, hids] at hdims
    exact within_of_selected hdims hs
  have hwhole : (a.whole f).tuples = rowMajor ((f.lengths a.v).map fun n => axis 0 n 1) :=
    congrArg rowMajor (indices_wholeDims hids)
  have hentries : ∀ s ∈ a.tuples,
      entries ((f.lengths a.v).map fun n => axis 0 n 1) (s.map Int.toNat) = some s :=
    fun s hs => entries_whole (hwithin s hs)
  -- so a part of the array can be read if all of it can
  have hpart : a.Readable f cfg cell := by
    refine ⟨h.found, h.read, h.number, h.rank, hdims, hints, ?_, ?_, h.template⟩
    · exact lt_of_le_of_lt ((hdims.countAll_le hids).trans_eq (countAll_wholeDims hids).symm) h.count
    · intro s hs
      apply h.cells
      rw [hwhole]
      exact List.mem_of_getElem? (getElem?_rowMajor (hentries s hs))
  obtain ⟨values, hread, hvalues⟩ := read_numbers hlib hdelivers hpart lookup dataset
  obtain ⟨whole, hread', hvalues'⟩ := read_numbers hlib hdelivers h lookup dataset
  refine ⟨values, whole, hread, hread', ?_⟩
  have hlengths : ((f.lengths a.v).map fun n => axis 0 n 1).map List.length = f.lengths a.v := by
    rw [List.map_map]
    exact List.map_id'' (fun n => length_axis 0 n 1) _
  have hselect := map_select hentries fun s => cfg.stored a.t (cell a.varid s)
  rw [hlengths] at hselect
  rw [hvalues, hvalues', hwhole, hselect]
  rfl

end

/-! ## Grids -/

section

variable {f : NcFile} {cell : Nat → List Int → List UInt8} {cfg : Config}
  {lib : (c : NcAccess) → NcReply c.Out} {lookup : BaseType → String → Option BaseType}

/-- The array as a part of a Grid that is selected and has not been read. -/
def NumberArray.component (dataset : String) (a : NumberArray) : Component :=
  ⟨.ncArray a.v.name dataset a.var a.dims, false, true⟩

/-- One part after the other. -/
theorem readComponents_numbers (hlib : Reports f lib) (hdelivers : Delivers f cell lib) (dataset : String)
    {as : List NumberArray} (h : ∀ a ∈ as, a.Readable f cfg cell) :
    ∃ valuess, Throwing.eval (opening lib)
        (readComponents cfg lookup (as.map (NumberArray.component dataset))) = .ok valuess ∧
      List.Forall₂ (fun a values => a.numbers values = a.tuples.map fun s => cfg.stored a.t (cell a.varid s))
        as valuess := by
  induction as with
  | nil => exact ⟨[], rfl, .nil⟩
  | cons a as ih =>
      obtain ⟨ha, has⟩ := List.forall_mem_cons.mp h
      obtain ⟨values, hread, hvalues⟩ := read_numbers hlib hdelivers ha lookup dataset
      obtain ⟨valuess, hreads, hvaluess⟩ := ih has
      refine ⟨values :: valuess, ?_, .cons hvalues hvaluess⟩
      have hplain : readPlain cfg lookup (a.component dataset).var (a.component dataset).readP =
          NCArray.read cfg lookup a.v.name dataset a.var a.dims false := rfl
      have hselected : (a.component dataset).selected = true := rfl
      rw [List.map_cons, readComponents, if_pos hselected, hplain, Throwing.eval_bind, hread, ok_bind,
        Throwing.eval_bind, hreads, ok_bind]
      rfl

/-- `NCGrid::read`: in the row-major order of what the constraint selects, each value of the array goes with
the values of the Maps at its positions, and these are the values of one tuple of indices in the file. -/
theorem read_grid (hlib : Reports f lib) (hdelivers : Delivers f cell lib) (dataset : String)
    {array : NumberArray} {maps : List NumberArray} (harray : array.Readable f cfg cell)
    (hmaps : ∀ m ∈ maps, m.Readable f cfg cell)
    (hdims : List.Forall₂ (fun d m => m.dims = [d]) array.dims maps) :
    ∃ arrayValues mapValues, Throwing.eval (opening lib)
        (NCGrid.read cfg lookup false (array.component dataset) (maps.map (NumberArray.component dataset))) =
          .ok (arrayValues :: mapValues) ∧
      mapValues.length = maps.length ∧
      ∀ ps s, entries (array.dims.map ArrayDim.indices) ps = some s →
        (array.numbers arrayValues)[place (array.dims.map ArrayDim.count) ps]? =
            some (cfg.stored array.t (cell array.varid s)) ∧
          ∀ (j : Nat) (m : NumberArray) (values : Values), maps[j]? = some m → mapValues[j]? = some values →
            ∃ p i, ps[j]? = some p ∧ s[j]? = some i ∧
              (m.numbers values)[p]? = some (cfg.stored m.t (cell m.varid [i])) := by
  have hall : ∀ a ∈ array :: maps, a.Readable f cfg cell := List.forall_mem_cons.mpr ⟨harray, hmaps⟩
  obtain ⟨valuess, hread, hvaluess⟩ := readComponents_numbers hlib hdelivers dataset hall
  obtain ⟨arrayValues, mapValues, harrayValues, hmapValues, rfl⟩ := List.forall₂_cons_left_iff.mp hvaluess
  refine ⟨arrayValues, mapValues, hread, hmapValues.length_eq.symm, ?_⟩
  intro ps s hs
  constructor
  · have hcounts : (array.dims.map ArrayDim.indices).map List.length = array.dims.map ArrayDim.count := by
      rw [List.map_map]
      exact List.map_congr_left fun d _ => d.length_indices
    rw [harrayValues, ← hcounts, List.getElem?_map, NumberArray.tuples, getElem?_rowMajor hs]
    rfl
  · intro j m values hm hvalues
    obtain ⟨hj, rfl⟩ := List.getElem?_eq_some_iff.mp hm
    obtain ⟨hj', rfl⟩ := List.getElem?_eq_some_iff.mp hvalues
    have hd : j < array.dims.length := hdims.length_eq ▸ hj
    have hdim : maps[j].dims = [array.dims[j]] := hdims.get hd hj
    have hindices : (array.dims.map ArrayDim.indices)[j]? = some array.dims[j].indices := by simp [hd]
    obtain ⟨p, i, hp, hi, hpi⟩ := getElem?_entries hs hindices
    refine ⟨p, i, hp, hi, ?_⟩
    have hmap : maps[j].numbers mapValues[j] =
        maps[j].tuples.map fun s => cfg.stored maps[j].t (cell maps[j].varid s) := hmapValues.get hj hj'
    rw [hmap, NumberArray.tuples, hdim, List.map_singleton, rowMajor_singleton]
    simp [hpi]

end

/-! ## A small file -/

/-- Two rows and three columns, their coordinates, and a value for each pair. -/
def seaFile : NcFile where
  dims := [⟨"y", 2⟩, ⟨"x", 3⟩]
  vars := [⟨"y", .atomic .int, [0], []⟩, ⟨"x", .atomic .byte, [1], []⟩, ⟨"t", .atomic .short, [0, 1], []⟩]
  globalAtts := []
  unlimdim := none
  dimIds_lt := by simp
  dimNames_nodup := by simp
  varNames_nodup := by simp
  dimNames_le := by decide
  varNames_le := by decide

def seaCell : Nat → List Int → List UInt8
  | 0, [i] => [UInt8.ofNat (7 * i.toNat), 0, 0, 1]
  | 1, [j] => [UInt8.ofNat (254 + j.toNat)]
  | 2, [i, j] => [UInt8.ofNat i.toNat, UInt8.ofNat j.toNat]
  | _, _ => []

def seaColumns : ArrayDim := ⟨3, "x", 0, 2, 2⟩

def seaRow : ArrayDim := ⟨2, "y", 1, 1, 1⟩

def seaX : NumberArray := ⟨1, ⟨"x", .atomic .byte, [1], []⟩, .byte, .scalar .ncInt16 "x" "f.nc", [seaColumns]⟩

def seaY : NumberArray := ⟨0, ⟨"y", .atomic .int, [0], []⟩, .int, .scalar .ncInt32 "y" "f.nc", [seaRow]⟩

def seaT : NumberArray :=
  ⟨2, ⟨"t", .atomic .short, [0, 1], []⟩, .short, .scalar .ncInt16 "t" "f.nc", [seaRow, seaColumns]⟩

theorem readable_seaX : seaX.Readable seaFile { promoteByteToShort := true } seaCell :=
  ⟨rfl, rfl, by decide, by decide, .cons ⟨rfl, by decide⟩ .nil, by decide, by decide, by decide,
    fun _ _ => ⟨"x", "f.nc", rfl⟩⟩

theorem readable_seaY : seaY.Readable seaFile { promoteByteToShort := true } seaCell :=
  ⟨rfl, rfl, by decide, by decide, .cons ⟨rfl, by decide⟩ .nil, by decide, by decide, by decide,
    fun hbyte => by cases hbyte⟩

theorem constrains_seaT : Constrains seaFile seaT.v seaT.dims :=
  .cons ⟨rfl, by decide⟩ (.cons ⟨rfl, by decide⟩ .nil)

theorem readable_seaT : seaT.Readable seaFile { promoteByteToShort := true } seaCell :=
  ⟨rfl, rfl, by decide, by decide, constrains_seaT, by decide, by decide, by decide, fun hbyte => by cases hbyte⟩

theorem readable_whole_seaT : (seaT.whole seaFile).Readable seaFile { promoteByteToShort := true } seaCell :=
  ⟨rfl, rfl, by decide, by decide, constrains_whole _ _, by decide, by decide, by decide,
    fun hbyte => by cases hbyte⟩

/-- Signed bytes, of which the second is not negative. -/
theorem read_numbers_seaX : ∃ values, Throwing.eval (opening (seaFile.serveCells seaCell))
      (NCArray.read { promoteByteToShort := true } (fun _ _ => none) "x" "f.nc" (.scalar .ncInt16 "x" "f.nc")
        [seaColumns] false) = .ok values ∧ seaX.numbers values = [[254, 255], [0, 0]] :=
  read_numbers reports_serveCells delivers_serveCells readable_seaX (fun _ _ => none) "f.nc"

/-- Two of the six values. -/
theorem read_selects_seaT :
    ∃ values whole, Throwing.eval (opening (seaFile.serveCells seaCell))
        (NCArray.read { promoteByteToShort := true } (fun _ _ => none) "t" "f.nc" seaT.var seaT.dims false) =
          .ok values ∧
      Throwing.eval (opening (seaFile.serveCells seaCell))
        (NCArray.read { promoteByteToShort := true } (fun _ _ => none) "t" "f.nc" seaT.var
          (wholeDims seaFile seaT.v) false) = .ok whole ∧
      (seaT.numbers values).map some =
        [[1, 0], [1, 2]].map fun s => ((seaT.whole seaFile).numbers whole)[place [2, 3] s]? :=
  read_selects reports_serveCells delivers_serveCells readable_whole_seaT constrains_seaT (by decide)
    (fun _ _ => none) "f.nc"

theorem read_grid_sea :
    ∃ arrayValues mapValues, Throwing.eval (opening (seaFile.serveCells seaCell))
        (NCGrid.read { promoteByteToShort := true } (fun _ _ => none) false (seaT.component "f.nc")
          [seaY.component "f.nc", seaX.component "f.nc"]) = .ok (arrayValues :: mapValues) ∧
      mapValues.length = 2 ∧
      ∀ ps s, entries (seaT.dims.map ArrayDim.indices) ps = some s →
        (seaT.numbers arrayValues)[place (seaT.dims.map ArrayDim.count) ps]? =
            some (Config.stored { promoteByteToShort := true } seaT.t (seaCell 2 s)) ∧
          ∀ (j : Nat) (m : NumberArray) (values : Values), [seaY, seaX][j]? = some m →
            mapValues[j]? = some values → ∃ p i, ps[j]? = some p ∧ s[j]? = some i ∧
              (m.numbers values)[p]? =
                some (Config.stored { promoteByteToShort := true } m.t (seaCell m.varid [i])) := by
  have hmaps : ∀ m ∈ [seaY, seaX], m.Readable seaFile { promoteByteToShort := true } seaCell := by
    simp [readable_seaX, readable_seaY]
  exact read_grid reports_serveCells delivers_serveCells "f.nc" readable_seaT hmaps (.cons rfl (.cons rfl .nil))

end Skunk.NetCDF
