import Skunk.NetCDF.SlabReads

/-!
# Strings from characters

To netCDF a variable of type `NC_CHAR` has one dimension more than to DAP: the last one is the length of a
string. `format_constraint` knows nothing of it, so `do_cardinal_array_read` adds it to what is asked for,
and then cuts the buffer into rows.
-/

namespace Skunk.NetCDF

open Skunk.Container Skunk.Effect

/-! ## Rows -/

/-- The characters before the first NUL. -/
def cString (l : List UInt8) : List UInt8 := l.takeWhile (· ≠ 0)

/-- What `do_cardinal_array_read` makes of a buffer: row `i` starts at `i * nth_dim_size`, an `int`. -/
def rowStrings (bytes : List UInt8) (valuesOffset nels nthDimSize : Int) : List (List UInt8) :=
  (List.range nels.toNat).map fun i : Nat =>
    cString ((bytes.drop (valuesOffset + toInt (i * nthDimSize)).toNat).take nthDimSize.toNat)

/-- What `val2buf` gets for an Array of strings. -/
def Fill.strings (d : NcData) (fill : Fill) : List (List UInt8) :=
  match fill.stored with
  | .rows offset count width => rowStrings d.bytes offset count width
  | _ => []

theorem toInt_of_lt {n : Nat} (h : n < 2 ^ 31) : toInt n = n := by
  rw [toInt, Int.bmod_eq_of_le (by omega) (by omega)]

theorem rowStrings_flatMap {α : Type} {l : List α} {row : α → List UInt8} {width : Nat}
    (hrow : ∀ a ∈ l, (row a).length = width) (hsmall : l.length * width < 2 ^ 31) :
    rowStrings (l.flatMap row) 0 l.length width = l.map fun a => cString (row a) := by
  apply List.ext_getElem
  · rw [rowStrings, List.length_map, List.length_range, List.length_map, Int.toNat_natCast]
  · intro i hi hi'
    rw [List.length_map] at hi'
    have hmul : i * width < 2 ^ 31 :=
      lt_of_le_of_lt (Nat.mul_le_mul_right width (Nat.le_of_lt hi')) hsmall
    have hcast : (i : Int) * width = ((i * width : Nat) : Int) := (Nat.cast_mul i width).symm
    simp only [rowStrings, List.getElem_map, List.getElem_range]
    rw [hcast, toInt_of_lt hmul, zero_add, Int.toNat_natCast, Int.toNat_natCast, take_drop_flatMap hrow hi']

/-! ## The last dimension -/

theorem setEntry_length {α : Type} (zero a : α) (l : List α) : setEntry zero l.length a l = l ++ [a] := by
  have hone : l.length + 1 - l.length = 1 := by omega
  rw [setEntry, hone, List.replicate_one, List.set_append_right _ _ (Nat.le_refl _), Nat.sub_self]
  rfl

theorem axis_whole (width : Nat) : axis 0 width 1 = (List.range width).map fun k : Nat => (k : Int) := by
  apply List.map_congr_left
  intro k _
  omega

/-- The corners, edges and steps of an array, with those of a dimension that is read whole. -/
theorem axes_concat (dims : List ArrayDim) (width : Nat) :
    axes (dims.map (fun d => d.start.toNat) ++ [0]) (dims.map ArrayDim.count ++ [width])
      (dims.map ArrayDim.stride ++ [1]) = dims.map ArrayDim.indices ++ [axis 0 width 1] := by
  induction dims with
  | nil => rfl
  | cons d dims ih =>
      simp only [List.map_cons, List.cons_append, axes, ih]
      rfl

section Evaluation

variable {f : NcFile} {lib : (c : NcAccess) → NcReply c.Out} {cfg : Config}
  {lookup : BaseType → String → Option BaseType} {varid ncid : Nat} {v : Var} {dims : List ArrayDim}

theorem eval_dimSizes (ncid : Nat) (h : Reports f lib) (name : String) {ids : List Nat}
    (hids : ∀ d ∈ ids, d < f.dims.length) :
    Throwing.eval lib (dimSizes name ncid ids) = .ok (ids.map fun d => (dapDim f d).size) := by
  induction ids with
  | nil => rfl
  | cons d ids ih =>
      obtain ⟨hd, hids⟩ := List.forall_mem_cons.mp hids
      have hsome : f.dims[d]? = some f.dims[d] := List.getElem?_eq_getElem hd
      have hsize : (dapDim f d).size = f.dims[d].length := by
        rw [dapDim, ArrayDim.size_whole, hsome]
        rfl
      rw [dimSizes, Throwing.eval_bind, h.eval _ (answer_ncInqDimlen f hsome), ok_bind,
        Throwing.eval_bind, ih hids, ok_bind, List.map_cons, hsize]
      rfl

/-- What `read` does until it calls `do_array_read`. -/
theorem eval_values (h : Reports f lib) (hv : f.vars[varid]? = some v) (hrank : dims.length ≤ maxNcDims)
    (hdims : ∀ d ∈ dims, d.Admitted) (hints : ∀ d ∈ dims, d.IsInt) (var : BaseType) :
    Throwing.eval lib (NCArray.values cfg lookup v.name var dims ncid) =
      Throwing.eval lib (NCArray.doArrayRead cfg lookup v.name var ncid varid v.type none 0
        (toInt (toLong (countAll dims))) (slabOf maxNcDims dims)) := by
  have hid : f.answer (.ncInqVarid ncid v.name) = .ok varid := answer_ncInqVarid_name f hv _
  have htype : f.answer (.ncInqVartype ncid varid) = .ok v.type := answer_ncInqVartype f hv
  rw [NCArray.values, Throwing.eval_bind, h.eval _ hid, ok_bind, Throwing.eval_bind, h.eval _ htype,
    ok_bind, if_neg (Nat.not_lt.mpr hrank)]
  dsimp only
  rw [Throwing.eval_bind, Throwing.eval_ofExcept, formatConstraint_eq hdims hints, ok_bind]

/-- The dimensions of a variable: those of the array, and the length of the strings. -/
theorem dimIds_eq (htype : v.type = .atomic .char) (hrank : 2 ≤ v.ndims) :
    ∃ last, v.dimIds = arrayDims v ++ [last] := by
  have hne : v.dimIds ≠ [] := by
    intro hnil
    rw [Var.ndims, hnil] at hrank
    cases hrank
  refine ⟨v.dimIds.getLast hne, ?_⟩
  have htake : arrayDims v = v.dimIds.dropLast := by
    rw [arrayDims, htype, List.dropLast_eq_take]
    rfl
  rw [htake, List.dropLast_append_getLast]

/-- The slab of an array, with the last dimension of the variable. -/
def textSlab (dims : List ArrayDim) (width : Nat) : Slab :=
  let strides := dims.map ArrayDim.stride
  let hasStride := dims.any fun d => d.stride ≠ 1
  ⟨maxNcDims, dims.map (fun d => d.start.toNat) ++ [0], dims.map ArrayDim.count ++ [width],
    if hasStride then strides ++ [1] else strides, hasStride⟩

theorem wholeDim_eq {n : Nat} (hn : dims.length = n) (hlt : n < maxNcDims) (width : Nat) :
    Slab.wholeDim (slabOf maxNcDims dims) n width = .ok (textSlab dims width) := by
  have hset : ∀ {α : Type} (g : ArrayDim → α) (zero a : α), setEntry zero n a (dims.map g) =
      dims.map g ++ [a] := by
    intro α g zero a
    have hlen : (dims.map g).length = n := by rw [List.length_map, hn]
    rw [← hlen, setEntry_length]
  rw [Slab.wholeDim, if_pos (show n < (slabOf maxNcDims dims).capacity from hlt), textSlab]
  simp only [slabOf, hset]

end Evaluation

section Text

variable {f : NcFile} {text : Nat → List Int → UInt8} {lib : (c : NcAccess) → NcReply c.Out}
  {varid ncid : Nat} {v : Var} {dims : List ArrayDim}

/-- The characters that a constraint selects, row after row. -/
def selectedText (text : List Int → UInt8) (dims : List ArrayDim) (width : Nat) : List UInt8 :=
  (rowMajor (dims.map ArrayDim.indices)).flatMap fun t =>
    (List.range width).map fun j : Nat => text (t ++ [(j : Int)])

theorem flatMap_rowMajor_concat (text : List Int → UInt8) (dims : List ArrayDim) (width : Nat) :
    ((rowMajor (dims.map ArrayDim.indices ++ [axis 0 width 1])).flatMap fun t => [text t]) =
      selectedText text dims width := by
  rw [← List.map_eq_flatMap, rowMajor_concat, List.map_flatMap, selectedText]
  apply List.flatMap_congr
  intro t _
  rw [axis_whole, List.map_map, List.map_map]
  rfl

theorem length_selectedText (text : List Int → UInt8) (dims : List ArrayDim) (width : Nat) :
    (selectedText text dims width).length = countAll dims * width := by
  rw [← flatMap_rowMajor_concat, ← List.map_eq_flatMap, List.length_map, length_rowMajor, List.map_append,
    List.prod_append, List.map_singleton, List.prod_singleton, length_axis, List.map_map, countAll]
  exact congrArg (· * width) (congrArg List.prod (List.map_congr_left fun d _ => d.length_indices))

/-- The library reads the characters that the constraint selects. -/
theorem eval_getSlab_text (h : Delivers f (fun varid t => [text varid t]) lib) (hv : f.vars[varid]? = some v)
    (htype : v.type = .atomic .char) {ids : List Nat} {last : Nat} (hids : v.dimIds = ids ++ [last])
    (hdims : List.Forall₂ (fun d id => d.size = (dapDim f id).size ∧ d.Admitted) dims ids)
    {room : Nat} (hroom : countAll dims * (dapDim f last).size ≤ room) (e : Int → NcError) :
    Throwing.eval lib (getSlab ncid varid (textSlab dims (dapDim f last).size) .text room e) =
      .ok ⟨selectedText (text varid) dims (dapDim f last).size, []⟩ := by
  have hlengths : f.lengths v = (ids.map fun d => (dapDim f d).size) ++ [(dapDim f last).size] := by
    rw [NcFile.lengths, hids, List.map_append]
    rfl
  have hstep : (if (textSlab dims (dapDim f last).size).hasStride then (textSlab dims (dapDim f last).size).step
      else List.replicate (textSlab dims (dapDim f last).size).edg.length 1) =
        dims.map ArrayDim.stride ++ [1] := by
    unfold textSlab
    dsimp only
    cases hstride : dims.any fun d => d.stride ≠ 1 with
    | true => rfl
    | false =>
        rw [strides_eq_replicate hstride, ← List.replicate_succ']
        simp
  have hslab : hyperslab (textSlab dims (dapDim f last).size).cor (textSlab dims (dapDim f last).size).edg
      (dims.map ArrayDim.stride ++ [1]) =
        rowMajor (dims.map ArrayDim.indices ++ [axis 0 (dapDim f last).size 1]) :=
    congrArg rowMajor (axes_concat dims _)
  have hwithin : SlabWithin (f.lengths v) (textSlab dims (dapDim f last).size).cor
      (textSlab dims (dapDim f last).size).edg (dims.map ArrayDim.stride ++ [1]) := by
    rw [hlengths]
    exact (slabWithin_of_forall₂ hdims).concat _
  have htext : v.LeavesBytes .text := htype
  have hroom' : ((hyperslab (textSlab dims (dapDim f last).size).cor (textSlab dims (dapDim f last).size).edg
      (dims.map ArrayDim.stride ++ [1])).flatMap fun t => [text varid t]).length ≤ room := by
    rw [hslab, flatMap_rowMajor_concat, length_selectedText]
    exact hroom
  rw [h.eval_getSlab hv htext hstep hwithin hroom' ncid e, hslab, flatMap_rowMajor_concat]

/-- `do_cardinal_array_read` of characters that are not in the buffer yet. -/
theorem eval_doCardinalArrayRead_char (hlib : Reports f lib)
    (hdelivers : Delivers f (fun varid t => [text varid t]) lib) (hv : f.vars[varid]? = some v)
    (htype : v.type = .atomic .char) (hrank : 2 ≤ v.ndims) (hmax : v.ndims ≤ maxNcDims)
    {ids : List Nat} {last : Nat} (hids : v.dimIds = ids ++ [last])
    (hdims : List.Forall₂ (fun d id => d.size = (dapDim f id).size ∧ d.Admitted) dims ids)
    (hwidth : (dapDim f last).size < 2 ^ 31)
    (hsmall : countAll dims * (dapDim f last).size < 2 ^ 31) (cfg : Config) (name : String)
    (var : BaseType) :
    Throwing.eval lib (NCArray.doCardinalArrayRead cfg name var ncid varid (.atomic .char)
      none 0 (countAll dims) (slabOf maxNcDims dims)) =
      .ok (some ⟨selectedText (text varid) dims (dapDim f last).size, []⟩,
        [⟨[], .rows 0 (countAll dims) (dapDim f last).size⟩]) := by
  have hmem := List.mem_of_getElem? hv
  have hsize : f.answer (.ncInqType ncid (.atomic .char)) = .ok 1 := rfl
  have hvar : f.answer (.ncInqVar ncid varid) = .ok v := answer_ncInqVar f hv
  have hlast : ((v.dimIds.map fun d => (dapDim f d).size).getLast?.getD 0) = (dapDim f last).size := by
    rw [hids, List.map_append, List.map_singleton, List.getLast?_concat]
    rfl
  have hlen : dims.length = v.ndims - 1 := by
    rw [Var.ndims, hids, List.length_append, hdims.length_eq]
    rfl
  have hroom : countAll dims * (dapDim f last).size ≤
      toSizeT (toInt (countAll dims * (dapDim f last).size) * (1 : Nat)) := by
    have hcast : (countAll dims : Int) * (dapDim f last).size =
        ((countAll dims * (dapDim f last).size : Nat) : Int) := (Nat.cast_mul _ _).symm
    rw [hcast, toInt_of_lt hsmall, toSizeT]
    omega
  rw [NCArray.doCardinalArrayRead, Throwing.eval_bind, hlib.eval _ hsize, ok_bind]
  dsimp only
  rw [Throwing.eval_bind, hlib.eval _ hvar, ok_bind, if_neg (Nat.not_lt.mpr hrank),
    Throwing.eval_bind, eval_dimSizes ncid hlib name (f.dimIds_lt v hmem), ok_bind, hlast,
    toInt_of_lt hwidth, toSizeT_natCast hwidth, Throwing.eval_bind, Throwing.eval_ofExcept,
    wholeDim_eq hlen (by omega), ok_bind, Throwing.eval_bind]
  rw [unlessThere, eval_getSlab_text hdelivers hv htype hids hdims hroom, ok_bind]
  rfl

/-- `NCArray::read` of a variable of characters makes a string for each tuple that the constraint selects,
in their order: the row that goes with the tuple, up to its first NUL. -/
theorem read_charRows (hlib : Reports f lib) (hdelivers : Delivers f (fun varid t => [text varid t]) lib)
    (hv : f.vars[varid]? = some v) (htype : v.type = .atomic .char) (hrank : 2 ≤ v.ndims)
    (hmax : v.ndims ≤ maxNcDims) (hdims : Constrains f v dims) (hints : ∀ d ∈ dims, d.IsInt)
    (hcount : countAll dims < 2 ^ 31) (hwidth : f.lastLength v < 2 ^ 31)
    (hsmall : countAll dims * f.lastLength v < 2 ^ 31) (cfg : Config)
    (lookup : BaseType → String → Option BaseType) (dataset : String) (var : BaseType) :
    ∃ d fill, Throwing.eval (opening lib)
        (NCArray.read cfg lookup v.name dataset var dims false) = .ok (some d, [fill]) ∧
      fill.path = [] ∧
      fill.strings d = (rowMajor (dims.map ArrayDim.indices)).map fun t =>
        cString ((List.range (f.lastLength v)).map fun j : Nat => text varid (t ++ [(j : Int)])) := by
  obtain ⟨last, hids⟩ := dimIds_eq htype hrank
  have hlast : f.lastLength v = (dapDim f last).size := by
    rw [NcFile.lastLength, NcFile.lengths, hids, List.map_append, List.map_singleton,
      List.getLast?_concat]
    rfl
  have hlen : dims.length ≤ maxNcDims := by
    have hsum := congrArg List.length hids
    rw [List.length_append, ← hdims.length_eq] at hsum
    exact le_trans (by rw [Var.ndims, hsum]; exact Nat.le_add_right _ _) hmax
  rw [hlast] at hwidth hsmall
  have hnels : toInt (toLong (countAll dims)) = countAll dims := by
    rw [toLong_of_lt (by omega), toInt_of_lt hcount]
  refine ⟨⟨selectedText (text varid) dims (dapDim f last).size, []⟩,
    ⟨[], .rows 0 (countAll dims) (dapDim f last).size⟩, ?_, rfl, ?_⟩
  · show Throwing.eval _ (usingFile _ _ _ _) = _
    rw [eval_usingFile, eval_values hlib hv hlen (admitted_of_forall₂ hdims) hints, htype, hnels]
    exact eval_doCardinalArrayRead_char hlib hdelivers hv htype hrank hmax hids hdims hwidth hsmall cfg v.name var
  · rw [hlast, ← length_rowMajor_indices]
    rw [← length_rowMajor_indices] at hsmall
    exact rowStrings_flatMap (fun t _ => by rw [List.length_map, List.length_range]) hsmall

/-- Three names of four characters. -/
def nameFile : NcFile where
  dims := [⟨"n", 3⟩, ⟨"len", 4⟩]
  vars := [⟨"names", .atomic .char, [0, 1], []⟩]
  globalAtts := []
  unlimdim := none
  dimIds_lt := by simp
  dimNames_nodup := by simp
  varNames_nodup := by simp
  dimNames_le := by
    intro d hd
    rcases List.mem_cons.mp hd with rfl | hd
    · decide
    · obtain rfl := List.mem_singleton.mp hd
      decide
  varNames_le := by
    intro v hv
    obtain rfl := List.mem_singleton.mp hv
    decide

/-- `ab`, nothing, and `cdef`. -/
def nameText (_ : Nat) (t : List Int) : UInt8 :=
  match t with
  | [0, 0] => 97
  | [0, 1] => 98
  | [2, j] => 99 + UInt8.ofNat j.toNat
  | _ => 0

/-- Every second name. -/
theorem read_charRows_names :
    ∃ d fill, Throwing.eval (opening (nameFile.serveCells fun varid t => [nameText varid t]))
      (NCArray.read {} (fun _ _ => none) "names" "f.nc" (.scalar .ncStr "names" "f.nc") [⟨3, "n", 0, 2, 2⟩] false) =
        .ok (some d, [fill]) ∧
    fill.path = [] ∧ fill.strings d = [[97, 98], [99, 100, 101, 102]] := by
  have hdims : Constrains nameFile ⟨"names", .atomic .char, [0, 1], []⟩ [⟨3, "n", 0, 2, 2⟩] :=
    .cons ⟨rfl, by decide⟩ .nil
  have hv : nameFile.vars[0]? = some ⟨"names", .atomic .char, [0, 1], []⟩ := rfl
  exact read_charRows reports_serveCells delivers_serveCells hv rfl (by decide) (by decide) hdims (by decide)
    (by decide) (by decide) (by decide) {} (fun _ _ => none) "f.nc" (.scalar .ncStr "names" "f.nc")

end Text

end Skunk.NetCDF
