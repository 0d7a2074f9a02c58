import Skunk.NetCDF.CharRows

/-!
# The buffer of `NCArray::read`

The number of elements is a `long` in `format_constraint`, an `int` for `do_array_read` and
`do_cardinal_array_read`, and the size of the buffer is a `size_t`. So from `2 ^ 31` elements on the buffer
is too small for what is read into it, or has a size that no buffer has.

`read_hasRoom_iff` says for which constraints it is large enough. Of values of an opaque type it can be too
small for another reason: the last dimension is read whole, whatever the constraint on it is.
-/

namespace Skunk.NetCDF

open Skunk.Effect

/-! ## What a call needs -/

/-- The first `n` entries of an array that is zero past the list. -/
def firstEntries {α : Type} (zero : α) (n : Nat) (l : List α) : List α :=
  (l ++ List.replicate n zero).take n

theorem firstEntries_length {α : Type} (zero : α) {l : List α} {n : Nat} (h : l.length = n) :
    firstEntries zero n l = l := by
  subst h
  rw [firstEntries, List.take_left]

/-- A buffer of this size can be made, and has room for the elements that are read into it. -/
def RoomFor (elements size room : Nat) : Prop := elements * size ≤ room ∧ room < 2 ^ 63

/-- The call has a buffer for what it reads from a variable of this rank. -/
def NcAccess.HasRoom (ndims size : Nat) : NcAccess → Prop
  | .ncGetVara _ _ _ edg _ room => RoomFor (firstEntries 0 ndims edg).prod size room
  | .ncGetVars _ _ _ edg _ _ room => RoomFor (firstEntries 0 ndims edg).prod size room
  | _ => True

/-- Opening and closing a file takes no buffer. -/
def NcCall.HasRoom (ndims size : Nat) : NcCall → Prop
  | .access c => c.HasRoom ndims size
  | _ => True

/-- The number of dimensions that the array for a variable has: one less for characters, and one more for
opaque values, where it is for the bytes. -/
def Var.dapRank (v : Var) : Nat :=
  match v.readAs with
  | .atomic .char => v.ndims - 1
  | .opaqueBytes .. => v.ndims + 1
  | _ => v.ndims

/-- The constraint is on few enough elements. 64-bit integers and variable-length types are not read. -/
def FewEnough (f : NcFile) (v : Var) (dims : List ArrayDim) : Prop :=
  match v.readAs with
  | .atomic .int64 | .atomic .uint64 | .vlen .. => True
  | .atomic .char => v.ndims < 2 ∨ countAll dims * f.lastLength v < 2 ^ 31
  | .opaqueBytes .. => v.ndims < 1 ∨
    countAll dims % 2 ^ 32 < 2 ^ 31 ∧
      countAll (dims.take (v.ndims - 1)) * f.lastLength v ≤ countAll dims % 2 ^ 32
  | _ => countAll dims < 2 ^ 31

/-! ## The arithmetic -/

/-- An `int` is what is left of a count, if it is not negative. -/
theorem toInt_count (n : Nat) :
    toInt n = if n % 2 ^ 32 < 2 ^ 31 then ((n % 2 ^ 32 : Nat) : Int) else (n % 2 ^ 32 : Nat) - 2 ^ 32 := by
  rw [toInt, Int.bmod_def]
  have hmod : ((n : Int) % ((2 ^ 32 : Nat) : Int)) = ((n % 2 ^ 32 : Nat) : Int) := (Int.natCast_emod n _).symm
  split <;> split <;> omega

/-- Whether a buffer has room is seen from what an `int` leaves of the count. -/
theorem roomFor_iff {size : Nat} (hpos : 0 < size) (hsize : size < 2 ^ 32) (elements count : Nat) :
    RoomFor elements size (toSizeT (toInt count * size)) ↔
      count % 2 ^ 32 < 2 ^ 31 ∧ elements ≤ count % 2 ^ 32 := by
  rw [RoomFor, toInt_count]
  generalize hn : count % 2 ^ 32 = n
  have hlt : n < 2 ^ 32 := hn ▸ Nat.mod_lt _ (Nat.two_pow_pos 32)
  by_cases hsmall : n < 2 ^ 31
  · have hbound : n * size ≤ (2 ^ 31 - 1) * (2 ^ 32 - 1) := Nat.mul_le_mul (by omega) (by omega)
    have hroom : toSizeT ((n : Int) * size) = n * size := by
      rw [← Nat.cast_mul, toSizeT]
      omega
    rw [if_pos hsmall, hroom, Nat.mul_le_mul_right_iff hpos]
    omega
  · -- the product is negative, and its `size_t` is larger than any buffer
    have hbound : (2 ^ 32 - n) * size ≤ 2 ^ 31 * (2 ^ 32 - 1) := Nat.mul_le_mul (by omega) (by omega)
    have hone : 1 * 1 ≤ (2 ^ 32 - n) * size := Nat.mul_le_mul (by omega) hpos
    have hneg : ((n : Int) - 2 ^ 32) * size = -(((2 ^ 32 - n) * size : Nat) : Int) := by
      rw [Nat.cast_mul, Nat.cast_sub (Nat.le_of_lt hlt)]
      push_cast
      rw [← neg_mul, neg_sub]
    rw [if_neg hsmall, hneg, toSizeT]
    omega

theorem roomFor_same_iff {size : Nat} (hpos : 0 < size) (hsize : size < 2 ^ 32) (count : Nat) :
    RoomFor count size (toSizeT (toInt count * size)) ↔ count < 2 ^ 31 := by
  rw [roomFor_iff hpos hsize]
  constructor
  · rintro ⟨hsmall, hle⟩
    omega
  · intro hsmall
    rw [Nat.mod_eq_of_lt (by omega)]
    omega

/-! ## Once the values are there -/

section Quiet

variable {ndims size : Nat} {cfg : Config} {lookup : BaseType → String → Option BaseType} {ncid varid : Nat}

theorem every_dimSizes {P : NcAccess → Prop} (hP : ∀ q, P (.inquire q)) (name : String) (ids : List Nat) :
    Throwing.Every P (dimSizes name ncid ids) := by
  induction ids with
  | nil => exact Throwing.every_pure _
  | cons d ids ih =>
      rw [dimSizes]
      refine Throwing.Every.bind (every_accOrThrow (hP _) _) fun len => ?_
      exact Throwing.Every.bind ih fun sizes => Throwing.every_pure _

/-- What is in the buffer already is not read again. -/
theorem every_doCardinalArrayRead (name : String) (var : BaseType) (datatype : NcType) (values : NcData)
    (valuesOffset nels : Int) (slab : Slab) :
    Throwing.Every (NcAccess.HasRoom ndims size) (NCArray.doCardinalArrayRead cfg name var ncid varid
      datatype (some values) valuesOffset nels slab) := by
  rw [NCArray.doCardinalArrayRead]
  refine Throwing.Every.bind (every_accOrThrow trivial _) fun width => ?_
  dsimp only [unlessThere]
  split
  case h_8 =>
    refine Throwing.Every.bind (Throwing.every_pure _) fun d => ?_
    split
    · split <;> trivial
    · trivial
  case h_9 =>
    refine Throwing.Every.bind (every_accOrThrow trivial _) fun v => ?_
    split
    · trivial
    · refine Throwing.Every.bind (every_dimSizes (fun _ => trivial) name _) fun vdims => ?_
      exact Throwing.Every.bind (Throwing.every_ofExcept _) fun _ => trivial
  case h_10 => exact ⟨trivial, fun _ => trivial⟩
  all_goals trivial

mutual
/-- Reading fields into a Structure writes nothing through the library that has no room. -/
theorem every_doStructureRead (this : BaseType) (dataset : String) (values : NcData) (valuesOffset : Int)
    (datatype : NcType) : Throwing.Every (NcAccess.HasRoom ndims size)
      (NCStructure.doStructureRead cfg lookup this dataset ncid varid datatype (some values)
        valuesOffset) := by
  match datatype with
  | .compound id typeName width fields =>
      rw [NCStructure.doStructureRead]
      refine Throwing.Every.bind (every_accOrThrow trivial _) fun _ => ?_
      refine Throwing.Every.bind (Throwing.every_pure _) fun d => ?_
      exact Throwing.Every.bind (every_readFields this dataset _ d fields 0 valuesOffset) fun _ => trivial
  | .vlen id typeName width =>
      rw [NCStructure.doStructureRead]
      exact Throwing.Every.bind (every_accOrThrow trivial _) fun _ => trivial
  | .opaqueBytes id typeName width =>
      rw [NCStructure.doStructureRead]
      exact Throwing.Every.bind (every_accOrThrow trivial _) fun _ => trivial
  | .enum id typeName base members =>
      rw [NCStructure.doStructureRead]
      exact Throwing.Every.bind (every_accOrThrow trivial _) fun _ => trivial
  | .atomic t => trivial

theorem every_readFields (this : BaseType) (dataset : String) (datatype : NcType) (d : NcData)
    (fields : NcFields) (i : Nat) (valuesOffset : Int) : Throwing.Every (NcAccess.HasRoom ndims size)
      (NCStructure.readFields cfg lookup this dataset ncid varid datatype d fields i valuesOffset) := by
  match fields with
  | .nil => trivial
  | .cons fieldName fieldOffset fieldType fieldSizes rest =>
      rw [NCStructure.readFields]
      refine Throwing.Every.bind (every_inquiring (fun _ => trivial) _) fun _ => ?_
      have hrest : ∀ fills : List Fill, Throwing.Every (NcAccess.HasRoom ndims size) (do
          let more ← NCStructure.readFields cfg lookup this dataset ncid varid datatype d rest (i + 1)
            valuesOffset
          return fills ++ more) := fun fills =>
        Throwing.Every.bind (every_readFields this dataset datatype d rest (i + 1) valuesOffset)
          fun _ => trivial
      dsimp only
      split
      · refine Throwing.Every.bind (every_inquiring (fun _ => trivial) _) fun typeName => ?_
        refine Throwing.Every.bind (Throwing.every_ofExcept _) fun child => ?_
        split
        · exact Throwing.Every.bind (every_doStructureRead _ _ d _ fieldType) fun _ => hrest _
        · trivial
      · refine Throwing.Every.bind (Throwing.every_ofExcept _) fun child => ?_
        split
        · split
          · trivial
          · refine Throwing.Every.bind (Throwing.every_ofExcept _) fun constraint => ?_
            exact Throwing.Every.bind (every_doCardinalArrayRead _ _ fieldType d _ _ _) fun _ => hrest _
        · exact hrest _
        · trivial
end

theorem every_readElement (element : BaseType) (datatype : NcType) (width : Nat) (d : NcData)
    (valuesOffset nels : Int) (slab : Slab) (i : Nat) (fields : NcFields) (j : Nat) :
    Throwing.Every (NcAccess.HasRoom ndims size) (NCArray.readElement cfg lookup element ncid varid datatype
      width d valuesOffset nels slab i fields j) := by
  match fields with
  | .nil => trivial
  | .cons fieldName fieldOffset fieldType fieldSizes rest =>
      rw [NCArray.readElement]
      refine Throwing.Every.bind (every_inquiring (fun _ => trivial) _) fun _ => ?_
      have hrest : ∀ fills : List Fill, Throwing.Every (NcAccess.HasRoom ndims size) (do
          let more ← NCArray.readElement cfg lookup element ncid varid datatype width d valuesOffset nels
            slab i rest (j + 1)
          return fills ++ more) := fun fills =>
        Throwing.Every.bind (every_readElement element datatype width d valuesOffset nels slab i rest (j + 1))
          fun _ => trivial
      dsimp only
      split
      · refine Throwing.Every.bind (every_inquiring (fun _ => trivial) _) fun typeName => ?_
        refine Throwing.Every.bind (Throwing.every_ofExcept _) fun field => ?_
        split
        · exact Throwing.Every.bind (every_doStructureRead _ _ d _ fieldType) fun _ => hrest _
        · trivial
      · refine Throwing.Every.bind (Throwing.every_ofExcept _) fun field => ?_
        split
        · exact Throwing.Every.bind (every_doCardinalArrayRead _ _ fieldType d _ _ _) fun _ => hrest _
        · exact hrest _
        · trivial

theorem every_readElements (element : BaseType) (datatype : NcType) (width : Nat) (fields : NcFields)
    (d : NcData) (valuesOffset nels : Int) (slab : Slab) (is : List Nat) :
    Throwing.Every (NcAccess.HasRoom ndims size) (NCArray.readElements cfg lookup element ncid varid datatype
      width fields d valuesOffset nels slab is) := by
  induction is with
  | nil => trivial
  | cons i is ih =>
      rw [NCArray.readElements]
      refine Throwing.Every.bind (every_readElement ..) fun fills => ?_
      exact Throwing.Every.bind ih fun more => trivial

end Quiet

/-! ## The call that fills the buffer -/

section Made

variable {f : NcFile} {lib : (c : NcAccess) → NcReply c.Out} {ndims size : Nat} {cfg : Config}
  {lookup : BaseType → String → Option BaseType} {ncid varid : Nat} {v : Var}

theorem everyMade_getSlab (slab : Slab) (mem : MemType) (room : Nat) (e : Int → NcError) :
    Throwing.EveryMade lib (NcAccess.HasRoom ndims size) (getSlab ncid varid slab mem room e) ↔
      RoomFor (firstEntries 0 ndims slab.edg).prod size room := by
  unfold getSlab
  split <;> exact everyMade_accOrThrow

/-- An inquiry needs no room, and the rest goes on with its answer. -/
theorem Reports.everyMade_bind (h : Reports f lib) {q : NcInquiry} {a : q.Out} (ha : f.answer q = .ok a)
    {e : Int → NcError} {β : Type} {g : q.Out → Acc β} :
    Throwing.EveryMade lib (NcAccess.HasRoom ndims size) (accOrThrow (.inquire q) e >>= g) ↔
      Throwing.EveryMade lib (NcAccess.HasRoom ndims size) (g a) :=
  Throwing.everyMade_bind_ok (everyMade_accOrThrow.mpr trivial) (h.eval e ha)

/-- Numbers and strings are read into a buffer for `nels` of them. -/
theorem everyMade_doCardinalArrayRead (h : Reports f lib) {t : AtomicType} (hchar : t ≠ .char)
    (hint64 : t ≠ .int64) (huint64 : t ≠ .uint64) (name : String) (var : BaseType) (nels : Int)
    (slab : Slab) :
    Throwing.EveryMade lib (NcAccess.HasRoom ndims size) (NCArray.doCardinalArrayRead cfg name var ncid varid
      (.atomic t) none 0 nels slab) ↔
      RoomFor (firstEntries 0 ndims slab.edg).prod size (toSizeT (nels * NcFile.sizeofAtomic t)) := by
  have htype : f.answer (.ncInqType ncid (.atomic t)) = .ok (NcFile.sizeofAtomic t) := rfl
  rw [NCArray.doCardinalArrayRead, h.everyMade_bind htype]
  cases t with
  | char => exact absurd rfl hchar
  | int64 => exact absurd rfl hint64
  | uint64 => exact absurd rfl huint64
  | byte =>
      refine (Throwing.everyMade_bind_every fun d => ?_).trans (everyMade_getSlab ..)
      split
      · split <;> trivial
      · trivial
  | string =>
      refine (Throwing.everyMade_bind_every fun d => ?_).trans (everyMade_getSlab ..)
      exact ⟨trivial, fun _ => trivial⟩
  | _ => exact (Throwing.everyMade_bind_every fun d => Throwing.every_pure _).trans (everyMade_getSlab ..)

/-- Where the last dimension is read whole. -/
theorem everyMade_wholeDim (h : Reports f lib) (hv : f.vars[varid]? = some v) (hmax : v.ndims ≤ maxNcDims)
    (hlast : f.lastLength v < 2 ^ 31) (name : String) {slab : Slab} (hcapacity : slab.capacity = maxNcDims)
    (hrank : 1 ≤ v.ndims) (mem : MemType) (room : Int → Nat) (e : Int → NcError)
    (rest : Int → NcData → Acc Values)
    (hrest : ∀ n d, Throwing.Every (NcAccess.HasRoom ndims size) (rest n d)) :
    Throwing.EveryMade lib (NcAccess.HasRoom ndims size) (do
      let vdims ← dimSizes name ncid v.dimIds
      let nthDimSize := toInt ((vdims.getLast?.getD 0 : Nat) : Int)
      let slab ← Throwing.ofExcept (slab.wholeDim (v.ndims - 1) (toSizeT nthDimSize))
      let d ← unlessThere none <| getSlab ncid varid slab mem (room nthDimSize) e
      rest nthDimSize d) ↔
      RoomFor (firstEntries 0 ndims (setEntry 0 (v.ndims - 1) (f.lastLength v) slab.edg)).prod size
        (room (f.lastLength v)) := by
  have hsizes := eval_dimSizes ncid h name (f.dimIds_lt v (List.mem_of_getElem? hv))
  have hnth : toSizeT (f.lastLength v : Int) = f.lastLength v := by
    rw [toSizeT]
    omega
  have hlastLength : (v.dimIds.map fun d => (dapDim f d).size).getLast?.getD 0 = f.lastLength v := rfl
  have hwhole : slab.wholeDim (v.ndims - 1) (f.lastLength v) = .ok { slab with
      cor := setEntry 0 (v.ndims - 1) 0 slab.cor
      edg := setEntry 0 (v.ndims - 1) (f.lastLength v) slab.edg
      step := if slab.hasStride then setEntry 0 (v.ndims - 1) 1 slab.step else slab.step } :=
    if_pos (by omega)
  refine (Throwing.everyMade_bind_ok (every_dimSizes (fun _ => trivial) name _).everyMade hsizes).trans ?_
  rw [hlastLength, toInt_of_lt hlast]
  dsimp only
  rw [hnth, hwhole]
  refine (Throwing.everyMade_bind_ok (Throwing.every_ofExcept _).everyMade rfl).trans ?_
  exact (Throwing.everyMade_bind_every fun d => hrest _ d).trans (everyMade_getSlab ..)

/-- Characters are read into a buffer for as many rows. -/
theorem everyMade_doCardinalArrayRead_char (h : Reports f lib) (hv : f.vars[varid]? = some v)
    (hmax : v.ndims ≤ maxNcDims) (hlast : f.lastLength v < 2 ^ 31) (name : String) (var : BaseType)
    (nels : Int) {slab : Slab} (hcapacity : slab.capacity = maxNcDims) :
    Throwing.EveryMade lib (NcAccess.HasRoom ndims size) (NCArray.doCardinalArrayRead cfg name var ncid varid
      (.atomic .char) none 0 nels slab) ↔
      (v.ndims < 2 ∨ RoomFor (firstEntries 0 ndims (setEntry 0 (v.ndims - 1) (f.lastLength v) slab.edg)).prod
        size (toSizeT (toInt (nels * f.lastLength v) * (1 : Nat)))) := by
  have htype : f.answer (.ncInqType ncid (.atomic .char)) = .ok 1 := rfl
  have hvar : f.answer (.ncInqVar ncid varid) = .ok v := answer_ncInqVar f hv
  rw [NCArray.doCardinalArrayRead, h.everyMade_bind htype]
  refine (h.everyMade_bind hvar).trans ?_
  by_cases hrank : v.ndims < 2
  · rw [if_pos hrank]
    exact iff_of_true trivial (.inl hrank)
  · rw [if_neg hrank, or_iff_right hrank]
    exact everyMade_wholeDim h hv hmax hlast name hcapacity (by omega) .text
      (fun n => toSizeT (toInt (nels * n) * (1 : Nat))) _ (fun n d => return (some d, [⟨[], .rows 0 nels n⟩]))
      fun _ _ => Throwing.every_pure _

/-- An array of compounds needs room for as many elements as the slab has. -/
theorem everyMade_doArrayRead_compound (h : Reports f lib) (name : String) (var : BaseType) (id : Nat)
    (typeName : String) (width : Nat) (fields : NcFields) (nels : Int) (slab : Slab) :
    Throwing.EveryMade lib (NcAccess.HasRoom ndims size) (NCArray.doArrayRead cfg lookup name var ncid varid
      (.compound id typeName width fields) none 0 nels slab) ↔
      RoomFor (firstEntries 0 ndims slab.edg).prod size (toSizeT (width * nels)) := by
  have huser : f.answer (.ncInqUserType ncid (.compound id typeName width fields)) = .ok () := rfl
  rw [NCArray.doArrayRead, h.everyMade_bind huser]
  refine (Throwing.everyMade_bind_every fun d => ?_).trans (everyMade_getSlab ..)
  split
  · exact Throwing.Every.bind (every_readElements ..) fun fills => trivial
  · split <;> trivial

/-- Opaque bytes are read with the length of the last dimension as the edge there. -/
theorem everyMade_doArrayRead_opaqueData (h : Reports f lib) (hv : f.vars[varid]? = some v)
    (hmax : v.ndims ≤ maxNcDims) (hlast : f.lastLength v < 2 ^ 31) (name : String) (var : BaseType) (id : Nat)
    (typeName : String) (width : Nat) (nels : Int) {slab : Slab} (hcapacity : slab.capacity = maxNcDims) :
    Throwing.EveryMade lib (NcAccess.HasRoom ndims size) (NCArray.doArrayRead cfg lookup name var ncid varid
      (.opaqueBytes id typeName width) none 0 nels slab) ↔
      (v.ndims < 1 ∨ RoomFor (firstEntries 0 ndims (setEntry 0 (v.ndims - 1) (f.lastLength v) slab.edg)).prod
        size (toSizeT (width * nels))) := by
  have huser : f.answer (.ncInqUserType ncid (.opaqueBytes id typeName width)) = .ok () := rfl
  have hvar : f.answer (.ncInqVar ncid varid) = .ok v := answer_ncInqVar f hv
  rw [NCArray.doArrayRead, h.everyMade_bind huser]
  refine (h.everyMade_bind hvar).trans ?_
  by_cases hrank : v.ndims < 1
  · rw [if_pos hrank]
    exact iff_of_true trivial (.inl hrank)
  · rw [if_neg hrank, or_iff_right hrank]
    exact everyMade_wholeDim h hv hmax hlast name hcapacity (by omega) .native
      (fun _ => toSizeT (width * nels)) _ (fun _ d => return (some d, [⟨[], .raw 0⟩]))
      fun _ _ => Throwing.every_pure _

/-- The calls of `read` are those of `do_array_read`. -/
theorem everyMade_read (h : Reports f lib) (hv : f.vars[varid]? = some v) {dims : List ArrayDim}
    (hrank : dims.length ≤ maxNcDims) (hdims : ∀ d ∈ dims, d.Admitted) (hints : ∀ d ∈ dims, d.IsInt)
    (dataset : String) (var : BaseType) :
    Throwing.EveryMade (opening lib) (NcCall.HasRoom ndims size)
      (NCArray.read cfg lookup v.name dataset var dims false) ↔
    Throwing.EveryMade lib (NcAccess.HasRoom ndims size) (NCArray.doArrayRead cfg lookup v.name var 1 varid
      v.type none 0 (toInt (toLong (countAll dims))) (slabOf maxNcDims dims)) := by
  have hid : f.answer (.ncInqVarid 1 v.name) = .ok varid := answer_ncInqVarid_name f hv _
  have htype : f.answer (.ncInqVartype 1 varid) = .ok v.type := answer_ncInqVartype f hv
  show Throwing.EveryMade (opening lib) _ (usingFile _ _ _ _) ↔ _
  refine (everyMade_usingFile trivial trivial _).trans ?_
  change @Throwing.EveryMade ncAccess NcError Values lib (NcAccess.HasRoom ndims size) _ ↔ _
  rw [NCArray.values, h.everyMade_bind hid]
  refine (h.everyMade_bind htype).trans ?_
  rw [if_neg (Nat.not_lt.mpr hrank)]
  rw [formatConstraint_eq hdims hints]
  exact Iff.rfl

end Made

/-! ## For which constraints -/

section Constraints

variable {f : NcFile} {lib : (c : NcAccess) → NcReply c.Out} {v : Var} {dims : List ArrayDim}

/-- The edges of an array, as many as the variable has dimensions. -/
theorem prod_edges (h : dims.length = v.ndims) :
    (firstEntries 0 v.ndims (dims.map ArrayDim.count)).prod = countAll dims := by
  rw [firstEntries_length 0 (by rw [List.length_map, h])]
  rfl

theorem firstEntries_setEntry {α : Type} (zero a : α) {n : Nat} {l : List α} (hn : n ≤ l.length) :
    firstEntries zero (n + 1) (setEntry zero n a l) = l.take n ++ [a] := by
  have hlong : n < (l ++ List.replicate (n + 1 - l.length) zero).length := by
    rw [List.length_append, List.length_replicate]
    omega
  have htake : ((l ++ List.replicate (n + 1 - l.length) zero).take n) = l.take n :=
    List.take_append_of_le_length hn
  have hlen : (l.take n ++ [a]).length = n + 1 := by
    rw [List.length_append, List.length_take, Nat.min_eq_left hn]
    rfl
  rw [firstEntries, setEntry, List.set_eq_take_append_cons_drop, if_pos hlong, htake,
    List.append_cons, List.append_assoc, List.take_left' hlen]

/-- With a last one that is read whole. -/
theorem prod_edges_whole {n : Nat} (hn : n + 1 = v.ndims) (hdims : n ≤ dims.length) (width : Nat) :
    (firstEntries 0 v.ndims (setEntry 0 n width (dims.map ArrayDim.count))).prod =
      countAll (dims.take n) * width := by
  rw [← hn, firstEntries_setEntry 0 width (by rw [List.length_map]; exact hdims), List.prod_append,
    List.prod_singleton, ← List.map_take]
  rfl

theorem lastLength_lt (h : ∀ len ∈ f.lengths v, len < 2 ^ 31) : f.lastLength v < 2 ^ 31 := by
  rw [NcFile.lastLength]
  cases hlast : (f.lengths v).getLast? with
  | none => exact Nat.two_pow_pos 31
  | some len => exact h len (List.mem_of_getLast? hlast)

theorem sizeofAtomic_bounds (t : AtomicType) : 0 < NcFile.sizeofAtomic t ∧ NcFile.sizeofAtomic t < 2 ^ 32 := by
  cases t <;> decide

section
variable {cfg : Config} {lookup : BaseType → String → Option BaseType} {ncid varid : Nat}

/-- Values of an atomic type, or of an enum over one. -/
theorem everyMade_atomic_iff (hlib : Reports f lib) (hv : f.vars[varid]? = some v)
    (hmax : v.ndims ≤ maxNcDims) (hlast : f.lastLength v < 2 ^ 31) {t : AtomicType}
    (hread : v.readAs = .atomic t) (hrank : dims.length = v.dapRank) (name : String) (var : BaseType) :
    Throwing.EveryMade lib (NcAccess.HasRoom v.ndims (NcFile.sizeofAtomic t))
      (NCArray.doCardinalArrayRead cfg name var ncid varid (.atomic t) none 0 (toInt (countAll dims))
        (slabOf maxNcDims dims)) ↔ FewEnough f v dims := by
  obtain ⟨hpos, hsize⟩ := sizeofAtomic_bounds t
  rw [Var.dapRank, hread] at hrank
  rw [FewEnough, hread]
  have hplain : t ≠ .char → t ≠ .int64 → t ≠ .uint64 → dims.length = v.ndims →
      (Throwing.EveryMade lib (NcAccess.HasRoom v.ndims (NcFile.sizeofAtomic t))
        (NCArray.doCardinalArrayRead cfg name var ncid varid (.atomic t) none 0 (toInt (countAll dims))
          (slabOf maxNcDims dims)) ↔ countAll dims < 2 ^ 31) := by
    intro hchar hint64 huint64 hdims
    rw [everyMade_doCardinalArrayRead hlib hchar hint64 huint64, slabOf, prod_edges hdims]
    exact roomFor_same_iff hpos hsize _
  cases t with
  | char =>
      have hrank : dims.length = v.ndims - 1 := hrank
      rw [everyMade_doCardinalArrayRead_char hlib hv hmax hlast name var _ rfl]
      refine or_congr_right' fun htwo => ?_
      have hmul : toInt (toInt (countAll dims) * f.lastLength v) =
          toInt ((countAll dims * f.lastLength v : Nat) : Int) := by
        rw [Nat.cast_mul]
        exact Int.bmod_mul_bmod
      have hcount : dims.take (v.ndims - 1) = dims := List.take_of_length_le (Nat.le_of_eq hrank)
      rw [slabOf, prod_edges_whole (by omega) (Nat.le_of_eq hrank.symm), hcount, hmul]
      exact roomFor_same_iff hpos hsize _
  | int64 =>
      rw [NCArray.doCardinalArrayRead]
      refine iff_of_true (Throwing.Every.everyMade ?_) trivial
      exact Throwing.Every.bind (every_accOrThrow trivial _) fun _ => trivial
  | uint64 =>
      rw [NCArray.doCardinalArrayRead]
      refine iff_of_true (Throwing.Every.everyMade ?_) trivial
      exact Throwing.Every.bind (every_accOrThrow trivial _) fun _ => trivial
  | _ => exact hplain (by decide) (by decide) (by decide) hrank

end

/-- `NCArray::read` has room for what it reads exactly if the constraint is on few enough elements. -/
theorem read_hasRoom_iff {varid : Nat} (hlib : Reports f lib) (hv : f.vars[varid]? = some v)
    (hmax : v.ndims ≤ maxNcDims) (hlengths : ∀ len ∈ f.lengths v, len < 2 ^ 31)
    (hpos : 0 < NcFile.sizeofType v.type) (hsize : NcFile.sizeofType v.type < 2 ^ 32)
    (hdims : ∀ d ∈ dims, d.Admitted) (hints : ∀ d ∈ dims, d.IsInt) (hrank : dims.length = v.dapRank)
    (hmax' : dims.length ≤ maxNcDims) (cfg : Config)
    (lookup : BaseType → String → Option BaseType) (dataset : String) (var : BaseType) :
    Throwing.EveryMade (opening lib) (NcCall.HasRoom v.ndims (NcFile.sizeofType v.type))
      (NCArray.read cfg lookup v.name dataset var dims false) ↔ FewEnough f v dims := by
  have hlast := lastLength_lt hlengths
  rw [everyMade_read hlib hv hmax' hdims hints, toInt_toLong]
  change @Throwing.EveryMade ncAccess NcError Values lib _ (NCArray.doArrayRead cfg lookup v.name var 1 varid
    v.type none 0 (toInt (countAll dims)) (slabOf maxNcDims dims)) ↔ _
  cases htype : v.type with
  | atomic t =>
      have hread : v.readAs = .atomic t := by rw [Var.readAs, htype]
      exact everyMade_atomic_iff hlib hv hmax hlast hread hrank v.name var
  | enum id typeName base members =>
      have hread : v.readAs = .atomic base := by rw [Var.readAs, htype]
      have huser : f.answer (.ncInqUserType 1 (.enum id typeName base members)) = .ok () := rfl
      have henum : f.answer (.ncInqEnum 1 (.enum id typeName base members)) = .ok () := rfl
      rw [NCArray.doArrayRead, hlib.everyMade_bind huser]
      -- after two inquiries an enum is read as its base type
      refine (hlib.everyMade_bind henum).trans ?_
      exact everyMade_atomic_iff hlib hv hmax hlast hread hrank v.name var
  | compound id typeName width fields =>
      have hread : v.readAs = .compound id typeName width fields := by rw [Var.readAs, htype]
      rw [htype] at hpos hsize
      rw [Var.dapRank, hread] at hrank
      rw [everyMade_doArrayRead_compound hlib, slabOf, prod_edges hrank, mul_comm, FewEnough, hread]
      exact roomFor_same_iff hpos hsize _
  | opaqueBytes id typeName width =>
      have hread : v.readAs = .opaqueBytes id typeName width := by rw [Var.readAs, htype]
      rw [htype] at hpos hsize
      rw [Var.dapRank, hread] at hrank
      have hrank : dims.length = v.ndims + 1 := hrank
      rw [everyMade_doArrayRead_opaqueData hlib hv hmax hlast _ _ _ _ _ _ rfl, FewEnough, hread]
      refine or_congr_right' fun hone => ?_
      rw [slabOf, prod_edges_whole (by omega) (by omega), mul_comm (width : Int)]
      exact roomFor_iff hpos hsize _ _
  | vlen id typeName width =>
      have hread : v.readAs = .vlen id typeName width := by rw [Var.readAs, htype]
      have huser : f.answer (.ncInqUserType 1 (.vlen id typeName width)) = .ok () := rfl
      rw [NCArray.doArrayRead, hlib.everyMade_bind huser, FewEnough, hread]
      refine iff_of_true ?_ trivial
      split <;> trivial

end Constraints

/-- A variable with `2 ^ 32` values. -/
def bigFile : NcFile where
  dims := [⟨"y", 65536⟩, ⟨"x", 65536⟩]
  vars := [⟨"t", .atomic .float, [0, 1], []⟩]
  globalAtts := []
  unlimdim := none
  dimIds_lt := by simp
  dimNames_nodup := by simp
  varNames_nodup := by simp
  dimNames_le := by
    intro d hd
    rcases List.mem_cons.mp hd with rfl | hd
    · decide
    · obtain rfl := List.mem_singleton.mp hd
      decide
  varNames_le := by
    intro v hv
    obtain rfl := List.mem_singleton.mp hv
    decide

/-- A corner of it fits. -/
theorem read_hasRoom_corner :
    Throwing.EveryMade (opening (bigFile.serveCells fun _ _ => [0, 0, 0, 0])) (NcCall.HasRoom 2 4)
      (NCArray.read {} (fun _ _ => none) "t" "f.nc" (.scalar .ncFloat32 "t" "f.nc")
        [⟨65536, "y", 0, 1, 9⟩, ⟨65536, "x", 0, 2, 9⟩] false) ↔
    FewEnough bigFile ⟨"t", .atomic .float, [0, 1], []⟩ [⟨65536, "y", 0, 1, 9⟩, ⟨65536, "x", 0, 2, 9⟩] := by
  have hv : bigFile.vars[0]? = some ⟨"t", .atomic .float, [0, 1], []⟩ := rfl
  exact read_hasRoom_iff reports_serveCells hv (by decide) (by decide) (by decide) (by decide) (by decide)
    (by decide) rfl (by decide) {} (fun _ _ => none) "f.nc" (.scalar .ncFloat32 "t" "f.nc")

/-- For all of it the count is zero as an `int`, and so is the size of the buffer. -/
theorem not_hasRoom_big :
    ¬ Throwing.EveryMade (opening (bigFile.serveCells fun _ _ => [0, 0, 0, 0])) (NcCall.HasRoom 2 4)
      (NCArray.read {} (fun _ _ => none) "t" "f.nc" (.scalar .ncFloat32 "t" "f.nc")
        [.whole 65536 "y", .whole 65536 "x"] false) := by
  have hv : bigFile.vars[0]? = some ⟨"t", .atomic .float, [0, 1], []⟩ := rfl
  have hdims : ∀ d ∈ [ArrayDim.whole 65536 "y", .whole 65536 "x"], d.Admitted := by decide
  intro hmade
  rw [everyMade_read reports_serveCells hv (by decide) hdims (by decide)] at hmade
  change @Throwing.EveryMade ncAccess NcError Values _ _ (NCArray.doCardinalArrayRead {} "t"
    (.scalar .ncFloat32 "t" "f.nc") 1 0 (.atomic .float) none 0 _ _) at hmade
  rw [everyMade_doCardinalArrayRead reports_serveCells (by decide) (by decide) (by decide)] at hmade
  revert hmade
  unfold RoomFor
  decide

end Skunk.NetCDF
