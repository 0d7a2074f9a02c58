import Skunk.NetCDF.DdsAgreement
import Skunk.NetCDF.Hyperslab

/-!
# Reading a hyperslab

What the handler relies on when it calls `nc_get_vara` and `nc_get_vars`: for indices within the variable and
a buffer that is large enough, they leave the values there, in the order of `hyperslab` (`Delivers`). Nothing
is said of what they do otherwise.
-/

namespace Skunk.NetCDF

open Skunk.Container Skunk.Effect

/-! ## Within a variable -/

def NcFile.lengths (f : NcFile) (v : Var) : List Nat := v.dimIds.map fun d => (dapDim f d).size

def NcFile.lastLength (f : NcFile) (v : Var) : Nat := (f.lengths v).getLast?.getD 0

/-- The index is within the variable. -/
def Within (lengths : List Nat) (t : List Int) : Prop :=
  List.Forall₂ (fun (len : Nat) (i : Int) => 0 ≤ i ∧ i < len) lengths t

/-- The hyperslab ends within the variable, and begins at zero where it has no indices. -/
inductive SlabWithin : List Nat → List Nat → List Nat → List Int → Prop
  | nil : SlabWithin [] [] [] []
  | cons {len c e : Nat} {s : Int} {lengths cor edg : List Nat} {step : List Int} (hstep : 1 ≤ s)
      (hend : e = 0 ∧ c = 0 ∨ 0 < e ∧ c + (e - 1) * s < len) (hrest : SlabWithin lengths cor edg step) :
      SlabWithin (len :: lengths) (c :: cor) (e :: edg) (s :: step)

/-- One more dimension that is read whole. -/
theorem SlabWithin.concat {lengths cor edg : List Nat} {step : List Int} (h : SlabWithin lengths cor edg step)
    (width : Nat) : SlabWithin (lengths ++ [width]) (cor ++ [0]) (edg ++ [width]) (step ++ [1]) := by
  induction h with
  | nil => exact .cons (Int.le_refl 1) (by omega) .nil
  | cons hstep hend _ ih => exact .cons hstep hend ih

/-- An array's constraint is on the dimensions that the builder gives it. -/
def Constrains (f : NcFile) (v : Var) (dims : List ArrayDim) : Prop :=
  List.Forall₂ (fun d id => d.size = (dapDim f id).size ∧ d.Admitted) dims (arrayDims v)

theorem ArrayDim.Admitted.within {d : ArrayDim} (h : d.Admitted) {i : Int} (hi : i ∈ d.indices) :
    0 ≤ i ∧ i < d.size := by
  obtain ⟨k, rfl, hle⟩ := h.mem_indices.mp hi
  have hstart := h.start_nonneg
  have hstop := h.le_stop.2
  have hstride : 0 ≤ (k : Int) * d.stride := mul_nonneg (Int.natCast_nonneg k) (by linarith [h.stride_pos])
  omega

section
variable {f : NcFile} {dims : List ArrayDim} {ids : List Nat}

theorem admitted_of_forall₂ (h : List.Forall₂ (fun d id => d.size = (dapDim f id).size ∧ d.Admitted) dims ids) :
    ∀ d ∈ dims, d.Admitted := by
  intro d hd
  obtain ⟨i, hi, rfl⟩ := List.mem_iff_getElem.mp hd
  exact (h.get hi (h.length_eq ▸ hi)).2

/-- Whatever a constraint selects is within the variable. -/
theorem within_of_selected (h : List.Forall₂ (fun d id => d.size = (dapDim f id).size ∧ d.Admitted) dims ids)
    {s : List Int} (hs : s ∈ rowMajor (dims.map ArrayDim.indices)) :
    Within (ids.map fun d => (dapDim f d).size) s := by
  rw [mem_rowMajor] at hs
  induction h generalizing s with
  | nil =>
      obtain rfl := List.forall₂_nil_left_iff.mp hs
      exact .nil
  | @cons d id dims ids hd _ ih =>
      obtain ⟨i, s', hi, hs', rfl⟩ := List.forall₂_cons_left_iff.mp hs
      have hwithin := hd.2.within hi
      rw [hd.1] at hwithin
      exact .cons hwithin (ih hs')

/-- And so is its hyperslab. -/
theorem slabWithin_of_forall₂ (h : List.Forall₂ (fun d id => d.size = (dapDim f id).size ∧ d.Admitted) dims ids) :
    SlabWithin (ids.map fun d => (dapDim f d).size) (dims.map fun d => d.start.toNat) (dims.map ArrayDim.count)
      (dims.map ArrayDim.stride) := by
  induction h with
  | nil => exact .nil
  | @cons d id dims ids hd _ ih =>
      obtain ⟨hsize, hadmitted⟩ := hd
      simp only [List.map_cons]
      refine .cons hadmitted.stride_pos ?_ ih
      have hstart := hadmitted.start_nonneg
      have hstop := hadmitted.le_stop
      rcases Nat.eq_zero_or_pos d.count with hzero | hpos
      · left
        refine ⟨hzero, ?_⟩
        have hempty : d.size = 0 := by
          by_contra hsome
          exact absurd (hadmitted.count_pos_iff.mpr hsome) (by omega)
        omega
      · right
        refine ⟨hpos, ?_⟩
        have hlast := (hadmitted.le_stop_iff (d.count - 1)).mpr (by omega)
        have hcast : ((d.count - 1 : Nat) : Int) = d.count - 1 := by omega
        rw [hcast] at hlast
        rw [← hsize]
        omega

/-- Without a stride, all steps are one. -/
theorem strides_eq_replicate (h : (dims.any fun d => d.stride ≠ 1) = false) :
    dims.map ArrayDim.stride = List.replicate dims.length 1 := by
  rw [List.eq_replicate_iff]
  refine ⟨by simp, ?_⟩
  intro s hs
  obtain ⟨d, hd, rfl⟩ := List.mem_map.mp hs
  simpa using List.any_eq_false.mp h d hd

end

/-! ## The library -/

def Var.readAs (v : Var) : NcType :=
  match v.type with
  | .enum _ _ base _ => .atomic base
  | type => type

/-- A call with this type in memory leaves the values as they are in the file, as so many bytes. -/
def Var.LeavesBytes (v : Var) : MemType → Prop
  | .native => ∃ t, v.readAs = .atomic t ∧ t ≠ .string
  | .text => v.type = .atomic .char
  | _ => False

/-- The library reads the hyperslabs of `f`, whose values have the bytes `cell`, in row-major order. -/
structure Delivers (f : NcFile) (cell : Nat → List Int → List UInt8) (lib : (c : NcAccess) → NcReply c.Out) :
    Prop where
  vara {ncid varid room : Nat} {v : Var} {cor edg : List Nat} {mem : MemType} :
    f.vars[varid]? = some v → v.LeavesBytes mem →
    SlabWithin (f.lengths v) cor edg (List.replicate edg.length 1) →
    ((hyperslab cor edg (List.replicate edg.length 1)).flatMap (cell varid)).length ≤ room →
    lib (.ncGetVara ncid varid cor edg mem room) =
      .ok ⟨(hyperslab cor edg (List.replicate edg.length 1)).flatMap (cell varid), []⟩
  vars {ncid varid room : Nat} {v : Var} {cor edg : List Nat} {step : List Int} {mem : MemType} :
    f.vars[varid]? = some v → v.LeavesBytes mem → SlabWithin (f.lengths v) cor edg step →
    ((hyperslab cor edg step).flatMap (cell varid)).length ≤ room →
    lib (.ncGetVars ncid varid cor edg step mem room) = .ok ⟨(hyperslab cor edg step).flatMap (cell varid), []⟩

/-- Both ways to read a slab. -/
theorem Delivers.eval_getSlab {f : NcFile} {cell : Nat → List Int → List UInt8}
    {lib : (c : NcAccess) → NcReply c.Out} (h : Delivers f cell lib) {varid room : Nat} {v : Var}
    (hv : f.vars[varid]? = some v) {mem : MemType} (hmem : v.LeavesBytes mem) {slab : Slab} {step : List Int}
    (hstep : (if slab.hasStride then slab.step else List.replicate slab.edg.length 1) = step)
    (hwithin : SlabWithin (f.lengths v) slab.cor slab.edg step)
    (hroom : ((hyperslab slab.cor slab.edg step).flatMap (cell varid)).length ≤ room) (ncid : Nat)
    (e : Int → NcError) :
    Throwing.eval lib (getSlab ncid varid slab mem room e) =
      .ok ⟨(hyperslab slab.cor slab.edg step).flatMap (cell varid), []⟩ := by
  subst hstep
  unfold getSlab
  cases hstride : slab.hasStride with
  | true =>
      rw [hstride] at hwithin hroom
      exact eval_accOrThrow_ok e (h.vars hv hmem hwithin hroom)
  | false =>
      rw [hstride] at hwithin hroom
      exact eval_accOrThrow_ok e (h.vara hv hmem hwithin hroom)

/-- A library that has `f` open, with these values, and reads whatever it is asked for. -/
def NcFile.serveCells (f : NcFile) (cell : Nat → List Int → List UInt8) : (c : NcAccess) → NcReply c.Out
  | .inquire q => f.answer q
  | .ncGetVara _ varid cor edg _ _ =>
    .ok ⟨(hyperslab cor edg (List.replicate edg.length 1)).flatMap (cell varid), []⟩
  | .ncGetVars _ varid cor edg step _ _ => .ok ⟨(hyperslab cor edg step).flatMap (cell varid), []⟩
  | .ncGetVar .. | .ncGetVar1 .. | .ncGetAtt .. => .fail ncENotVar NcData.empty
  | .ncFreeString _ => .ok ()

theorem reports_serveCells {f : NcFile} {cell : Nat → List Int → List UInt8} : Reports f (f.serveCells cell) :=
  fun _ => rfl

theorem delivers_serveCells {f : NcFile} {cell : Nat → List Int → List UInt8} :
    Delivers f cell (f.serveCells cell) :=
  ⟨fun _ _ _ _ => rfl, fun _ _ _ _ => rfl⟩

end Skunk.NetCDF
