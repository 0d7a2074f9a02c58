import Mathlib.Data.Int.Interval
import Mathlib.Data.Set.Card
import Mathlib.Tactic.Linarith
import Skunk.Container.RowMajor
import Skunk.NetCDF.Readers

/-!
# What a constraint selects

DAP gives a constraint on a dimension by its first index, its last and the distance between them; netCDF
wants the first index, the distance and how many there are. `format_constraint` goes from one to the
other, with an empty dimension given by a last index of `-1`.

It does so in `int`s, which are too small for the indices of a long dimension
(`formatConstraint_selects_iff`).
-/

namespace Skunk.NetCDF

open Skunk.Container Skunk.Effect

/-! ## Hyperslabs -/

/-- The indices along one dimension: `edg` of them, `step` apart. -/
def axis (cor edg : Nat) (step : Int) : List Int := (List.range edg).map fun k : Nat => cor + k * step

/-- The indices along each dimension. -/
def axes : List Nat → List Nat → List Int → List (List Int)
  | c :: cor, e :: edg, s :: step => axis c e s :: axes cor edg step
  | _, _, _ => []

/-- The index tuples that netCDF visits, in its order. -/
def hyperslab (cor edg : List Nat) (step : List Int) : List (List Int) := rowMajor (axes cor edg step)

theorem mem_axis {cor edg : Nat} {step i : Int} : i ∈ axis cor edg step ↔ ∃ k < edg, cor + k * step = i := by
  simp only [axis, List.mem_map, List.mem_range]

theorem length_axis (cor edg : Nat) (step : Int) : (axis cor edg step).length = edg := by
  rw [axis, List.length_map, List.length_range]

theorem nodup_axis (cor edg : Nat) {step : Int} (hstep : step ≠ 0) : (axis cor edg step).Nodup := by
  apply List.nodup_range.map
  intro k k' heq
  have hmul : (k : Int) * step = k' * step := add_left_cancel heq
  exact Int.ofNat.inj (Int.eq_of_mul_eq_mul_right hstep hmul)

/-! ## Constraints -/

/-- A constraint that libdap admits: it is within the dimension, or the dimension is empty. -/
def ArrayDim.Admitted (d : ArrayDim) : Prop :=
  0 ≤ d.start ∧ d.start ≤ d.stop ∧ d.stop < d.size ∧ 1 ≤ d.stride ∨
    d.size = 0 ∧ d.start = 0 ∧ d.stop = -1 ∧ d.stride = 1

instance (d : ArrayDim) : Decidable d.Admitted := inferInstanceAs (Decidable (_ ∨ _))

/-- The size of the dimension and the stride are `int`s. -/
def ArrayDim.IsInt (d : ArrayDim) : Prop := d.size < 2 ^ 31 ∧ d.stride < 2 ^ 31

instance (d : ArrayDim) : Decidable d.IsInt := inferInstanceAs (Decidable (_ ∧ _))

/-- An index that the constraint selects. -/
def ArrayDim.Selects (d : ArrayDim) (i : Int) : Prop := ∃ k : Nat, i = d.start + k * d.stride ∧ i ≤ d.stop

def ArrayDim.count (d : ArrayDim) : Nat := ((d.stop - d.start) / d.stride + 1).toNat

def ArrayDim.indices (d : ArrayDim) : List Int := axis d.start.toNat d.count d.stride

section
variable {d : ArrayDim}

theorem ArrayDim.Admitted.stride_pos (h : d.Admitted) : 1 ≤ d.stride := by
  obtain ⟨-, -, -, h⟩ | ⟨-, -, -, h⟩ := h
  · exact h
  · exact h.ge

theorem ArrayDim.Admitted.start_nonneg (h : d.Admitted) : 0 ≤ d.start := by
  obtain ⟨h, -⟩ | ⟨-, h, -⟩ := h
  · exact h
  · exact h.ge

theorem ArrayDim.Admitted.le_stop (h : d.Admitted) : d.start - 1 ≤ d.stop ∧ d.stop < d.size := by
  obtain hwithin | hempty := h <;> omega

/-- An index is selected if it is one of the first `count`. -/
theorem ArrayDim.Admitted.le_stop_iff (h : d.Admitted) (k : Nat) :
    d.start + k * d.stride ≤ d.stop ↔ k < d.count := by
  have hpos := h.stride_pos
  have hle := h.le_stop.1
  have hquot : (k : Int) ≤ (d.stop - d.start) / d.stride ↔ k * d.stride ≤ d.stop - d.start :=
    Int.le_ediv_iff_mul_le (by omega)
  rw [ArrayDim.count]
  omega

theorem ArrayDim.Admitted.mem_indices (h : d.Admitted) {i : Int} : i ∈ d.indices ↔ d.Selects i := by
  have hstart := Int.toNat_of_nonneg h.start_nonneg
  rw [ArrayDim.indices, mem_axis, hstart]
  constructor
  · rintro ⟨k, hk, rfl⟩
    exact ⟨k, rfl, (h.le_stop_iff k).mpr hk⟩
  · rintro ⟨k, rfl, hle⟩
    exact ⟨k, (h.le_stop_iff k).mp hle, rfl⟩

theorem ArrayDim.length_indices (d : ArrayDim) : d.indices.length = d.count := length_axis _ _ _

theorem ArrayDim.Admitted.nodup_indices (h : d.Admitted) : d.indices.Nodup := by
  have hpos := h.stride_pos
  exact nodup_axis _ _ (by omega)

/-- There are no more selected indices than the dimension has. -/
theorem ArrayDim.Admitted.count_le (h : d.Admitted) : d.count ≤ d.size := by
  by_contra hlt
  have hpos := h.stride_pos
  have hlast := (h.le_stop_iff d.size).mpr (by omega)
  have hmul : (d.size : Int) ≤ d.size * d.stride := le_mul_of_one_le_right (Int.natCast_nonneg _) hpos
  have hstart := h.start_nonneg
  have hstop := h.le_stop.2
  omega

/-- Nothing is selected of an empty dimension only. -/
theorem ArrayDim.Admitted.count_pos_iff (h : d.Admitted) : 0 < d.count ↔ d.size ≠ 0 := by
  rw [← h.le_stop_iff 0]
  obtain hwithin | hempty := h
  · simp
    omega
  · simp
    omega

end

/-! ## The `int`s of `format_constraint` -/

theorem toInt_bounds (x : Int) : -2 ^ 31 ≤ toInt x ∧ toInt x < 2 ^ 31 :=
  ⟨Int.le_bmod (by decide), Int.bmod_lt (by decide)⟩

theorem toInt_eq {x : Int} (hle : -2 ^ 31 ≤ x) (hlt : x < 2 ^ 31) : toInt x = x :=
  Int.bmod_eq_of_le (by omega) (by omega)

theorem toInt_emod (x : Int) : toInt x % 2 ^ 32 = x % 2 ^ 32 := Int.bmod_emod

theorem toInt_sub_toInt (x y : Int) : toInt (toInt x - toInt y) = toInt (x - y) := by
  rw [toInt, toInt, toInt, Int.bmod_sub_bmod, Int.sub_bmod_bmod, toInt]

/-- A `size_t` below `2 ^ 63` comes from the number that it is. -/
theorem eq_of_toSizeT {x : Int} {n : Nat} (h : toSizeT x = n) (hbounds : -2 ^ 31 ≤ x ∧ x < 2 ^ 31)
    (hn : n < 2 ^ 63) : x = n := by
  rw [toSizeT] at h
  omega

theorem toSizeT_natCast {n : Nat} (h : n < 2 ^ 31) : toSizeT (n : Int) = n := by
  rw [toSizeT]
  omega

/-- The division of the loop can be made. -/
def ArrayDim.Divides (d : ArrayDim) : Prop :=
  toInt d.stride ≠ 0 ∧ ¬ (toInt d.stride = -1 ∧ toInt (d.stop - d.start) = -2 ^ 31)

instance (d : ArrayDim) : Decidable d.Divides := inferInstanceAs (Decidable (_ ∧ _))

def ArrayDim.quotient (d : ArrayDim) : Int := Int.tdiv (toInt (d.stop - d.start)) (toInt d.stride)

/-- What a round of the loop writes. -/
def ArrayDim.written (d : ArrayDim) : SlabDim :=
  ⟨toSizeT (toInt d.start), toSizeT (toInt (d.quotient + 1)), toInt d.stride⟩

/-- The indices that netCDF then visits. -/
def ArrayDim.visited (d : ArrayDim) : List Int := axis d.written.cor d.written.edg d.written.step

section
variable {d : ArrayDim} {dims : List ArrayDim}

theorem ArrayDim.format_eq (d : ArrayDim) : d.format = if d.Divides then .ok d.written else .error .undefined := by
  have hiff : ¬ (toInt d.stride = 0 ∨ toInt d.stride = -1 ∧ toInt (d.stop - d.start) = -2 ^ 31) ↔ d.Divides :=
    not_or
  unfold ArrayDim.format edge
  dsimp only
  rw [toInt_sub_toInt]
  by_cases hd : d.Divides
  · rw [if_neg (hiff.mpr hd), if_pos hd]
    rfl
  · rw [if_pos (not_not.mp fun hno => hd (hiff.mp hno)), if_neg hd]
    rfl

theorem mapM_format (h : ∀ d ∈ dims, d.Divides) : dims.mapM ArrayDim.format = .ok (dims.map ArrayDim.written) := by
  induction dims with
  | nil => rfl
  | cons d dims ih =>
      obtain ⟨hd, hdims⟩ := List.forall_mem_cons.mp h
      rw [List.mapM_cons, d.format_eq, if_pos hd, ih hdims]
      rfl

theorem divides_of_mapM {written : List SlabDim} (h : dims.mapM ArrayDim.format = .ok written) :
    ∀ d ∈ dims, d.Divides := by
  induction dims generalizing written with
  | nil => simp
  | cons d dims ih =>
      rw [List.mapM_cons, d.format_eq] at h
      split at h
      next hd =>
        cases hrest : dims.mapM ArrayDim.format with
        | error e => simp [hrest] at h
        | ok rest => exact List.forall_mem_cons.mpr ⟨hd, ih hrest⟩
      · cases h

/-- The slab that `format_constraint` writes. -/
def slabWritten (capacity : Nat) (dims : List ArrayDim) : Slab :=
  ⟨capacity, dims.map fun d => d.written.cor, dims.map fun d => d.written.edg, dims.map fun d => d.written.step,
    dims.any fun d => toInt d.stride ≠ 1⟩

/-- The loop of `format_constraint` multiplies in a `long`, so its result is right up to `2 ^ 64`. -/
theorem foldl_toLong (counts : List Nat) (n : Int) :
    counts.foldl (fun (nels : Int) (count : Nat) => toLong (nels * count)) (toLong n) =
      toLong (n * counts.prod) := by
  induction counts generalizing n with
  | nil => rw [List.foldl_nil, List.prod_nil, Nat.cast_one, mul_one]
  | cons count counts ih =>
      have hmul : toLong (toLong n * count) = toLong (n * count) := Int.bmod_mul_bmod
      rw [List.foldl_cons, hmul, ih, List.prod_cons, Nat.cast_mul, mul_assoc]

theorem toLong_of_lt {n : Nat} (h : n < 2 ^ 63) : toLong n = n := by
  rw [toLong, Int.bmod_eq_of_le (by omega) (by omega)]

theorem toLong_one : toLong 1 = 1 := by decide

theorem formatConstraint_written (h : ∀ d ∈ dims, d.Divides) (capacity : Nat) :
    formatConstraint capacity dims =
      .ok (slabWritten capacity dims, toLong ((dims.map fun d => d.written.edg).prod : Nat)) := by
  have hfold := foldl_toLong (dims.map fun d => d.written.edg) 1
  rw [one_mul, toLong_one, List.foldl_map] at hfold
  rw [formatConstraint, mapM_format h, slabWritten]
  simp only [List.map_map, List.any_map, List.foldl_map, Function.comp_def, hfold, ok_bind]
  rfl

theorem toInt_toLong (n : Int) : toInt (toLong n) = toInt n :=
  Int.bmod_bmod_of_dvd (by decide)

theorem toInt_toSizeT (n : Int) : toInt (toSizeT n) = toInt n := by
  have hnonneg : 0 ≤ n % 2 ^ 64 := Int.emod_nonneg n (by decide)
  have hmod : n % 2 ^ 64 % ((2 ^ 32 : Nat) : Int) = n % ((2 ^ 32 : Nat) : Int) :=
    Int.emod_emod_of_dvd n (by decide)
  rw [toSizeT, Int.toNat_of_nonneg hnonneg, toInt, toInt, ← Int.emod_bmod, hmod, Int.emod_bmod]

theorem toInt_toInt (n : Int) : toInt (toInt n) = toInt n := Int.bmod_bmod

/-- As `int`s, factors may be taken as `int`s. -/
theorem toInt_prod_map {α : Type} {g h : α → Nat} (l : List α) (hgh : ∀ a ∈ l, toInt (g a) = toInt (h a)) :
    toInt ((l.map g).prod : Nat) = toInt ((l.map h).prod : Nat) := by
  induction l with
  | nil => rfl
  | cons a l ih =>
      obtain ⟨ha, hl⟩ := List.forall_mem_cons.mp hgh
      have hleft : ∀ x y : Int, toInt (toInt x * y) = toInt (x * y) := fun x y => Int.bmod_mul_bmod
      have hright : ∀ x y : Int, toInt (x * toInt y) = toInt (x * y) := fun x y => Int.mul_bmod_bmod
      rw [List.map_cons, List.map_cons, List.prod_cons, List.prod_cons, Nat.cast_mul, Nat.cast_mul,
        ← hleft, ← hright, ha, ih hl, hright, hleft]

/-- An array that nobody constrained, of any size: the count is the product of the sizes, as an `int`. -/
theorem formatConstraint_whole (capacity : Nat) (sizes : List Nat) :
    ∃ slab nels, formatConstraint capacity (sizes.map fun n => .whole n "") = .ok (slab, nels) ∧
      slab.capacity = capacity ∧ toInt nels = toInt (sizes.prod : Nat) := by
  have hone : toInt 1 = 1 := by decide
  have hdivides : ∀ d ∈ sizes.map fun n => ArrayDim.whole n "", d.Divides := by
    intro d hd
    obtain ⟨n, -, rfl⟩ := List.mem_map.mp hd
    rw [ArrayDim.Divides, show (ArrayDim.whole n "").stride = 1 from rfl, hone]
    omega
  refine ⟨_, _, formatConstraint_written hdivides capacity, rfl, ?_⟩
  rw [toInt_toLong, List.map_map]
  conv_rhs => rw [← List.map_id sizes]
  apply toInt_prod_map
  intro n _
  have hquotient : (ArrayDim.whole n "").quotient = toInt ((n : Int) - 1) := by
    rw [ArrayDim.quotient, show (ArrayDim.whole n "").stride = 1 from rfl, hone, Int.tdiv_one]
    show toInt ((n : Int) - 1 - 0) = _
    rw [Int.sub_zero]
  show toInt (toSizeT (toInt ((ArrayDim.whole n "").quotient + 1))) = toInt (n : Int)
  rw [toInt_toSizeT, toInt_toInt, hquotient, toInt, toInt, Int.bmod_add_bmod, Int.sub_add_cancel, toInt]

theorem hyperslab_slabWritten (capacity : Nat) (dims : List ArrayDim) :
    hyperslab (slabWritten capacity dims).cor (slabWritten capacity dims).edg (slabWritten capacity dims).step =
      rowMajor (dims.map ArrayDim.visited) := by
  have haxes : axes (dims.map fun d => d.written.cor) (dims.map fun d => d.written.edg)
      (dims.map fun d => d.written.step) = dims.map ArrayDim.visited := by
    induction dims with
    | nil => rfl
    | cons d dims ih =>
        rw [List.map_cons, List.map_cons, List.map_cons, axes, ih]
        rfl
  exact congrArg rowMajor haxes

end

/-! ## Where the `int`s are large enough -/

/-- The `int`s do for this dimension: the corner is one, and the stride, the distance of the last index and the
count are, or only one index is selected and the quotient is zero. -/
def ArrayDim.IntsSuffice (d : ArrayDim) : Prop :=
  d.start < 2 ^ 31 ∧
    (d.stride < 2 ^ 31 ∧ d.stop - d.start < 2 ^ 31 ∧ d.count < 2 ^ 31 ∨
      d.stop - d.start < d.stride ∧ (toInt (d.stop - d.start)).natAbs < (toInt d.stride).natAbs)

instance (d : ArrayDim) : Decidable d.IntsSuffice := inferInstanceAs (Decidable (_ ∧ _))

section
variable {d : ArrayDim}

theorem corner_eq {x : Int} (hnonneg : 0 ≤ x) (hlt : x < 2 ^ 31) : toSizeT (toInt x) = x.toNat := by
  rw [toInt_eq (by omega) hlt, toSizeT]
  omega

theorem axis_one (cor : Nat) (step : Int) : axis cor 1 step = [(cor : Int)] := by
  simp [axis]

/-- Where the numbers are `int`s, what is written is the constraint. -/
theorem ArrayDim.Admitted.written_eq (h : d.Admitted) (hstart : d.start < 2 ^ 31) (hstride : d.stride < 2 ^ 31)
    (hlength : d.stop - d.start < 2 ^ 31) (hcount : d.count < 2 ^ 31) :
    d.written = ⟨d.start.toNat, d.count, d.stride⟩ := by
  have hpos := h.stride_pos
  have hnonneg := h.start_nonneg
  have hle := h.le_stop.1
  have hquotient : d.quotient + 1 = d.count := by
    rw [ArrayDim.quotient, toInt_eq (by omega) hlength, toInt_eq (by omega) hstride, ArrayDim.count]
    obtain ⟨-, hle, -⟩ | ⟨-, hstart, hstop, hone⟩ := h
    · have hdiv : 0 ≤ (d.stop - d.start) / d.stride := Int.ediv_nonneg (by omega) (by omega)
      rw [Int.tdiv_eq_ediv_of_nonneg (by omega)]
      omega
    · rw [hstart, hstop, hone]
      rfl
  have hedg : toSizeT (toInt (d.count : Int)) = d.count := by
    rw [toInt_eq (by omega) (by omega), toSizeT_natCast hcount]
  rw [ArrayDim.written, hquotient, hedg, corner_eq hnonneg hstart, toInt_eq (by omega) hstride]

theorem intsSuffice_of_empty (h : d.Admitted) (hsize : d.size = 0) : d.IntsSuffice := by
  have hle := h.count_le
  obtain hwithin | ⟨-, hstart, hstop, hone⟩ := h
  · omega
  · rw [ArrayDim.IntsSuffice, hstart, hstop, hone]
    exact ⟨by decide, .inl ⟨by decide, by decide, by omega⟩⟩

/-- Where they do, netCDF visits the selected indices. -/
theorem ArrayDim.IntsSuffice.visited_eq (hints : d.IntsSuffice) (h : d.Admitted) : d.visited = d.indices := by
  obtain ⟨hstart, ⟨hstride, hlength, hcount⟩ | ⟨hone, hzero⟩⟩ := hints
  · rw [ArrayDim.visited, h.written_eq hstart hstride hlength hcount]
    rfl
  · have hpos := h.stride_pos
    have hnonneg := h.start_nonneg
    have hquotient : d.quotient = 0 := by
      apply Int.natAbs_eq_zero.mp
      rw [ArrayDim.quotient, Int.natAbs_tdiv]
      exact Nat.div_eq_of_lt hzero
    have hwithin : d.start ≤ d.stop := by
      obtain ⟨-, hle, -⟩ | ⟨-, hstart, hstop, hone⟩ := h
      · exact hle
      · rw [hstart, hstop, hone] at hzero
        exact absurd hzero (by decide)
    have hcount : d.count = 1 := by
      rw [ArrayDim.count, Int.ediv_eq_zero_of_lt (by omega) hone]
      rfl
    have hedg : toSizeT (toInt (0 + 1)) = 1 := by decide
    rw [ArrayDim.visited, ArrayDim.indices, ArrayDim.written, hquotient, hcount, corner_eq hnonneg hstart, hedg,
      axis_one, axis_one]

/-- The edge is the count only if the quotient is one less. -/
theorem quotient_of_edge {n : Nat} (hedge : toSizeT (toInt (d.quotient + 1)) = n) (hpos : 0 < n) (hn : n < 2 ^ 63) :
    d.quotient + 1 = n ∧ n < 2 ^ 31 := by
  have hint := eq_of_toSizeT hedge (toInt_bounds _) hn
  have hle : d.quotient.natAbs ≤ (toInt (d.stop - d.start)).natAbs := Int.natAbs_tdiv_le_natAbs _ _
  have hlength := toInt_bounds (d.stop - d.start)
  have hbounds := toInt_bounds (d.quotient + 1)
  have hmod := toInt_emod (d.quotient + 1)
  omega

/-- One index: it is the corner, and the quotient is zero. -/
theorem intsSuffice_of_visited_one (hdivides : d.Divides) (hnonneg : 0 ≤ d.start) (hwide : d.start < 2 ^ 63)
    (hvisited : d.start ∈ d.visited) (hedge : d.written.edg = 1) (hlength : d.stop - d.start < d.stride) :
    d.IntsSuffice := by
  obtain ⟨k, hk, hcor⟩ := mem_axis.mp hvisited
  rw [hedge] at hk
  obtain rfl : k = 0 := by omega
  have hquotient := (quotient_of_edge hedge (by omega) (by omega)).1
  have hcor : toSizeT (toInt d.start) = d.start.toNat := by
    have hcor : (toSizeT (toInt d.start) : Int) + (0 : Nat) * _ = d.start := hcor
    omega
  have hstart := eq_of_toSizeT hcor (toInt_bounds _) (by omega)
  have hbounds := toInt_bounds d.start
  refine ⟨by omega, .inr ⟨hlength, ?_⟩⟩
  have hzero : (toInt (d.stop - d.start)).natAbs / (toInt d.stride).natAbs = 0 := by
    have hquot : d.quotient.natAbs = 0 := by omega
    rwa [ArrayDim.quotient, Int.natAbs_tdiv] at hquot
  have hpos : 0 < (toInt d.stride).natAbs := Int.natAbs_pos.mpr hdivides.1
  exact (Nat.div_eq_zero_iff_lt hpos).mp hzero

/-- Of two progressions with the same values, one rising, the ends are the same. -/
theorem ends_of_same {a b s t : Int} {n : Nat} (hn : 2 ≤ n) (hs : 0 < s)
    (h : ∀ i, (∃ k < n, a + (k : Nat) * s = i) ↔ ∃ k < n, b + (k : Nat) * t = i) (ht : t ≠ 0) :
    b = a ∧ t = s ∨ b = a + (n - 1) * s ∧ t = -s := by
  obtain ⟨k₁, hk₁, hfirst⟩ := (h a).mp ⟨0, by omega, by simp⟩
  obtain ⟨k₂, hk₂, hlast⟩ := (h (a + ((n - 1 : Nat) : Int) * s)).mp ⟨n - 1, by omega, rfl⟩
  obtain ⟨j₁, hj₁, hcor⟩ := (h b).mpr ⟨0, by omega, by simp⟩
  obtain ⟨j₂, hj₂, hend⟩ := (h (b + ((n - 1 : Nat) : Int) * t)).mpr ⟨n - 1, by omega, rfl⟩
  have hcast : ((n - 1 : Nat) : Int) = n - 1 := by omega
  rw [hcast] at hlast hend
  have hj₁' : (0 : Int) ≤ j₁ * s := mul_nonneg (by omega) hs.le
  have hj₂' : (0 : Int) ≤ j₂ * s := mul_nonneg (by omega) hs.le
  have hj₁'' : (j₁ : Int) * s ≤ (n - 1) * s := mul_le_mul_of_nonneg_right (by omega) hs.le
  have hj₂'' : (j₂ : Int) * s ≤ (n - 1) * s := mul_le_mul_of_nonneg_right (by omega) hs.le
  have hn' : (n : Int) - 1 ≠ 0 := by omega
  rcases lt_or_gt_of_ne ht with hneg | hpos
  · right
    have hk₁' : (n - 1 : Int) * t ≤ k₁ * t := mul_le_mul_of_nonpos_right (by omega) hneg.le
    have hk₂' : (k₂ : Int) * t ≤ 0 := mul_nonpos_of_nonneg_of_nonpos (by omega) hneg.le
    have hb : b = a + (n - 1) * s := by omega
    refine ⟨hb, ?_⟩
    have hmul : ((n : Int) - 1) * t = (n - 1) * -s := by
      rw [mul_neg]
      omega
    exact mul_left_cancel₀ hn' hmul
  · left
    have hk₁' : (0 : Int) ≤ k₁ * t := mul_nonneg (by omega) hpos.le
    have hk₂' : (k₂ : Int) * t ≤ (n - 1) * t := mul_le_mul_of_nonneg_right (by omega) hpos.le
    have hb : b = a := by omega
    refine ⟨hb, ?_⟩
    have hmul : ((n : Int) - 1) * t = (n - 1) * s := by omega
    exact mul_left_cancel₀ hn' hmul

/-- Several indices: the stride is an `int`, and so are the other numbers. -/
theorem intsSuffice_of_visited_many (h : d.Admitted) (hdivides : d.Divides) (hwide : d.size < 2 ^ 63)
    (hmany : 2 ≤ d.count) (hedge : d.written.edg = d.count) (hvisited : ∀ i, i ∈ d.visited ↔ i ∈ d.indices) :
    d.IntsSuffice := by
  have hpos := h.stride_pos
  have hnonneg := h.start_nonneg
  have hle := h.le_stop
  have hcountLe := h.count_le
  obtain ⟨hquotient, hcount⟩ := quotient_of_edge hedge (by omega) (by omega)
  have hsame : ∀ i, (∃ k < d.count, d.start + (k : Nat) * d.stride = i) ↔
      ∃ k < d.count, (toSizeT (toInt d.start) : Int) + (k : Nat) * toInt d.stride = i := by
    intro i
    have hi := hvisited i
    rw [ArrayDim.visited, ArrayDim.indices, hedge, mem_axis, mem_axis, Int.toNat_of_nonneg hnonneg] at hi
    exact hi.symm
  have hlength := toInt_bounds (d.stop - d.start)
  have hmod := toInt_emod (d.stop - d.start)
  have hstartBounds := toInt_bounds d.start
  have hstrideBounds := toInt_bounds d.stride
  rcases ends_of_same hmany hpos hsame hdivides.1 with ⟨hcor, hstride⟩ | ⟨hcor, hstride⟩
  · have hstart : toInt d.start = d.start.toNat := eq_of_toSizeT (by omega) hstartBounds (by omega)
    refine ⟨by omega, .inl ⟨by omega, ?_, hcount⟩⟩
    -- the distance of the last index, as an `int`, has the same quotient
    have hquot : Int.tdiv (toInt (d.stop - d.start)) d.stride = (d.stop - d.start) / d.stride := by
      have hspec : (d.count : Int) = (d.stop - d.start) / d.stride + 1 := by
        have hdiv : 0 ≤ (d.stop - d.start) / d.stride := by
          by_contra hneg
          rw [ArrayDim.count] at hmany
          omega
        rw [ArrayDim.count]
        omega
      rw [ArrayDim.quotient, hstride] at hquotient
      omega
    have hposLength : 0 ≤ toInt (d.stop - d.start) := by
      by_contra hneg
      have hnonpos : 0 ≤ Int.tdiv (-toInt (d.stop - d.start)) d.stride :=
        Int.tdiv_nonneg (by omega) (by omega)
      rw [Int.neg_tdiv] at hnonpos
      rw [ArrayDim.quotient, hstride] at hquotient
      omega
    rw [Int.tdiv_eq_ediv_of_nonneg hposLength] at hquot
    have hlow := Int.emod_add_mul_ediv (toInt (d.stop - d.start)) d.stride
    have hhigh := Int.emod_add_mul_ediv (d.stop - d.start) d.stride
    have hlowBounds := And.intro (Int.emod_nonneg (toInt (d.stop - d.start)) (by omega : d.stride ≠ 0))
      (Int.emod_lt_of_pos (toInt (d.stop - d.start)) (by omega : 0 < d.stride))
    have hhighBounds := And.intro (Int.emod_nonneg (d.stop - d.start) (by omega : d.stride ≠ 0))
      (Int.emod_lt_of_pos (d.stop - d.start) (by omega : 0 < d.stride))
    rw [hquot] at hlow
    omega
  · -- a stride that comes out as its negative is `2 ^ 31`, and the corner is off by that
    exfalso
    have hstrideMod := toInt_emod d.stride
    have hhalf : d.stride = 2 ^ 31 := by omega
    have htwo : d.count ≤ 2 := by
      have habs : d.quotient.natAbs = (toInt (d.stop - d.start)).natAbs / (toInt d.stride).natAbs :=
        Int.natAbs_tdiv _ _
      have hwidth : (-(2 ^ 31) : Int).natAbs = 2 ^ 31 := rfl
      rw [hstride, hhalf, hwidth] at habs
      omega
    have hstartMod := toInt_emod d.start
    have hcount2 : d.count = 2 := by omega
    rw [hcount2, hhalf, toSizeT] at hcor
    omega

/-- Of a dimension that is not empty, netCDF visits the selected indices exactly where the `int`s do. -/
theorem visited_iff_intsSuffice (h : d.Admitted) (hdivides : d.Divides) (hwide : d.size < 2 ^ 63)
    (hsome : d.size ≠ 0) :
    (∀ i, i ∈ d.visited ↔ d.Selects i) ↔ d.IntsSuffice := by
  simp only [← h.mem_indices]
  refine ⟨fun hvisited => ?_, fun hints => by simp [hints.visited_eq h]⟩
  have hperm := (List.perm_ext_iff_of_nodup (nodup_axis _ _ hdivides.1) h.nodup_indices).mpr hvisited
  have hedge : d.written.edg = d.count := by
    have hlength := hperm.length_eq
    rwa [length_axis, d.length_indices] at hlength
  have hcount := h.count_pos_iff.mpr hsome
  have hle := h.le_stop
  rcases Nat.lt_or_ge 1 d.count with hmany | hone
  · exact intsSuffice_of_visited_many h hdivides hwide hmany hedge hvisited
  · have hselected : d.start ∈ d.indices := h.mem_indices.mpr ⟨0, by simp, by
      simpa using (h.le_stop_iff 0).mpr hcount⟩
    have hlength : d.stop - d.start < d.stride := by
      have hnot := (h.le_stop_iff 1).not.mpr (by omega)
      simp only [Nat.cast_one, one_mul] at hnot
      omega
    refine intsSuffice_of_visited_one hdivides h.start_nonneg ?_ ((hvisited _).mpr hselected) (by omega) hlength
    have hfirst := (h.le_stop_iff 0).mpr hcount
    simp only [Nat.cast_zero, zero_mul, add_zero] at hfirst
    omega

end

/-! ## `format_constraint` -/

section
variable {dims : List ArrayDim}

def countAll (dims : List ArrayDim) : Nat := (dims.map ArrayDim.count).prod

def slabOf (capacity : Nat) (dims : List ArrayDim) : Slab :=
  ⟨capacity, dims.map fun d => d.start.toNat, dims.map ArrayDim.count, dims.map ArrayDim.stride,
    dims.any fun d => d.stride ≠ 1⟩

theorem ArrayDim.IsInt.divides {d : ArrayDim} (hint : d.IsInt) (h : d.Admitted) : d.Divides := by
  have hpos := h.stride_pos
  have hstride := hint.2
  rw [ArrayDim.Divides, toInt_eq (by omega) hstride]
  omega

theorem ArrayDim.IsInt.written_eq {d : ArrayDim} (hint : d.IsInt) (h : d.Admitted) :
    d.written = ⟨d.start.toNat, d.count, d.stride⟩ := by
  have hle := h.le_stop
  have hcount := h.count_le
  have hnonneg := h.start_nonneg
  have hsize := hint.1
  exact h.written_eq (by omega) hint.2 (by omega) (by omega)

/-- What `format_constraint` writes and returns where sizes and strides are `int`s. -/
theorem formatConstraint_eq (hdims : ∀ d ∈ dims, d.Admitted) (hints : ∀ d ∈ dims, d.IsInt) (capacity : Nat) :
    formatConstraint capacity dims = .ok (slabOf capacity dims, toLong (countAll dims)) := by
  have hmap : ∀ {α : Type} (g : SlabDim → α),
      dims.map (fun d => g d.written) = dims.map fun d => g ⟨d.start.toNat, d.count, d.stride⟩ := by
    intro α g
    exact List.map_congr_left fun d hd => congrArg g ((hints d hd).written_eq (hdims d hd))
  have hstride : (dims.any fun d => toInt d.stride ≠ 1) = dims.any fun d => d.stride ≠ 1 := by
    rw [Bool.eq_iff_iff]
    simp only [List.any_eq_true, decide_eq_true_eq]
    refine exists_congr fun d => and_congr_right fun hd => ?_
    have hpos := (hdims d hd).stride_pos
    rw [toInt_eq (by omega) (hints d hd).2]
  rw [formatConstraint_written fun d hd => (hints d hd).divides (hdims d hd), slabWritten, hstride,
    hmap SlabDim.cor, hmap SlabDim.edg, hmap SlabDim.step]
  rfl

theorem axes_map (dims : List ArrayDim) :
    axes (dims.map fun d => d.start.toNat) (dims.map ArrayDim.count) (dims.map ArrayDim.stride) =
      dims.map ArrayDim.indices := by
  induction dims with
  | nil => rfl
  | cons d dims ih => rw [List.map_cons, List.map_cons, List.map_cons, axes, ih]; rfl

/-- The tuples of selected indices. -/
theorem mem_rowMajor_indices (hdims : ∀ d ∈ dims, d.Admitted) {t : List Int} :
    t ∈ rowMajor (dims.map ArrayDim.indices) ↔ List.Forall₂ ArrayDim.Selects dims t := by
  rw [mem_rowMajor, List.forall₂_map_left_iff]
  induction dims generalizing t with
  | nil => rw [List.forall₂_nil_left_iff, List.forall₂_nil_left_iff]
  | cons d dims ih =>
      obtain ⟨hd, hdims⟩ := List.forall_mem_cons.mp hdims
      simp only [List.forall₂_cons_left_iff, ih hdims, hd.mem_indices]

theorem length_rowMajor_indices (dims : List ArrayDim) :
    (rowMajor (dims.map ArrayDim.indices)).length = countAll dims := by
  rw [length_rowMajor, List.map_map, countAll]
  exact congrArg List.prod (List.map_congr_left fun d _ => d.length_indices)

theorem nodup_rowMajor_indices (hdims : ∀ d ∈ dims, d.Admitted) :
    (rowMajor (dims.map ArrayDim.indices)).Nodup := by
  apply nodup_rowMajor
  intro l hl
  obtain ⟨d, hd, rfl⟩ := List.mem_map.mp hl
  exact (hdims d hd).nodup_indices

theorem ncard_selects {d : ArrayDim} (hd : d.Admitted) : {i | d.Selects i}.ncard = d.count := by
  have hset : {i | d.Selects i} = (d.indices.toFinset : Set Int) := by
    ext i
    rw [List.coe_toFinset]
    exact hd.mem_indices.symm
  rw [hset, Set.ncard_coe_finset, List.toFinset_card_of_nodup hd.nodup_indices, d.length_indices]

theorem ncard_tuples (hdims : ∀ d ∈ dims, d.Admitted) :
    {t | List.Forall₂ ArrayDim.Selects dims t}.ncard = countAll dims := by
  have hset : {t | List.Forall₂ ArrayDim.Selects dims t} =
      ((rowMajor (dims.map ArrayDim.indices)).toFinset : Set (List Int)) := by
    ext t
    rw [List.coe_toFinset]
    exact (mem_rowMajor_indices hdims).symm
  rw [hset, Set.ncard_coe_finset, List.toFinset_card_of_nodup (nodup_rowMajor_indices hdims),
    length_rowMajor_indices]

/-- The tuples of the constraint are selected, each of them once, and counted, and a stride is noticed. -/
structure Formats (dims : List ArrayDim) (slab : Slab) (nels : Int) : Prop where
  tuples : ∀ t, t ∈ hyperslab slab.cor slab.edg slab.step ↔ List.Forall₂ ArrayDim.Selects dims t
  nodup : (hyperslab slab.cor slab.edg slab.step).Nodup
  count : nels = {t | List.Forall₂ ArrayDim.Selects dims t}.ncard
  hasStride : slab.hasStride = true ↔ ∃ d ∈ dims, d.stride ≠ 1

theorem hasStride_slabWritten_iff (capacity : Nat) (dims : List ArrayDim) :
    ((slabWritten capacity dims).hasStride = true ↔ ∃ d ∈ dims, d.stride ≠ 1) ↔
      ((∃ d ∈ dims, d.stride ≠ 1) → ∃ d ∈ dims, toInt d.stride ≠ 1) := by
  have hany : (slabWritten capacity dims).hasStride = true ↔ ∃ d ∈ dims, toInt d.stride ≠ 1 := by
    simp only [slabWritten, List.any_eq_true, decide_eq_true_eq]
  have hback : (∃ d ∈ dims, toInt d.stride ≠ 1) → ∃ d ∈ dims, d.stride ≠ 1 := by
    rintro ⟨d, hd, hne⟩
    refine ⟨d, hd, fun hone => hne ?_⟩
    rw [hone]
    rfl
  rw [hany]
  exact ⟨Iff.mpr, fun h => ⟨hback, h⟩⟩

/-- A tuple of what netCDF visits along each dimension. -/
theorem mem_rowMajor_visited {t : List Int} :
    t ∈ rowMajor (dims.map ArrayDim.visited) ↔ List.Forall₂ (fun d i => i ∈ d.visited) dims t := by
  rw [mem_rowMajor, List.forall₂_map_left_iff]

/-- The same tuples are visited as selected exactly if one of the dimensions is empty or the `int`s do for all. -/
theorem visited_tuples_iff (hdims : ∀ d ∈ dims, d.Admitted) (hwide : ∀ d ∈ dims, d.size < 2 ^ 63)
    (hdivides : ∀ d ∈ dims, d.Divides) :
    (∀ t, t ∈ rowMajor (dims.map ArrayDim.visited) ↔ List.Forall₂ ArrayDim.Selects dims t) ↔
      (∃ d ∈ dims, d.size = 0) ∨ ∀ d ∈ dims, d.IntsSuffice := by
  by_cases hempty : ∃ d ∈ dims, d.size = 0
  · -- an empty dimension leaves no tuple on either side
    rw [or_iff_left_of_imp fun _ => hempty, iff_true_right hempty]
    obtain ⟨d, hd, hsize⟩ := hempty
    have hnone : d.indices = [] := by
      have hle := (hdims d hd).count_le
      rw [List.eq_nil_iff_length_eq_zero, d.length_indices]
      omega
    have hvisited : d.visited = [] := by
      rw [(intsSuffice_of_empty (hdims d hd) hsize).visited_eq (hdims d hd), hnone]
    intro t
    rw [← mem_rowMajor_indices hdims, rowMajor_eq_nil (List.mem_map.mpr ⟨d, hd, hvisited⟩),
      rowMajor_eq_nil (List.mem_map.mpr ⟨d, hd, hnone⟩)]
  · rw [or_iff_right hempty]
    have hsome : ∀ d ∈ dims, d.size ≠ 0 := fun d hd hsize => hempty ⟨d, hd, hsize⟩
    constructor
    · intro hall d hd
      apply (visited_iff_intsSuffice (hdims d hd) (hdivides d hd) (hwide d hd) (hsome d hd)).mp
      simp only [mem_rowMajor_visited] at hall
      refine forall_iff_of_forall₂_iff hall (fun d hd => ⟨d.start, 0, by simp, ?_⟩) d hd
      have hfirst := ((hdims d hd).le_stop_iff 0).mpr ((hdims d hd).count_pos_iff.mpr (hsome d hd))
      simpa using hfirst
    · intro hints t
      rw [← mem_rowMajor_indices hdims,
        List.map_congr_left fun d hd => (hints d hd).visited_eq (hdims d hd)]

/-- `format_constraint` writes and returns what is right for the constraint exactly where the quotients exist,
a stride that is not one does not become one, and the `int`s do for every dimension, or one is empty. -/
theorem formatConstraint_selects_iff (hdims : ∀ d ∈ dims, d.Admitted) (hwide : ∀ d ∈ dims, d.size < 2 ^ 63)
    (hfits : (dims.map fun d => {i | d.Selects i}.ncard).prod < 2 ^ 63) (capacity : Nat) :
    (∃ slab nels, formatConstraint capacity dims = .ok (slab, nels) ∧ Formats dims slab nels) ↔
      (∀ d ∈ dims, d.Divides) ∧ ((∃ d ∈ dims, d.stride ≠ 1) → ∃ d ∈ dims, toInt d.stride ≠ 1) ∧
        ((∃ d ∈ dims, d.size = 0) ∨ ∀ d ∈ dims, d.IntsSuffice) := by
  have hcounts : (dims.map fun d => {i | d.Selects i}.ncard) = dims.map ArrayDim.count :=
    List.map_congr_left fun d hd => ncard_selects (hdims d hd)
  rw [hcounts] at hfits
  by_cases hdivides : ∀ d ∈ dims, d.Divides
  case neg =>
    refine iff_of_false ?_ fun h => hdivides h.1
    rintro ⟨slab, nels, hformat, -⟩
    obtain ⟨written, hwritten, -⟩ := bind_eq_ok.mp hformat
    exact hdivides (divides_of_mapM hwritten)
  rw [and_iff_right hdivides, ← visited_tuples_iff hdims hwide hdivides,
    ← hasStride_slabWritten_iff capacity dims, formatConstraint_written hdivides]
  constructor
  · rintro ⟨slab, nels, hformat, hright⟩
    obtain ⟨rfl, rfl⟩ := Prod.mk.inj (Except.ok.inj hformat)
    have htuples := hright.tuples
    rw [hyperslab_slabWritten] at htuples
    exact ⟨hright.hasStride, htuples⟩
  · rintro ⟨hstride, htuples⟩
    have hnodup : (rowMajor (dims.map ArrayDim.visited)).Nodup := by
      apply nodup_rowMajor
      intro l hl
      obtain ⟨d, hd, rfl⟩ := List.mem_map.mp hl
      exact nodup_axis _ _ (hdivides d hd).1
    -- the same tuples, each of them once: there are as many
    have hlength : (dims.map fun d => d.written.edg).prod = countAll dims := by
      have hperm := (List.perm_ext_iff_of_nodup hnodup (nodup_rowMajor_indices hdims)).mpr fun t =>
        (htuples t).trans (mem_rowMajor_indices hdims).symm
      rw [← length_rowMajor_indices, ← hperm.length_eq, length_rowMajor, List.map_map]
      exact congrArg List.prod (List.map_congr_left fun d _ => (length_axis _ _ _).symm)
    refine ⟨_, _, rfl, ?_, ?_, ?_, hstride⟩
    · rw [hyperslab_slabWritten]
      exact htuples
    · rw [hyperslab_slabWritten]
      exact hnodup
    · rw [ncard_tuples hdims, hlength]
      exact toLong_of_lt hfits

/-- Three indices of one dimension with none of an empty one. -/
theorem formatConstraint_selects_empty :
    (∃ slab nels, formatConstraint 1024 [⟨10, "x", 1, 3, 8⟩, .whole 0 "y"] = .ok (slab, nels) ∧
        Formats [⟨10, "x", 1, 3, 8⟩, .whole 0 "y"] slab nels) ↔
      (∀ d ∈ [⟨10, "x", 1, 3, 8⟩, ArrayDim.whole 0 "y"], d.Divides) ∧
        ((∃ d ∈ [⟨10, "x", 1, 3, 8⟩, ArrayDim.whole 0 "y"], d.stride ≠ 1) →
          ∃ d ∈ [⟨10, "x", 1, 3, 8⟩, ArrayDim.whole 0 "y"], toInt d.stride ≠ 1) ∧
        ((∃ d ∈ [⟨10, "x", 1, 3, 8⟩, ArrayDim.whole 0 "y"], d.size = 0) ∨
          ∀ d ∈ [⟨10, "x", 1, 3, 8⟩, ArrayDim.whole 0 "y"], d.IntsSuffice) := by
  have hdims : ∀ d ∈ [⟨10, "x", 1, 3, 8⟩, ArrayDim.whole 0 "y"], d.Admitted := by decide
  refine formatConstraint_selects_iff hdims (by decide) ?_ 1024
  rw [List.map_congr_left fun d hd => ncard_selects (hdims d hd)]
  decide

/-- The last index of a dimension of `2 ^ 31 + 1`: its `int` is negative, and so is the corner. -/
theorem formatConstraint_long :
    (∀ d ∈ [⟨2 ^ 31 + 1, "x", 2 ^ 31, 1, 2 ^ 31⟩], ArrayDim.Admitted d) ∧
      formatConstraint 1024 [⟨2 ^ 31 + 1, "x", 2 ^ 31, 1, 2 ^ 31⟩] =
        .ok (⟨1024, [2 ^ 64 - 2 ^ 31], [1], [1], false⟩, 1) ∧
      ¬ ∃ slab nels, formatConstraint 1024 [⟨2 ^ 31 + 1, "x", 2 ^ 31, 1, 2 ^ 31⟩] = .ok (slab, nels) ∧
        Formats [⟨2 ^ 31 + 1, "x", 2 ^ 31, 1, 2 ^ 31⟩] slab nels := by
  refine ⟨by decide, rfl, ?_⟩
  rintro ⟨slab, nels, hformat, hright⟩
  obtain ⟨rfl, rfl⟩ := Prod.mk.inj (Except.ok.inj hformat)
  have hselected : List.Forall₂ ArrayDim.Selects [⟨2 ^ 31 + 1, "x", 2 ^ 31, 1, 2 ^ 31⟩] [2 ^ 31] :=
    .cons ⟨0, rfl, by decide⟩ .nil
  exact absurd ((hright.tuples _).mpr hselected) (by decide)

end

end Skunk.NetCDF
