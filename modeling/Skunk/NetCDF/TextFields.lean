import Skunk.NetCDF.ArrayRoom
import Skunk.NetCDF.Offsets

/-!
# Text in a compound

A field of characters or of strings becomes a string of the Structure, or an array of strings, and is read by
code that was written for whole variables. `do_cardinal_array_read` takes the length of a row from the outer
variable, frees pointers from the beginning of the buffer, and in an array of compounds the count is that of
the whole array. A string alone gets bytes of the buffer as they are, where `val2buf` expects a `std::string`.
-/

namespace Skunk.NetCDF

open Skunk.Effect

/-! ## The fields of a compound -/

/-- An atomic field: where it is among the members and in the buffer. `count` is the number of elements that
the readers take of an array, and `capacity` the size of the hyperslab arrays that they have for it. -/
structure FieldLeaf where
  path : List Hop
  type : AtomicType
  sizes : List Nat
  offset : Nat
  count : Int
  capacity : Nat
  deriving DecidableEq, Repr

namespace FieldLeaf

def under (hops : List Hop) (l : FieldLeaf) : FieldLeaf := { l with path := hops ++ l.path }

/-- The field is one variable to DAP. -/
def IsScalar (l : FieldLeaf) : Prop := IsScalarField (.atomic l.type) l.sizes

instance (l : FieldLeaf) : Decidable l.IsScalar := inferInstanceAs (Decidable (IsScalarField _ _))

/-- The field is text: an array of characters, or strings. -/
def IsText (l : FieldLeaf) : Prop := l.type = .char ∧ l.sizes ≠ [] ∨ l.type = .string

instance (l : FieldLeaf) : Decidable l.IsText := inferInstanceAs (Decidable (_ ∧ _ ∨ _))

def IsStrings (l : FieldLeaf) : Prop := l.type = .string ∧ l.sizes ≠ []

instance (l : FieldLeaf) : Decidable l.IsStrings := inferInstanceAs (Decidable (_ ∧ _))

/-- How many DAP strings there are for the field. -/
def strings (l : FieldLeaf) : Nat := if l.IsScalar then 1 else l.sizes.prod

/-- How many strings the field holds: the last dimension of characters is the length of a string. -/
def texts (l : FieldLeaf) : Nat := if l.type = .char then l.sizes.dropLast.prod else l.sizes.prod

/-- What `val2buf` should get for the field: its rows of characters, or its pointers. -/
def text (l : FieldLeaf) : Stored :=
  if l.type = .char then .rows l.offset l.texts (l.sizes.getLast?.getD 1) else .pointers l.offset l.texts

/-- Byte `i` of the buffer starts a pointer of the field. -/
def Owns (l : FieldLeaf) (i : Nat) : Prop := ∃ k < l.sizes.prod, i = l.offset + 8 * k

end FieldLeaf

/-- What the readers take of an array that is handed on to a Structure's loop. -/
def ownShape (sizes : List Nat) : Int × Nat := (toInt (sizes.prod : Nat), sizes.length)

/-- The atomic fields of a compound that starts at `base`; `shape` is what the loop takes of an array. -/
def fieldLeaves (shape : List Nat → Int × Nat) (base : Nat) : NcFields → List FieldLeaf
  | .nil => []
  | .cons fieldName offset (.atomic t) sizes rest =>
    ⟨[.member fieldName], t, sizes, base + offset, (shape sizes).1, (shape sizes).2⟩ ::
      fieldLeaves shape base rest
  | .cons _ offset (.compound _ typeName _ fields) _ rest =>
    (fieldLeaves ownShape (base + offset) fields).map (FieldLeaf.under [.member typeName]) ++
      fieldLeaves shape base rest
  | .cons _ _ _ _ rest => fieldLeaves shape base rest

/-- Those of `n` elements of this size: the count is that of the elements. -/
def elementLeaves (n size capacity : Nat) (fields : NcFields) : List FieldLeaf :=
  (List.range n).flatMap fun i =>
    (fieldLeaves (fun _ => (toInt n, capacity)) (i * size) fields).map (FieldLeaf.under [.element i])

/-! ## Reading right -/

/-- The pointers that a call frees. -/
def freeCount : NcAccess → Option Int
  | .ncFreeString n => some n
  | _ => none

/-- The fill is the one for the field; if that is text, it is the field's text, and there are as many DAP
strings as texts. -/
def FieldLeaf.Gets (l : FieldLeaf) (fill : Fill) : Prop :=
  fill.path = l.path ∧ (l.IsText → fill.stored = l.text ∧ l.strings = l.texts)

/-- A call that frees `n` pointers from the beginning of the buffer frees only those of the field. -/
def FieldLeaf.FreesOwn (l : FieldLeaf) (n : Int) : Prop := ∀ k : Nat, (k : Int) < n → l.Owns (8 * k)

/-- Every field finds its own member, which gets the field once; the text fields get their text. The calls
that free strings are those for the arrays of strings, and each frees only what belongs to its field. -/
def ReadsText (type : NcType) (this : BaseType) (d : NcData) (leaves : List FieldLeaf)
    (r : Except NcError Values) (freed : List Int) : Prop :=
  Finds type this ∧ ∃ fills, r = .ok (some d, fills) ∧ List.Forall₂ FieldLeaf.Gets leaves fills ∧
    List.Forall₂ FieldLeaf.FreesOwn (leaves.filter (·.IsStrings)) freed

/-- The readers can make text of this field, for an outer variable of this rank with a last dimension of this
length: the field is an array to DAP, and
- strings start at the beginning of the buffer, and all of them are taken;
- characters are in rows as long as the last dimension of the variable, and each row is one DAP string. -/
def FieldLeaf.Arrives (rank : Nat) (width : Int) (l : FieldLeaf) : Prop :=
  match l.type with
  | .char => l.sizes ≠ [] → ¬ l.IsScalar ∧ l.offset < 2 ^ 31 ∧ l.count = l.texts ∧ l.strings = l.texts ∧
      2 ≤ rank ∧ rank ≤ l.capacity ∧ width = (l.sizes.getLast?.getD 1 : Nat)
  | .string => l.sizes ≠ [] ∧ l.offset < 2 ^ 31 ∧ l.count = l.texts ∧ (l.offset = 0 ∨ l.texts = 0)
  | _ => True

/-! ## What the readers do -/

namespace FieldLeaf

/-- The readers do not throw at this field. -/
def Readable (rank : Nat) (l : FieldLeaf) : Prop :=
  l.type = .char → ¬ l.IsScalar → 2 ≤ rank ∧ rank ≤ l.capacity

/-- What the readers store for this field. -/
def Took (width : Int) (l : FieldLeaf) (fill : Fill) : Prop :=
  fill.path = l.path ∧
    if l.IsScalar then ∃ o, fill.stored = .raw o
    else (l.type = .char → fill.stored = .rows (toInt l.offset) l.count width) ∧
      (l.type = .string → fill.stored = .pointers (toInt l.offset) l.count)

/-- The strings that they free after it. -/
def frees (l : FieldLeaf) : List Int := if l.IsStrings then [l.count] else []

end FieldLeaf

/-- `x` reads these fields and returns its fills, as part of `wrap`; or it throws. -/
def ReadsFields {α : Type} (f : NcFile) (d : NcData) (rank : Nat) (width : Int) (wrap : List Fill → α)
    (leaves : List FieldLeaf) (x : Acc α) : Prop :=
  ((∀ l ∈ leaves, l.Readable rank) → ∃ fills,
      Throwing.Ends (f.serve d) freeCount x (.ok (wrap fills)) (leaves.flatMap FieldLeaf.frees) ∧
        List.Forall₂ (FieldLeaf.Took width) leaves fills) ∧
    ((∃ l ∈ leaves, ¬ l.Readable rank) → ∃ e, Throwing.eval (f.serve d) x = .error e)

section Readers

variable {f : NcFile} {d : NcData} {cfg : Config} {ncid varid rank : Nat} {width : Int} {v : Var}

theorem reports_serve (f : NcFile) (d : NcData) : Reports f (f.serve d) := fun _ => rfl

/-- An inquiry that is answered frees nothing. -/
theorem ends_inquire {q : NcInquiry} {a : q.Out} (h : f.answer q = .ok a) (e : Int → NcError) :
    @Throwing.Ends ncAccess NcError (no_index q.Out) Int (f.serve d) freeCount (accOrThrow (.inquire q) e)
      (.ok a) [] :=
  Throwing.Every.ends (every_accOrThrow (P := fun c => freeCount c = none) rfl e) ((reports_serve f d).eval e h)

/-- Inquiries about a field and its type free nothing either. -/
theorem ends_inqField {type : NcType} (htype : isUserDefinedType type = true) (ncid i : Nat) :
    Throwing.Ends (f.serve d) freeCount (inquiring (inqUnchecked (.ncInqCompoundField ncid type i))) (.ok ())
      [] :=
  Throwing.Every.ends (every_inquiring (P := fun c => freeCount c = none) (fun _ => rfl) _)
    (eval_inqField htype ncid i)

theorem ends_inqName {type : NcType} (htype : isUserDefinedType type = true) (ncid : Nat) :
    Throwing.Ends (f.serve d) freeCount (inquiring (inqUnchecked (.ncInqCompoundName ncid type)))
      (.ok type.name) [] :=
  Throwing.Every.ends (every_inquiring (P := fun c => freeCount c = none) (fun _ => rfl) _)
    (eval_inqName htype ncid)

/-- `do_cardinal_array_read` of a field whose values are there. -/
theorem ends_doCardinalArrayRead (hv : f.vars[varid]? = some v) {t : AtomicType} {c : ScalarClass}
    (hc : scalarClass cfg t = some c) (name varName dataset : String) (values : NcData)
    (offset nels : Int) (slab : Slab)
    (hchar : t = .char → 2 ≤ v.ndims ∧ v.ndims ≤ slab.capacity) :
    ∃ s, Throwing.Ends (f.serve d) freeCount
        (NCArray.doCardinalArrayRead cfg name (.scalar c varName dataset) ncid varid (.atomic t) (some values)
          offset nels slab) (.ok (some values, [⟨[], s⟩])) (if t = .string then [nels] else []) ∧
      (t = .char → s = .rows offset nels (toInt (f.lastLength v))) ∧
      (t = .string → s = .pointers offset nels) := by
  have htype : f.answer (.ncInqType ncid (.atomic t)) = .ok (NcFile.sizeofAtomic t) := rfl
  have hstart := ends_inquire (d := d) htype fun status =>
    .error (some status) "Could not get the size for the type."
  rw [NCArray.doCardinalArrayRead]
  cases t with
  | int64 => cases hc
  | uint64 => cases hc
  | string =>
      refine ⟨.pointers offset nels, ?_, fun h => absurd h (by decide), fun _ => rfl⟩
      rw [if_pos rfl]
      exact hstart.bind ⟨rfl, rfl⟩
  | byte =>
      cases hpromote : cfg.promoteByteToShort with
      | true =>
          rw [scalarClass, hpromote] at hc
          obtain rfl := Option.some.inj hc
          exact ⟨.shorts offset nels, hstart.bind ⟨rfl, rfl⟩, fun h => absurd h (by decide),
            fun h => absurd h (by decide)⟩
      | false =>
          exact ⟨.raw offset, hstart.bind ⟨rfl, rfl⟩, fun h => absurd h (by decide),
            fun h => absurd h (by decide)⟩
  | char =>
      -- the length of a row is asked of the outer variable
      obtain ⟨hrank, hcapacity⟩ := hchar rfl
      have hvar : f.answer (.ncInqVar ncid varid) = .ok v := answer_ncInqVar f hv
      have hsizes := eval_dimSizes ncid (reports_serve f d) name (f.dimIds_lt v (List.mem_of_getElem? hv))
      have hdims := Throwing.Every.ends
        (every_dimSizes (P := fun c => freeCount c = none) (fun _ => rfl) name v.dimIds) hsizes
      refine ⟨.rows offset nels (toInt (f.lastLength v)), hstart.bind ?_, fun _ => rfl,
        fun h => absurd h (by decide)⟩
      dsimp only
      refine (ends_inquire hvar _).bind ?_
      rw [if_neg (Nat.not_lt.mpr hrank)]
      refine hdims.bind ?_
      have hslab : ∃ slab', slab.wholeDim (v.ndims - 1) (toSizeT (toInt (f.lastLength v))) = .ok slab' := by
        rw [Slab.wholeDim, if_pos (by omega)]
        exact ⟨_, rfl⟩
      obtain ⟨slab', hslab⟩ := hslab
      exact (Throwing.ends_ofExcept_ok hslab).bind ⟨rfl, rfl⟩
  | _ =>
      exact ⟨.raw offset, hstart.bind ⟨rfl, rfl⟩, fun h => absurd h (by decide),
        fun h => absurd h (by decide)⟩

/-- It throws for characters if the outer variable has too few dimensions, or too many for the arrays. -/
theorem eval_doCardinalArrayRead_throws (hv : f.vars[varid]? = some v) (name : String) (var : BaseType)
    (values : NcData) (offset nels : Int) (slab : Slab) (hchar : ¬ (2 ≤ v.ndims ∧ v.ndims ≤ slab.capacity)) :
    ∃ e, Throwing.eval (f.serve d) (NCArray.doCardinalArrayRead cfg name var ncid varid (.atomic .char)
      (some values) offset nels slab) = .error e := by
  have htype : f.answer (.ncInqType ncid (.atomic .char)) = .ok 1 := rfl
  have hvar : f.answer (.ncInqVar ncid varid) = .ok v := answer_ncInqVar f hv
  have hsizes := eval_dimSizes ncid (reports_serve f d) name (f.dimIds_lt v (List.mem_of_getElem? hv))
  rw [NCArray.doCardinalArrayRead, Throwing.eval_bind, (reports_serve f d).eval _ htype, ok_bind]
  dsimp only
  rw [Throwing.eval_bind, (reports_serve f d).eval _ hvar, ok_bind]
  by_cases hrank : v.ndims < 2
  · rw [if_pos hrank]
    exact ⟨_, rfl⟩
  · have hcapacity : ¬ v.ndims - 1 < slab.capacity := by omega
    rw [if_neg hrank, Throwing.eval_bind, hsizes, ok_bind, Throwing.eval_bind, Throwing.eval_ofExcept,
      Slab.wholeDim, if_neg hcapacity]
    exact ⟨_, rfl⟩

/-! ### Putting the fields together -/

theorem ReadsFields.nil : ReadsFields f d rank width id [] (pure []) := by
  refine ⟨fun _ => ⟨[], Throwing.ends_pure [], .nil⟩, ?_⟩
  rintro ⟨l, hl, -⟩
  cases hl

/-- What comes before, if it frees nothing. -/
theorem ReadsFields.after {α β : Type} {wrap : List Fill → β} {ls : List FieldLeaf} {x : Acc α}
    {k : α → Acc β} {a : α} (hx : Throwing.Ends (f.serve d) freeCount x (.ok a) [])
    (hk : ReadsFields f d rank width wrap ls (k a)) : ReadsFields f d rank width wrap ls (x >>= k) := by
  constructor
  · intro hreadable
    obtain ⟨fills, hfills, htook⟩ := hk.1 hreadable
    exact ⟨fills, hx.bind hfills, htook⟩
  · intro hno
    obtain ⟨e, he⟩ := hk.2 hno
    refine ⟨e, ?_⟩
    rw [Throwing.eval_bind, hx.1]
    exact he

/-- What is done with the fills in the end. -/
theorem ReadsFields.map {α β : Type} {wrap : List Fill → α} {wrap' : List Fill → β} {ls : List FieldLeaf}
    {x : Acc α} {k : α → Acc β} (hx : ReadsFields f d rank width wrap ls x)
    (hk : ∀ fills, k (wrap fills) = pure (wrap' fills)) : ReadsFields f d rank width wrap' ls (x >>= k) := by
  constructor
  · intro hreadable
    obtain ⟨fills, hfills, htook⟩ := hx.1 hreadable
    refine ⟨fills, ?_, htook⟩
    have hend := hfills.bind (hk fills ▸ Throwing.ends_pure (wrap' fills))
    rwa [List.append_nil] at hend
  · intro hno
    obtain ⟨e, he⟩ := hx.2 hno
    rw [Throwing.eval_bind, he]
    exact ⟨e, rfl⟩

theorem took_under (hops : List Hop) {l : FieldLeaf} {fill : Fill} (h : l.Took width fill) :
    (l.under hops).Took width (fill.under hops) :=
  ⟨congrArg (hops ++ ·) h.1, h.2⟩

theorem readable_under {hops : List Hop} {ls : List FieldLeaf} :
    (∀ l ∈ ls.map (FieldLeaf.under hops), l.Readable rank) ↔ ∀ l ∈ ls, l.Readable rank := by
  rw [List.forall_mem_map]
  exact Iff.rfl

theorem flatMap_frees_under (hops : List Hop) (ls : List FieldLeaf) :
    (ls.map (FieldLeaf.under hops)).flatMap FieldLeaf.frees = ls.flatMap FieldLeaf.frees := by
  rw [List.flatMap_map]
  rfl

/-- The fields inside a member, then the rest. -/
theorem ReadsFields.append {α : Type} {wrap : List Fill → α} {ls ls' : List FieldLeaf} {x : Acc α}
    {k : α → Acc (List Fill)} {y : Acc (List Fill)} (hops : List Hop)
    (hx : ReadsFields f d rank width wrap ls x) (hy : ReadsFields f d rank width id ls' y)
    (hk : ∀ fills, k (wrap fills) = do
      let more ← y
      return fills.map (Fill.under hops) ++ more) :
    ReadsFields f d rank width id (ls.map (FieldLeaf.under hops) ++ ls') (x >>= k) := by
  constructor
  · intro hreadable
    obtain ⟨h, h'⟩ := List.forall_mem_append.mp hreadable
    obtain ⟨fills, hfills, htook⟩ := hx.1 (readable_under.mp h)
    obtain ⟨more, hmore, htook'⟩ := hy.1 h'
    have hend := hmore.bind (f := fun more => (return fills.map (Fill.under hops) ++ more : Acc (List Fill)))
      (Throwing.ends_pure _)
    rw [List.append_nil] at hend
    refine ⟨fills.map (Fill.under hops) ++ more, ?_, List.rel_append ?_ htook'⟩
    · rw [List.flatMap_append, flatMap_frees_under]
      exact hfills.bind (hk fills ▸ hend)
    · rw [List.forall₂_map_left_iff, List.forall₂_map_right_iff]
      exact htook.imp fun _ _ => took_under hops
  · rintro ⟨l, hl, hno⟩
    rw [Throwing.eval_bind]
    by_cases hall : ∀ l ∈ ls, l.Readable rank
    · obtain ⟨fills, hfills, -⟩ := hx.1 hall
      have hrest := (List.mem_append.mp hl).resolve_left fun hl => hno (readable_under.mpr hall l hl)
      obtain ⟨e, he⟩ := hy.2 ⟨l, hrest, hno⟩
      rw [hfills.1, ok_bind, hk, Throwing.eval_bind, he]
      exact ⟨e, rfl⟩
    · push Not at hall
      obtain ⟨e, he⟩ := hx.2 hall
      rw [he]
      exact ⟨e, rfl⟩

/-- One field that is a scalar to DAP. -/
theorem ReadsFields.scalar (l : FieldLeaf) (hscalar : l.IsScalar) (hpath : l.path = []) (hops : List Hop)
    (o : Int) : ReadsFields f d rank width (List.map (Fill.under hops)) [l]
      (pure ([⟨[], .raw o⟩].map (Fill.under hops))) := by
  have hfrees : l.frees = [] := by
    refine if_neg fun hstrings => ?_
    rw [FieldLeaf.IsScalar, hstrings.1] at hscalar
    rcases hscalar with hnil | ⟨-, hchar⟩
    · exact hstrings.2 (List.eq_nil_of_length_eq_zero hnil)
    · cases hchar
  constructor
  · intro _
    refine ⟨[⟨[], .raw o⟩], ?_, .cons ⟨hpath.symm, ?_⟩ .nil⟩
    · rw [List.flatMap_singleton, hfrees]
      exact Throwing.ends_pure _
    · rw [if_pos hscalar]
      exact ⟨o, rfl⟩
  · rintro ⟨_, hmem, hno⟩
    obtain rfl := List.mem_singleton.mp hmem
    exact absurd (fun _ h => absurd hscalar h) hno

/-- One field that is an array to DAP. -/
theorem ReadsFields.array (hv : f.vars[varid]? = some v) {t : AtomicType} {c : ScalarClass}
    (hc : scalarClass cfg t = some c) (name varName dataset : String) (values : NcData) {sizes : List Nat}
    (hscalar : ¬ IsScalarField (.atomic t) sizes) (start : Nat) {offset : Int} (hoffset : offset = toInt start)
    (nels : Int) (slab : Slab) :
    ReadsFields f d v.ndims (toInt (f.lastLength v)) (fun fills => (some values, fills))
      [⟨[], t, sizes, start, nels, slab.capacity⟩]
      (NCArray.doCardinalArrayRead cfg name (.scalar c varName dataset) ncid varid (.atomic t) (some values)
        offset nels slab) := by
  rw [hoffset]
  constructor
  · intro hreadable
    have hl := hreadable _ (List.mem_singleton_self _)
    obtain ⟨s, hends, hchar, hstring⟩ := ends_doCardinalArrayRead hv hc name varName dataset values
      (toInt start) nels slab fun ht => hl ht hscalar
    refine ⟨[⟨[], s⟩], ?_, .cons ⟨rfl, ?_⟩ .nil⟩
    · have hstrings : t = .string ∧ sizes ≠ [] ↔ t = .string := by
        refine and_iff_left_of_imp fun _ hsizes => hscalar ?_
        rw [hsizes]
        exact .inl rfl
      rw [List.flatMap_singleton, FieldLeaf.frees]
      simp only [FieldLeaf.IsStrings, hstrings]
      exact hends
    · have hnot : ¬ (⟨[], t, sizes, start, nels, slab.capacity⟩ : FieldLeaf).IsScalar := hscalar
      rw [if_neg hnot]
      exact ⟨hchar, hstring⟩
  · rintro ⟨_, hmem, hno⟩
    obtain rfl := List.mem_singleton.mp hmem
    simp only [FieldLeaf.Readable, Classical.not_imp] at hno
    obtain ⟨rfl, -, hno⟩ := hno
    exact eval_doCardinalArrayRead_throws hv name _ values _ _ slab hno

end Readers

/-! ## The members -/

/-- The members that the builder makes for these fields. -/
def BuiltMembers (cfg : Config) (dataset : String) : NcFields → List BaseType → Prop
  | .nil, vars => vars = []
  | .cons fieldName _ (.atomic t) sizes rest, vars => ∃ c bs, scalarClass cfg t = some c ∧
    vars = fieldMember dataset fieldName (.atomic t) sizes (.scalar c fieldName dataset) :: bs ∧
      BuiltMembers cfg dataset rest bs
  | .cons _ _ (.compound _ typeName _ fields) _ rest, vars => ∃ inner bs,
    vars = .ncStructure typeName dataset inner :: bs ∧ BuiltMembers cfg dataset fields inner ∧
      BuiltMembers cfg dataset rest bs
  | .cons .., _ => False

/-- One member is built for each field, in order. -/
theorem builtMembers_of_buildFields {f : NcFile} {cfg : Config} {ncid varid : Nat} {dataset : String}
    (fields : NcFields) (hunambiguous : Unambiguous fields) {xtype : NcType} {i : Nat}
    {ncs vars : List BaseType}
    (h : Throwing.eval f.answer (Ncdds.buildFields cfg ncid varid dataset xtype fields i ncs) = .ok vars) :
    ∃ bs, vars = ncs ++ bs ∧ BuiltMembers cfg dataset fields bs := by
  match fields with
  | .nil =>
      rw [Ncdds.buildFields] at h
      exact ⟨[], by rw [List.append_nil]; exact (Except.ok.inj h).symm, rfl⟩
  | .cons fieldName offset (.atomic t) sizes rest =>
      obtain ⟨field, hfield, h⟩ := of_buildFields_cons h
      obtain ⟨bs, rfl, hbs⟩ := builtMembers_of_buildFields rest hunambiguous h
      change Ncdds.buildScalar cfg fieldName dataset (.atomic t) = .ok (some field) at hfield
      cases hc : scalarClass cfg t with
      | none =>
          rw [Ncdds.buildScalar, hc] at hfield
          dsimp only at hfield
          split at hfield <;> cases hfield
      | some c =>
          rw [Ncdds.buildScalar, hc] at hfield
          obtain rfl := Option.some.inj (Except.ok.inj hfield)
          exact ⟨_, List.append_assoc .., c, bs, hc, rfl, hbs⟩
  | .cons fieldName offset (.compound id name size inner) sizes rest =>
      obtain ⟨rfl, -, hinner, hrest⟩ := hunambiguous
      obtain ⟨field, ⟨b, hb, rfl⟩, h⟩ := of_buildFields_cons h
      obtain ⟨bs, rfl, hbs⟩ := builtMembers_of_buildFields rest hrest h
      obtain ⟨n, vars', hvars, ⟨-, hstructure⟩ | ⟨hne, -⟩⟩ := of_buildUserDefined_compound hb
      · obtain rfl := Option.some.inj hstructure
        obtain ⟨inner', hmembers, hbuilt⟩ := builtMembers_of_buildFields inner hinner hvars
        rw [List.nil_append] at hmembers
        subst hmembers
        exact ⟨_, List.append_assoc .., vars', bs, rfl, hbuilt, hbs⟩
      · exact absurd rfl hne

/-- `var(name)` is the member at the first place of that name. -/
theorem firstMember_of_firstNamed {n e : String} {vars : List BaseType} {name : String} {i : Nat}
    {b : BaseType} (h : firstNamed vars name = some i) (hb : vars[i]? = some b) :
    firstMember (.ncStructure n e vars) name = some b := by
  rw [firstMember, List.find?_eq_bind_findIdx?_getElem?]
  rw [firstNamed] at h
  rw [h]
  exact hb

theorem getElem?_append_cons {α : Type} (pre : List α) (a : α) (bs : List α) :
    (pre ++ a :: bs)[pre.length]? = some a := by
  rw [List.getElem?_append_right (Nat.le_refl _), Nat.sub_self]
  rfl

section Loops

variable {f : NcFile} {d : NcData} {cfg : Config} {ncid varid : Nat} {v : Var} {dataset : String}

/-- `do_structure_read`, around its loop. -/
theorem ReadsFields.structure {rank : Nat} {width : Int} {ls : List FieldLeaf} {this : BaseType}
    {typeId : Nat} {name : String} {size : Nat} {fields : NcFields} (values : Option NcData)
    {valuesOffset : Int} (hx : ReadsFields f d rank width id ls (NCStructure.readFields cfg firstMember this
      dataset ncid varid (.compound typeId name size fields) (values.getD d) fields 0 valuesOffset)) :
    ReadsFields f d rank width (fun fills => (some (values.getD d), fills)) ls
      (NCStructure.doStructureRead cfg firstMember this dataset ncid varid
        (.compound typeId name size fields) values valuesOffset) := by
  have huser : f.answer (.ncInqUserType ncid (.compound typeId name size fields)) = .ok () := rfl
  have hvalues : Throwing.Ends (f.serve d) freeCount (unlessThere values <|
      accOrThrow (.ncGetVar ncid varid .native size) fun status => .error (some status)
        ("Could not get the value for variable '" ++ this.name ++ "'")) (.ok (values.getD d)) [] := by
    cases values with
    | none => exact ⟨rfl, rfl⟩
    | some values => exact ⟨rfl, rfl⟩
  rw [NCStructure.doStructureRead]
  refine ReadsFields.after (ends_inquire huser _) (ReadsFields.after hvalues ?_)
  exact hx.map fun fills => rfl

theorem fieldMember_scalar {t : AtomicType} {sizes : List Nat} (h : IsScalarField (.atomic t) sizes)
    {fieldName : String} {field : BaseType} :
    fieldMember dataset fieldName (.atomic t) sizes field = field := if_pos h

/-- A field with dimensions becomes an Array of its lengths. -/
theorem fieldMember_array {t : AtomicType} {sizes : List Nat} (h : ¬ IsScalarField (.atomic t) sizes)
    {fieldName : String} {c : ScalarClass} :
    fieldMember dataset fieldName (.atomic t) sizes (.scalar c fieldName dataset) =
      .ncArray fieldName dataset (.scalar c fieldName dataset) (sizes.map fun n => .whole n "") := by
  rw [fieldMember, if_neg h, BaseType.newNCArray_scalar, BaseType.appendDims_ncArray, List.nil_append]

/-- The loop of `do_structure_read`. -/
theorem reads_readFields (hv : f.vars[varid]? = some v) (fields : NcFields) (pre : List BaseType)
    {bs : List BaseType} (hbuilt : BuiltMembers cfg dataset fields bs)
    (hfinds : FindsFields (pre ++ bs) fields pre.length) (n e e' : String) {base : Nat} {valuesOffset : Int}
    (hinner : ∀ o : Nat, toInt (o + valuesOffset) = toInt (base + o : Nat)) {datatype : NcType}
    (hdatatype : isUserDefinedType datatype = true) (values : NcData) (i : Nat) :
    ReadsFields f d v.ndims (toInt (f.lastLength v)) id (fieldLeaves ownShape base fields)
      (NCStructure.readFields cfg firstMember (.ncStructure n e (pre ++ bs)) e' ncid varid datatype values
        fields i valuesOffset) := by
  match fields with
  | .nil =>
      rw [NCStructure.readFields]
      exact ReadsFields.nil
  | .cons fieldName offset (.atomic t) sizes rest =>
      obtain ⟨c, bs, hc, rfl, hrest⟩ := hbuilt
      obtain ⟨hfirst, -, hfinds'⟩ := hfinds
      have hfound := firstMember_of_firstNamed (n := n) (e := e) hfirst (getElem?_append_cons pre _ bs)
      have hmore := reads_readFields hv rest (pre ++ [_]) hrest (by simpa using hfinds') n e e' hinner
        hdatatype values (i + 1)
      rw [List.append_assoc, List.singleton_append] at hmore
      rw [NCStructure.readFields, fieldLeaves]
      refine ReadsFields.after (ends_inqField hdatatype ncid i) ?_
      dsimp only
      simp only [isUserDefinedType, Bool.false_eq_true, if_false]
      refine ReadsFields.after ⟨congrArg deref hfound, rfl⟩ ?_
      -- a field without dimensions has a scalar for its member, any other one an Array
      by_cases hscalar : IsScalarField (.atomic t) sizes
      · rw [fieldMember_scalar hscalar] at hmore ⊢
        refine ReadsFields.append [.member fieldName]
          (ReadsFields.scalar ⟨[], t, sizes, base + offset, _, _⟩ hscalar rfl [.member fieldName] _) hmore ?_
        intro fills
        rfl
      · have hdims : ¬ sizes.length < (sizes.map fun n => ArrayDim.whole n "").length := by
          rw [List.length_map]
          exact Nat.lt_irrefl _
        rw [fieldMember_array hscalar] at hmore ⊢
        dsimp only
        rw [if_neg hdims]
        -- the constraint is over all of the dimensions, so the shape is that of the field
        obtain ⟨slab, nels, hformat, hcapacity, hcount⟩ := formatConstraint_whole sizes.length sizes
        rw [hformat]
        refine ReadsFields.after ⟨rfl, rfl⟩ ?_
        have hshape : ownShape sizes = (toInt nels, slab.capacity) := by rw [ownShape, hcount, hcapacity]
        rw [hshape]
        refine ReadsFields.append [.member fieldName] (ReadsFields.array hv hc fieldName fieldName dataset
          values hscalar (base + offset) (hinner offset) (toInt nels) slab) hmore ?_
        intro fills
        rfl
  | .cons fieldName offset (.compound id name size inner) sizes rest =>
      obtain ⟨vars, bs, rfl, hmembers, hrest⟩ := hbuilt
      obtain ⟨hfirst, ⟨b, hb, -, hfindsInner⟩, hfinds'⟩ := hfinds
      rw [getElem?_append_cons] at hb
      obtain rfl := Option.some.inj hb
      have hfound := firstMember_of_firstNamed (n := n) (e := e) hfirst (getElem?_append_cons pre _ bs)
      have hmore := reads_readFields hv rest (pre ++ [_]) hrest (by simpa using hfinds') n e e' hinner
        hdatatype values (i + 1)
      rw [List.append_assoc, List.singleton_append] at hmore
      -- the inner fields are where the field begins
      have hinner' : ∀ o : Nat, toInt (o + toInt (offset + valuesOffset)) = toInt (base + offset + o : Nat) :=
        toInt_nested (hinner offset)
      have huser : isUserDefinedType (.compound id name size inner) = true := rfl
      have hfields :=
        reads_readFields hv inner [] hmembers hfindsInner name dataset dataset hinner' huser values 0
      rw [NCStructure.readFields, fieldLeaves]
      refine ReadsFields.after (ends_inqField hdatatype ncid i) ?_
      dsimp only
      rw [if_pos huser]
      refine ReadsFields.after (ends_inqName huser ncid) (ReadsFields.after ⟨congrArg deref hfound, rfl⟩ ?_)
      dsimp only
      refine ReadsFields.append [.member name] (ReadsFields.structure (some values) hfields) hmore ?_
      intro fills
      rfl
  | .cons fieldName offset (.vlen id name size) sizes rest => exact hbuilt.elim
  | .cons fieldName offset (.opaqueBytes id name size) sizes rest => exact hbuilt.elim
  | .cons fieldName offset (.enum id name b members) sizes rest => exact hbuilt.elim

/-- The loop of `do_array_read` over the fields of an element. -/
theorem reads_readElement (hv : f.vars[varid]? = some v) (fields : NcFields) (pre : List BaseType)
    {bs : List BaseType} (hbuilt : BuiltMembers cfg dataset fields bs)
    (hfinds : FindsFields (pre ++ bs) fields pre.length) (n e : String) {datatype : NcType}
    (hdatatype : isUserDefinedType datatype = true) (size : Nat) (values : NcData) (nels : Int) (slab : Slab)
    (i j : Nat) :
    ReadsFields f d v.ndims (toInt (f.lastLength v)) id
      ((fieldLeaves (fun _ => (nels, slab.capacity)) (i * size) fields).map (FieldLeaf.under [.element i]))
      (NCArray.readElement cfg firstMember (.ncStructure n e (pre ++ bs)) ncid varid datatype size values 0 nels
        slab i fields j) := by
  have hinner : ∀ o : Nat, toInt (o + 0 + size * i) = toInt (i * size + o : Nat) := by
    intro o
    rw [Int.add_zero, Int.add_comm, Int.mul_comm]
    rfl
  match fields with
  | .nil =>
      rw [NCArray.readElement]
      exact ReadsFields.nil
  | .cons fieldName offset (.atomic t) sizes rest =>
      obtain ⟨c, bs, hc, rfl, hrest⟩ := hbuilt
      obtain ⟨hfirst, -, hfinds'⟩ := hfinds
      have hfound := firstMember_of_firstNamed (n := n) (e := e) hfirst (getElem?_append_cons pre _ bs)
      have hmore := reads_readElement hv rest (pre ++ [_]) hrest (by simpa using hfinds') n e hdatatype size values
        nels slab i (j + 1)
      rw [List.append_assoc, List.singleton_append] at hmore
      rw [NCArray.readElement, fieldLeaves, List.map_cons]
      refine ReadsFields.after (ends_inqField hdatatype ncid j) ?_
      dsimp only
      simp only [isUserDefinedType, Bool.false_eq_true, if_false]
      refine ReadsFields.after ⟨congrArg deref hfound, rfl⟩ ?_
      by_cases hscalar : IsScalarField (.atomic t) sizes
      · rw [fieldMember_scalar hscalar] at hmore ⊢
        refine ReadsFields.append [.element i, .member fieldName]
          (ReadsFields.scalar ⟨[], t, sizes, i * size + offset, _, _⟩ hscalar rfl
            [.element i, .member fieldName] _)
          hmore ?_
        intro fills
        rfl
      · rw [fieldMember_array hscalar] at hmore ⊢
        -- here the shape is that of the elements, whatever the dimensions of the field are
        refine ReadsFields.append [.element i, .member fieldName] (ReadsFields.array hv hc fieldName fieldName
          dataset values hscalar (i * size + offset) (hinner offset) nels slab) hmore ?_
        intro fills
        rfl
  | .cons fieldName offset (.compound id name inside inner) sizes rest =>
      obtain ⟨vars, bs, rfl, hmembers, hrest⟩ := hbuilt
      obtain ⟨hfirst, ⟨b, hb, -, hfindsInner⟩, hfinds'⟩ := hfinds
      rw [getElem?_append_cons] at hb
      obtain rfl := Option.some.inj hb
      have hfound := firstMember_of_firstNamed (n := n) (e := e) hfirst (getElem?_append_cons pre _ bs)
      have hmore := reads_readElement hv rest (pre ++ [_]) hrest (by simpa using hfinds') n e hdatatype size values
        nels slab i (j + 1)
      rw [List.append_assoc, List.singleton_append] at hmore
      have hinner' : ∀ o : Nat,
          toInt (o + toInt (offset + 0 + size * i)) = toInt (i * size + offset + o : Nat) :=
        toInt_nested (hinner offset)
      have huser : isUserDefinedType (.compound id name inside inner) = true := rfl
      have hunder : ((fieldLeaves ownShape (i * size + offset) inner).map (FieldLeaf.under [.member name])).map
          (FieldLeaf.under [.element i]) =
            (fieldLeaves ownShape (i * size + offset) inner).map
              (FieldLeaf.under [.element i, .member name]) := by
        rw [List.map_map]
        rfl
      rw [NCArray.readElement, fieldLeaves, List.map_append, hunder]
      refine ReadsFields.after (ends_inqField hdatatype ncid j) ?_
      dsimp only
      rw [if_pos huser]
      refine ReadsFields.after (ends_inqName huser ncid) (ReadsFields.after ⟨congrArg deref hfound, rfl⟩ ?_)
      dsimp only
      refine ReadsFields.append [.element i, .member name] (ReadsFields.structure (some values)
        (reads_readFields hv inner [] hmembers hfindsInner name dataset dataset hinner' huser values 0)) hmore ?_
      intro fills
      rfl
  | .cons fieldName offset (.vlen id name size) sizes rest => exact hbuilt.elim
  | .cons fieldName offset (.opaqueBytes id name size) sizes rest => exact hbuilt.elim
  | .cons fieldName offset (.enum id name b members) sizes rest => exact hbuilt.elim

/-- The loop of `do_array_read` over the elements. -/
theorem reads_readElements (hv : f.vars[varid]? = some v) {fields : NcFields} {vars : List BaseType}
    (hbuilt : BuiltMembers cfg dataset fields vars) (hfinds : FindsFields vars fields 0) (n e : String)
    {datatype : NcType} (hdatatype : isUserDefinedType datatype = true) (size : Nat) (values : NcData)
    (nels : Int) (slab : Slab) (is : List Nat) :
    ReadsFields f d v.ndims (toInt (f.lastLength v)) id
      (is.flatMap fun i =>
        (fieldLeaves (fun _ => (nels, slab.capacity)) (i * size) fields).map (FieldLeaf.under [.element i]))
      (NCArray.readElements cfg firstMember (.ncStructure n e vars) ncid varid datatype size fields values 0 nels
        slab is) := by
  induction is with
  | nil =>
      rw [NCArray.readElements]
      exact ReadsFields.nil
  | cons i is ih =>
      have hnone : ∀ ls : List FieldLeaf, ls.map (FieldLeaf.under []) = ls := fun ls => List.map_id ls
      rw [NCArray.readElements, List.flatMap_cons, ← hnone (List.map _ _)]
      refine ReadsFields.append []
        (reads_readElement hv fields [] hbuilt hfinds n e hdatatype size values nels slab i 0) ih ?_
      intro fills
      have hfills : fills.map (Fill.under []) = fills := List.map_id fills
      rw [hfills]
      rfl

/-- `do_array_read` of an array of compounds. -/
theorem reads_doArrayRead (hv : f.vars[varid]? = some v) {fields : NcFields} {vars : List BaseType}
    (hbuilt : BuiltMembers cfg dataset fields vars) (hfinds : FindsFields vars fields 0) (n e : String)
    (ncid typeId : Nat) (name : String) (size : Nat) (values : Option NcData) (varName : String) (nels : Int)
    (slab : Slab) :
    ReadsFields f d v.ndims (toInt (f.lastLength v)) (fun fills => (some (values.getD d), fills))
      ((List.range nels.toNat).flatMap fun i =>
        (fieldLeaves (fun _ => (nels, slab.capacity)) (i * size) fields).map (FieldLeaf.under [.element i]))
      (NCArray.doArrayRead cfg firstMember varName (.ncStructure n e vars) ncid varid
        (.compound typeId name size fields) values 0 nels slab) := by
  have huser : f.answer (.ncInqUserType ncid (.compound typeId name size fields)) = .ok () := rfl
  have hvalues : Throwing.Ends (f.serve d) freeCount (unlessThere values <|
      getSlab ncid varid slab .native (toSizeT (size * nels)) fun status => .error (some status)
        ("Could not get the value for variable '" ++ varName ++ "'")) (.ok (values.getD d)) [] := by
    cases values with
    | none =>
        rw [unlessThere, getSlab]
        split
        · exact ⟨rfl, rfl⟩
        · exact ⟨rfl, rfl⟩
    | some values => exact ⟨rfl, rfl⟩
  rw [NCArray.doArrayRead]
  refine ReadsFields.after (ends_inquire huser _) (ReadsFields.after hvalues ?_)
  exact (reads_readElements hv hbuilt hfinds n e rfl size (values.getD d) nels slab _).map fun fills => rfl

end Loops

/-! ## What arrives -/

theorem isScalar_string {l : FieldLeaf} (h : l.type = .string) : l.IsScalar ↔ l.sizes = [] := by
  rw [FieldLeaf.IsScalar, h, IsScalarField, List.length_eq_zero_iff]
  simp [NcType.isChar]

/-- A call for an array of strings frees only its own exactly if they are at the beginning of the buffer. -/
theorem freesOwn_iff {l : FieldLeaf} : l.FreesOwn (l.sizes.prod : Nat) ↔ l.offset = 0 ∨ l.sizes.prod = 0 := by
  constructor
  · intro h
    rcases Nat.eq_zero_or_pos l.sizes.prod with hzero | hpos
    · exact .inr hzero
    · obtain ⟨k, -, hk⟩ := h 0 (by omega)
      omega
  · rintro h k hk
    exact ⟨k, by omega, by omega⟩

/-- What the readers store is the text of the field, and they free no other string, exactly under the
conditions on the field. -/
theorem arrives_iff {rank : Nat} {width : Int} {l : FieldLeaf} {fill : Fill} (htook : l.Took width fill)
    (hreadable : l.Readable rank) :
    l.Gets fill ∧ (l.IsStrings → l.FreesOwn l.count) ↔ l.Arrives rank width := by
  obtain ⟨hpath, hstored⟩ := htook
  rw [FieldLeaf.Gets, and_iff_right hpath, FieldLeaf.Arrives]
  cases htype : l.type with
  | char =>
      have htext : l.IsText ↔ l.sizes ≠ [] := by
        rw [FieldLeaf.IsText, htype]
        simp
      have hstrings : ¬ l.IsStrings := by
        rintro ⟨h, -⟩
        rw [htype] at h
        cases h
      rw [and_iff_left fun h => absurd h hstrings, htext]
      refine imp_congr_right fun hsizes => ?_
      by_cases hscalar : l.IsScalar
      · rw [if_pos hscalar] at hstored
        obtain ⟨o, ho⟩ := hstored
        -- what is taken for a scalar is stored as it is, and not as rows
        refine iff_of_false ?_ fun h => h.1 hscalar
        rw [ho, FieldLeaf.text, if_pos htype]
        exact fun h => nomatch h.1
      · rw [if_neg hscalar] at hstored
        obtain ⟨hrank, hcapacity⟩ := hreadable htype hscalar
        rw [hstored.1 htype, FieldLeaf.text, if_pos htype, Stored.rows.injEq, toInt_natCast]
        tauto
  | string =>
      have htext : l.IsText := .inr htype
      have htexts : l.texts = l.sizes.prod := by
        rw [FieldLeaf.texts, htype]
        rfl
      rw [forall_prop_of_true htext]
      by_cases hscalar : l.IsScalar
      · rw [if_pos hscalar] at hstored
        obtain ⟨o, ho⟩ := hstored
        -- nor are the pointers followed
        refine iff_of_false ?_ fun h => h.1 ((isScalar_string htype).mp hscalar)
        rw [ho, FieldLeaf.text, htype]
        exact fun h => nomatch h.1.1
      · have hsizes : l.sizes ≠ [] := fun h => hscalar ((isScalar_string htype).mpr h)
        have hstrings : l.strings = l.texts := by rw [FieldLeaf.strings, if_neg hscalar, htexts]
        have hpointers : l.text = .pointers l.offset l.texts := by
          rw [FieldLeaf.text, htype]
          rfl
        have hown : l.IsStrings := ⟨htype, hsizes⟩
        rw [if_neg hscalar] at hstored
        rw [hstored.2 htype, hpointers, Stored.pointers.injEq, toInt_natCast, and_iff_left hstrings,
          forall_prop_of_true hown, and_iff_right hsizes, and_assoc]
        refine and_congr_right fun _ => and_congr_right fun hcount => ?_
        rw [hcount, htexts]
        exact freesOwn_iff
  | _ =>
      have htext : ¬ l.IsText := by
        rw [FieldLeaf.IsText, htype]
        simp
      have hstrings : ¬ l.IsStrings := by
        rintro ⟨h, -⟩
        rw [htype] at h
        cases h
      -- fields of numbers are no texts, and have no strings to free
      exact iff_of_true ⟨fun h => absurd h htext, fun h => absurd h hstrings⟩ trivial

theorem not_arrives {rank : Nat} {width : Int} {l : FieldLeaf} (h : ¬ l.Readable rank) :
    ¬ l.Arrives rank width := by
  simp only [FieldLeaf.Readable, Classical.not_imp] at h
  obtain ⟨hchar, hscalar, hno⟩ := h
  have hsizes : l.sizes ≠ [] := fun hsizes => hscalar (.inl (List.length_eq_zero_iff.mpr hsizes))
  rw [FieldLeaf.Arrives, hchar]
  intro harrives
  obtain ⟨-, -, -, -, hrank, hcapacity, -⟩ := harrives hsizes
  exact hno ⟨hrank, hcapacity⟩

theorem frees_iff (ls : List FieldLeaf) :
    List.Forall₂ FieldLeaf.FreesOwn (ls.filter (·.IsStrings)) (ls.flatMap FieldLeaf.frees) ↔
      ∀ l ∈ ls, l.IsStrings → l.FreesOwn l.count := by
  induction ls with
  | nil => simp
  | cons l ls ih =>
      rw [List.forall_mem_cons, ← ih, List.flatMap_cons, FieldLeaf.frees]
      by_cases hl : l.IsStrings
      · rw [List.filter_cons_of_pos (by simpa using hl), if_pos hl, List.singleton_append, List.forall₂_cons]
        exact and_congr_left fun _ => ⟨fun h _ => h, fun h => h hl⟩
      · rw [List.filter_cons_of_neg (by simpa using hl), if_neg hl, List.nil_append]
        exact (and_iff_right fun h => absurd h hl).symm

/-- All fields get what is theirs exactly if each can. -/
theorem gets_iff {rank : Nat} {width : Int} {ls : List FieldLeaf} {fills : List Fill}
    (htook : List.Forall₂ (FieldLeaf.Took width) ls fills) (hreadable : ∀ l ∈ ls, l.Readable rank) :
    (List.Forall₂ FieldLeaf.Gets ls fills ∧ ∀ l ∈ ls, l.IsStrings → l.FreesOwn l.count) ↔
      ∀ l ∈ ls, l.Arrives rank width := by
  induction htook with
  | nil => simp
  | cons hl _ ih =>
      obtain ⟨hfirst, hrest⟩ := List.forall_mem_cons.mp hreadable
      rw [List.forall_mem_cons, List.forall_mem_cons, List.forall₂_cons, ← ih hrest, ← arrives_iff hl hfirst]
      tauto

/-- What `nc_free_string` is called with. -/
def freedBy {α : Type} (f : NcFile) (d : NcData) (x : Acc α) : List Int :=
  (Prog.made (f.serve d) (ExceptT.run x)).filterMap freeCount

/-- The text is read exactly if every member is found and every value arrives. -/
theorem readsText_iff_arrives {f : NcFile} {d values : NcData} {rank : Nat} {width : Int} {type : NcType}
    {this : BaseType} {ls : List FieldLeaf} {x : Acc Values}
    (hx : ReadsFields f d rank width (fun fills => (some values, fills)) ls x) :
    ReadsText type this values ls (Throwing.eval (f.serve d) x) (freedBy f d x) ↔
      Finds type this ∧ ∀ l ∈ ls, l.Arrives rank width := by
  refine and_congr_right fun _ => ?_
  by_cases hall : ∀ l ∈ ls, l.Readable rank
  · obtain ⟨fills, ⟨heval, hfreed⟩, htook⟩ := hx.1 hall
    rw [heval, freedBy, hfreed, frees_iff, ← gets_iff htook hall]
    constructor
    · rintro ⟨fills', hfills, hgets, hfrees⟩
      obtain rfl := (Prod.mk.inj (Except.ok.inj hfills)).2
      exact ⟨hgets, hfrees⟩
    · rintro ⟨hgets, hfrees⟩
      exact ⟨fills, rfl, hgets, hfrees⟩
  · push Not at hall
    obtain ⟨e, he⟩ := hx.2 hall
    obtain ⟨l, hl, hno⟩ := hall
    rw [he]
    refine iff_of_false ?_ fun h => not_arrives hno (h l hl)
    rintro ⟨fills, hfills, -⟩
    cases hfills

section Right

variable {f : NcFile} {cfg : Config} {ncid varid : Nat} {dataset : String} {typeId : Nat} {name : String}
  {size : Nat} {fields : NcFields} {v : Var} {b : BaseType}

/-- What the builder makes of a compound whose members can be found. -/
theorem structureOf_built {dimIds : List Nat}
    (hbuilt : Throwing.eval f.answer (Ncdds.buildUserDefined cfg ncid varid dataset
      (.compound typeId name size fields) dimIds) = .ok (some b))
    (hunambiguous : Unambiguous fields) :
    ∃ n vars, structureOf b = .ncStructure n dataset vars ∧ BuiltMembers cfg dataset fields vars := by
  obtain ⟨n, vars, hvars, hshape⟩ := of_buildUserDefined_compound hbuilt
  obtain ⟨bs, rfl, hmembers⟩ := builtMembers_of_buildFields fields hunambiguous hvars
  refine ⟨n, vars, ?_, hmembers⟩
  rcases hshape with ⟨-, hb⟩ | ⟨-, dims, hb⟩
  · obtain rfl := Option.some.inj hb
    rfl
  · obtain rfl := Option.some.inj hb
    rfl

/-- There are as many fields whatever the readers take of them, wherever they are. -/
theorem length_fieldLeaves (shape shape' : List Nat → Int × Nat) (base base' : Nat) (fields : NcFields) :
    (fieldLeaves shape base fields).length = (fieldLeaves shape' base' fields).length := by
  match fields with
  | .nil => rfl
  | .cons fieldName offset (.atomic t) sizes rest =>
      rw [fieldLeaves, fieldLeaves, List.length_cons, List.length_cons,
        length_fieldLeaves shape shape' base base' rest]
  | .cons fieldName offset (.compound id name size inner) sizes rest =>
      rw [fieldLeaves, fieldLeaves, List.length_append, List.length_append, List.length_map, List.length_map,
        length_fieldLeaves ownShape ownShape (base + offset) (base' + offset) inner,
        length_fieldLeaves shape shape' base base' rest]
  | .cons fieldName offset (.vlen id name size) sizes rest =>
      exact length_fieldLeaves shape shape' base base' rest
  | .cons fieldName offset (.opaqueBytes id name size) sizes rest =>
      exact length_fieldLeaves shape shape' base base' rest
  | .cons fieldName offset (.enum id name b members) sizes rest =>
      exact length_fieldLeaves shape shape' base base' rest

theorem length_elementLeaves (m n size capacity : Nat) (fields : NcFields) :
    ((List.range m).flatMap fun i => (fieldLeaves (fun _ => (toInt n, capacity)) (i * size) fields).map
      (FieldLeaf.under [.element i])).length = m * (fieldLeaves ownShape 0 fields).length := by
  refine length_flatMap_range (fun i => ?_) m
  rw [List.length_map]
  exact length_fieldLeaves _ _ _ _ fields

/-- What is read of `n` elements, where the number arrives as an `int`. -/
theorem doArrayRead_readsText (hv : f.vars[varid]? = some v)
    (hbuilt : Throwing.eval f.answer (Ncdds.buildUserDefined cfg ncid varid dataset
      (.compound typeId name size fields) v.dimIds) = .ok (some b))
    (htext : ∃ l ∈ fieldLeaves ownShape 0 fields, l.IsText) (d : NcData) (values : Option NcData) (n : Nat)
    (varName : String) (slab : Slab) :
    ReadsText (.compound typeId name size fields) (structureOf b) (values.getD d)
        (elementLeaves n size slab.capacity fields)
        (Throwing.eval (f.serve d) (NCArray.doArrayRead cfg firstMember varName (structureOf b) ncid varid
          (.compound typeId name size fields) values 0 (toInt n) slab))
        (freedBy f d (NCArray.doArrayRead cfg firstMember varName (structureOf b) ncid varid
          (.compound typeId name size fields) values 0 (toInt n) slab)) ↔
      ((memberNames fields).Nodup ∧ Unambiguous fields) ∧ n < 2 ^ 31 ∧
        ∀ l ∈ elementLeaves n size slab.capacity fields, l.Arrives v.ndims (toInt (f.lastLength v)) := by
  by_cases hnames : (memberNames fields).Nodup ∧ Unambiguous fields
  case neg =>
    refine iff_of_false ?_ fun h => hnames h.1
    exact fun h => hnames ((finds_iff f cfg ncid varid dataset hbuilt).mp h.1)
  have hfinds := (finds_iff f cfg ncid varid dataset hbuilt).mpr hnames
  obtain ⟨m, vars, hstructure, hmembers⟩ := structureOf_built hbuilt hnames.2
  rw [hstructure] at hfinds ⊢
  have hreads := reads_doArrayRead (d := d) hv hmembers hfinds m dataset ncid typeId name size values varName
    (toInt n) slab
  rw [and_iff_right hnames]
  by_cases hn : n < 2 ^ 31
  · have hleaves : elementLeaves n size slab.capacity fields = (List.range (toInt n).toNat).flatMap fun i =>
        (fieldLeaves (fun _ => (toInt n, slab.capacity)) (i * size) fields).map
          (FieldLeaf.under [.element i]) := by
      rw [(toNat_toInt n).mpr hn]
      rfl
    rw [hleaves, readsText_iff_arrives hreads, and_iff_right hfinds, and_iff_right hn]
  · -- the loop goes round as often as the `int` says
    refine iff_of_false ?_ fun h => hn h.1
    rintro ⟨-, fills, hfills, hgets, -⟩
    obtain ⟨l, hl, -⟩ := htext
    have hpos : 0 < (fieldLeaves ownShape 0 fields).length := List.length_pos_of_mem hl
    have hlength : fills.length = n * (fieldLeaves ownShape 0 fields).length :=
      hgets.length_eq.symm.trans (length_elementLeaves n n size slab.capacity fields)
    by_cases hall : ∀ l ∈ (List.range (toInt n).toNat).flatMap fun i =>
        (fieldLeaves (fun _ => (toInt n, slab.capacity)) (i * size) fields).map (FieldLeaf.under [.element i]),
        l.Readable v.ndims
    · obtain ⟨fills', hends, htook⟩ := hreads.1 hall
      obtain rfl := (Prod.mk.inj (Except.ok.inj (hfills.symm.trans hends.1))).2
      have hread := htook.length_eq.symm.trans (length_elementLeaves _ n size slab.capacity fields)
      exact hn ((toNat_toInt n).mp (Nat.eq_of_mul_eq_mul_right hpos (hread.symm.trans hlength)))
    · push Not at hall
      obtain ⟨e, he⟩ := hreads.2 hall
      rw [he] at hfills
      cases hfills

/-- What is read of one value. -/
theorem doStructureRead_readsText (hv : f.vars[varid]? = some v)
    (hbuilt : Throwing.eval f.answer (Ncdds.buildUserDefined cfg ncid varid dataset
      (.compound typeId name size fields) v.dimIds) = .ok (some b)) (d : NcData) (values : Option NcData) :
    ReadsText (.compound typeId name size fields) (structureOf b) (values.getD d)
        (fieldLeaves ownShape 0 fields)
        (Throwing.eval (f.serve d) (NCStructure.doStructureRead cfg firstMember (structureOf b) dataset ncid varid
          (.compound typeId name size fields) values 0))
        (freedBy f d (NCStructure.doStructureRead cfg firstMember (structureOf b) dataset ncid varid
          (.compound typeId name size fields) values 0)) ↔
      ((memberNames fields).Nodup ∧ Unambiguous fields) ∧
        ∀ l ∈ fieldLeaves ownShape 0 fields, l.Arrives v.ndims (toInt (f.lastLength v)) := by
  by_cases hnames : (memberNames fields).Nodup ∧ Unambiguous fields
  case neg =>
    refine iff_of_false ?_ fun h => hnames h.1
    exact fun h => hnames ((finds_iff f cfg ncid varid dataset hbuilt).mp h.1)
  have hfinds := (finds_iff f cfg ncid varid dataset hbuilt).mpr hnames
  obtain ⟨m, vars, hstructure, hmembers⟩ := structureOf_built hbuilt hnames.2
  rw [hstructure] at hfinds ⊢
  have hinner : ∀ o : Nat, toInt (o + 0) = toInt (0 + o : Nat) := by
    intro o
    rw [Int.add_zero, Nat.zero_add]
  have hreads : ReadsFields f d v.ndims (toInt (f.lastLength v)) (fun fills => (some (values.getD d), fills))
      (fieldLeaves ownShape 0 fields)
      (NCStructure.doStructureRead cfg firstMember (.ncStructure m dataset vars) dataset ncid varid
        (.compound typeId name size fields) values 0) :=
    ReadsFields.structure values
      (reads_readFields hv fields [] hmembers hfinds m dataset dataset hinner rfl _ 0)
  rw [readsText_iff_arrives hreads, and_iff_right hnames, and_iff_right hfinds]

/-- Each DAP string for a field of a compound receives the field's text, and no other string is read or freed:
exactly if the members can be told apart, the number of elements is an `int`, and every text field is one that
the readers can make text of. -/
theorem readsText_iff (hv : f.vars[varid]? = some v)
    (hbuilt : Throwing.eval f.answer (Ncdds.buildUserDefined cfg ncid varid dataset
      (.compound typeId name size fields) v.dimIds) = .ok (some b))
    (htext : ∃ l ∈ fieldLeaves ownShape 0 fields, l.IsText) :
    (∀ (d : NcData) (values : Option NcData) (n : Nat) (varName : String) (slab : Slab),
      ReadsText (.compound typeId name size fields) (structureOf b) (values.getD d)
          (elementLeaves n size slab.capacity fields)
          (Throwing.eval (f.serve d) (NCArray.doArrayRead cfg firstMember varName (structureOf b) ncid varid
            (.compound typeId name size fields) values 0 (toInt n) slab))
          (freedBy f d (NCArray.doArrayRead cfg firstMember varName (structureOf b) ncid varid
            (.compound typeId name size fields) values 0 (toInt n) slab)) ↔
        ((memberNames fields).Nodup ∧ Unambiguous fields) ∧ n < 2 ^ 31 ∧
          ∀ l ∈ elementLeaves n size slab.capacity fields, l.Arrives v.ndims (toInt (f.lastLength v))) ∧
      ∀ (d : NcData) (values : Option NcData),
        ReadsText (.compound typeId name size fields) (structureOf b) (values.getD d)
            (fieldLeaves ownShape 0 fields)
            (Throwing.eval (f.serve d) (NCStructure.doStructureRead cfg firstMember (structureOf b) dataset
              ncid varid (.compound typeId name size fields) values 0))
            (freedBy f d (NCStructure.doStructureRead cfg firstMember (structureOf b) dataset ncid varid
              (.compound typeId name size fields) values 0)) ↔
          ((memberNames fields).Nodup ∧ Unambiguous fields) ∧
            ∀ l ∈ fieldLeaves ownShape 0 fields, l.Arrives v.ndims (toInt (f.lastLength v)) := by
  constructor
  · intro d values n varName slab
    exact doArrayRead_readsText hv hbuilt htext d values n varName slab
  · intro d values
    exact doStructureRead_readsText hv hbuilt d values

end Right

def pairFields : NcFields := .cons "names" 0 (.atomic .string) [2] .nil

def pairStructure : BaseType :=
  .ncStructure "x" "f.nc" [.ncArray "names" "f.nc" (.scalar .ncStr "names" "f.nc") [.whole 2 ""]]

/-- One of these is read right. -/
theorem readsText_pair :
    ReadsText (.compound 33 "pair" 16 pairFields) pairStructure ⟨List.replicate 16 0, []⟩
      (fieldLeaves ownShape 0 pairFields)
      (Throwing.eval ((NcFile.ofScalar (.compound 33 "pair" 16 pairFields)).serve ⟨List.replicate 16 0, []⟩)
        (NCStructure.doStructureRead {} firstMember pairStructure "f.nc" 0 0 (.compound 33 "pair" 16 pairFields)
          none 0))
      (freedBy (NcFile.ofScalar (.compound 33 "pair" 16 pairFields)) ⟨List.replicate 16 0, []⟩
        (NCStructure.doStructureRead {} firstMember pairStructure "f.nc" 0 0 (.compound 33 "pair" 16 pairFields)
          none 0)) := by
  have hbuilt : Throwing.eval (NcFile.ofScalar (.compound 33 "pair" 16 pairFields)).answer
      (Ncdds.buildUserDefined {} 0 0 "f.nc" (.compound 33 "pair" 16 pairFields) []) =
      .ok (some pairStructure) := by
    rfl
  have hv : (NcFile.ofScalar (.compound 33 "pair" 16 pairFields)).vars[0]? =
      some ⟨"x", .compound 33 "pair" 16 pairFields, [], []⟩ := rfl
  have htext : ∃ l ∈ fieldLeaves ownShape 0 pairFields, l.IsText := by decide
  have harrives : ∀ l ∈ fieldLeaves ownShape 0 pairFields, l.Arrives 0
      (toInt ((NcFile.ofScalar (.compound 33 "pair" 16 pairFields)).lastLength
        ⟨"x", .compound 33 "pair" 16 pairFields, [], []⟩)) := by
    intro l hl
    obtain rfl := List.mem_singleton.mp hl
    simp only [FieldLeaf.Arrives]
    decide
  obtain ⟨-, hone⟩ := readsText_iff hv hbuilt htext
  exact (hone ⟨List.replicate 16 0, []⟩ none).mpr ⟨⟨by decide, trivial⟩, harrives⟩

/-- The fields of a compound of a number and two names. -/
def stationFields : NcFields :=
  .cons "id" 0 (.atomic .int) [] (.cons "names" 8 (.atomic .string) [2] .nil)

/-- After the names `nc_free_string` gets the beginning of the buffer, where the number is. -/
theorem not_readsText_station :
    ¬ ∀ (f : NcFile) (cfg : Config) (ncid varid : Nat) (dataset : String) (typeId : Nat) (name : String)
        (size : Nat) (fields : NcFields) (v : Var) (b : BaseType) (d : NcData) (values : Option NcData),
      f.vars[varid]? = some v →
      Throwing.eval f.answer (Ncdds.buildUserDefined cfg ncid varid dataset
        (.compound typeId name size fields) v.dimIds) = .ok (some b) →
      (∃ l ∈ fieldLeaves ownShape 0 fields, l.IsText) →
      ReadsText (.compound typeId name size fields) (structureOf b) (values.getD d)
        (fieldLeaves ownShape 0 fields)
        (Throwing.eval (f.serve d) (NCStructure.doStructureRead cfg firstMember (structureOf b) dataset
          ncid varid (.compound typeId name size fields) values 0))
        (freedBy f d (NCStructure.doStructureRead cfg firstMember (structureOf b) dataset ncid varid
          (.compound typeId name size fields) values 0)) := by
  intro h
  have hbuilt : Throwing.eval (NcFile.ofScalar (.compound 33 "station" 24 stationFields)).answer
      (Ncdds.buildUserDefined {} 0 0 "f.nc" (.compound 33 "station" 24 stationFields) []) =
      .ok (some (.ncStructure "x" "f.nc" [.scalar .ncInt32 "id" "f.nc",
        .ncArray "names" "f.nc" (.scalar .ncStr "names" "f.nc") [.whole 2 ""]])) := by
    rfl
  have hv : (NcFile.ofScalar (.compound 33 "station" 24 stationFields)).vars[0]? =
      some ⟨"x", .compound 33 "station" 24 stationFields, [], []⟩ := rfl
  have hreads := h _ {} 0 0 "f.nc" 33 "station" 24 stationFields _ _ ⟨List.replicate 24 0, []⟩ none hv hbuilt
    (by decide)
  obtain ⟨-, harrives⟩ := (doStructureRead_readsText hv hbuilt _ none).mp hreads
  have hnames := harrives ⟨[.member "names"], .string, [2], 8, 2, 1⟩ (by decide)
  obtain ⟨-, -, -, hstart⟩ := hnames
  revert hstart
  decide

end Skunk.NetCDF
