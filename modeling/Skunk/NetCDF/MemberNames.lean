import Skunk.NetCDF.Ncdds
import Skunk.NetCDF.Readers
import Skunk.NetCDF.UserDefined

/-!
# The members of a Structure, and who looks for them

`build_user_defined` of `ncdds.cc` names the member for an atomic field after the field, and the one for
a nested compound after the type. The readers look for members under the same names, and `var(name)`
gives them the first member that has it. `finds_iff` says when that is the member of the field that is
being read.
-/

namespace Skunk.NetCDF

open Skunk.Effect

/-- The name under which a field is looked for. -/
def lookupName (fieldName : String) (type : NcType) : String :=
  if isUserDefinedType type then type.name else fieldName

/-- The place of the member that `var(name)` returns: the first one of the name. -/
def firstNamed (vars : List BaseType) (name : String) : Option Nat :=
  vars.findIdx? fun b => b.name == name

/-- The member has the class that the readers cast it to: a Structure for a user-defined type, else an
Array or a scalar. -/
def Castable (type : NcType) : BaseType → Prop
  | .ncStructure .. => isUserDefinedType type = true
  | .ncArray .. | .scalar .. => isUserDefinedType type = false
  | .ncGrid .. => False

mutual
/-- In a Structure for this type, each field finds its own member, at every depth. -/
def Finds : NcType → BaseType → Prop
  | .compound _ _ _ fields, .ncStructure _ _ vars => FindsFields vars fields 0
  | .compound .., _ => False
  | _, _ => True

/-- Of the members `vars`, those from the `i`-th on are the ones that these fields find. -/
def FindsFields (vars : List BaseType) : NcFields → Nat → Prop
  | .nil, i => i = vars.length
  | .cons fieldName _ type _ rest, i =>
    firstNamed vars (lookupName fieldName type) = some i ∧
      (∃ b, vars[i]? = some b ∧ Castable type b ∧ Finds type b) ∧ FindsFields vars rest (i + 1)
end

/-- The names of the fields, as they are looked for. -/
def memberNames : NcFields → List String
  | .nil => []
  | .cons fieldName _ type _ rest => lookupName fieldName type :: memberNames rest

/-- In every compound the names are different, and of the user-defined types there are only compounds
without dimensions. -/
def Unambiguous : NcFields → Prop
  | .nil => True
  | .cons _ _ (.atomic _) _ rest => Unambiguous rest
  | .cons _ _ (.compound _ _ _ fields) sizes rest =>
    sizes = [] ∧ (memberNames fields).Nodup ∧ Unambiguous fields ∧ Unambiguous rest
  | .cons .. => False

/-! ## What the builder makes -/

/-- A member for this field; `inner` is said of the members for the fields of a compound. -/
def IsMember (fieldName : String) (type : NcType) (sizes : List Nat) (inner : List BaseType → Prop)
    (b : BaseType) : Prop :=
  match type, sizes with
  | .atomic _, _ => b.name = fieldName ∧ Castable type b
  | .compound .., [] => b.name = type.name ∧ ∃ n dataset vars, b = .ncStructure n dataset vars ∧ inner vars
  | _, _ => ¬ Castable type b

def Members : NcFields → List BaseType → Prop
  | .nil, vars => vars = []
  | .cons fieldName _ (.compound id name size fields) sizes rest, vars => ∃ b bs, vars = b :: bs ∧
    IsMember fieldName (.compound id name size fields) sizes (Members fields) b ∧ Members rest bs
  | .cons fieldName _ type sizes rest, vars => ∃ b bs, vars = b :: bs ∧
    IsMember fieldName type sizes (fun _ => False) b ∧ Members rest bs

section Builder

variable {f : NcFile} {cfg : Config} {ncid varid : Nat} {dataset : String}

/-- Appending dimensions changes nothing else of an Array. -/
theorem of_appendDimsById {e : NcError} {ds : List Nat} {n d : String} {t b : BaseType}
    {dims : List ArrayDim}
    (h : Throwing.eval f.answer (Ncdds.appendDimsById ncid e ds (.ncArray n d t dims)) = .ok b) :
    ∃ dims', b = .ncArray n d t dims' := by
  induction ds generalizing dims with
  | nil => exact ⟨dims, (Except.ok.inj h).symm⟩
  | cons x ds ih =>
      rw [Ncdds.appendDimsById, Throwing.eval_bind] at h
      obtain ⟨dim, -, h⟩ := bind_eq_ok.mp h
      exact ih h

/-- A compound becomes a Structure of its members, and with dimensions an Array of it. -/
theorem of_buildUserDefined_compound {id : Nat} {name : String} {size : Nat} {fields : NcFields}
    {dimIds : List Nat} {b? : Option BaseType}
    (h : Throwing.eval f.answer (Ncdds.buildUserDefined cfg ncid varid dataset
      (.compound id name size fields) dimIds) = .ok b?) :
    ∃ n vars, Throwing.eval f.answer (Ncdds.buildFields cfg ncid varid dataset
        (.compound id name size fields) fields 0 []) = .ok vars ∧
      ((dimIds = [] ∧ b? = some (.ncStructure n dataset vars)) ∨
        dimIds ≠ [] ∧ ∃ dims, b? = some (.ncArray n dataset (.ncStructure n dataset vars) dims)) := by
  rw [Ncdds.buildUserDefined, Throwing.eval_bind] at h
  obtain ⟨_, -, h⟩ := bind_eq_ok.mp h
  rw [Throwing.eval_bind] at h
  obtain ⟨n, -, h⟩ := bind_eq_ok.mp h
  rw [Throwing.eval_bind] at h
  obtain ⟨vars, hvars, h⟩ := bind_eq_ok.mp h
  refine ⟨n, vars, hvars, ?_⟩
  dsimp only at h
  rw [Throwing.eval_ite] at h
  split at h
  next hdims =>
    rw [Throwing.eval_bind] at h
    obtain ⟨b, hb, h⟩ := bind_eq_ok.mp h
    obtain ⟨dims, rfl⟩ := of_appendDimsById hb
    obtain rfl := Except.ok.inj h
    exact .inr ⟨List.ne_nil_of_length_pos hdims, dims, rfl⟩
  next hdims =>
    obtain rfl := Except.ok.inj h
    exact .inl ⟨List.eq_nil_of_length_eq_zero (Nat.eq_zero_of_not_pos hdims), rfl⟩

/-- Of the other user-defined types none becomes a Structure. -/
theorem not_structure_of_buildUserDefined {type : NcType} (htype : isUserDefinedType type = true)
    (hother : ∀ id name size fields, type ≠ .compound id name size fields) {dimIds : List Nat}
    {b : BaseType}
    (h : Throwing.eval f.answer (Ncdds.buildUserDefined cfg ncid varid dataset type dimIds) =
      .ok (some b)) : ∀ n, ¬ Castable type (b.setName n) := by
  -- what is built is a scalar, or an Array of scalars
  have hplain : (∃ c n d, b = .scalar c n d) ∨ (∃ n d v dims, b = .ncArray n d v dims) := by
    cases type with
    | atomic t => cases htype
    | compound id name size fields => exact absurd rfl (hother id name size fields)
    | vlen id name size =>
        rw [Ncdds.buildUserDefined, Throwing.eval_bind] at h
        obtain ⟨_, -, h⟩ := bind_eq_ok.mp h
        rw [Throwing.eval_ite] at h
        -- it throws, or builds nothing
        split at h <;> cases h
    | opaqueBytes id name size =>
        rw [Ncdds.buildUserDefined, Throwing.eval_bind] at h
        obtain ⟨_, -, h⟩ := bind_eq_ok.mp h
        rw [Throwing.eval_bind] at h
        obtain ⟨n, -, h⟩ := bind_eq_ok.mp h
        dsimp only at h
        rw [Throwing.eval_bind] at h
        obtain ⟨a, ha, h⟩ := bind_eq_ok.mp h
        rw [BaseType.newNCArray_scalar] at ha
        obtain ⟨dims, rfl⟩ := of_appendDimsById ha
        obtain rfl := Option.some.inj (Except.ok.inj h)
        exact .inr ⟨_, _, _, _, rfl⟩
    | enum id name base members =>
        rw [Ncdds.buildUserDefined, Throwing.eval_bind] at h
        obtain ⟨_, -, h⟩ := bind_eq_ok.mp h
        rw [Throwing.eval_bind] at h
        obtain ⟨_, -, h⟩ := bind_eq_ok.mp h
        rw [Throwing.eval_bind] at h
        obtain ⟨n, -, h⟩ := bind_eq_ok.mp h
        rw [Throwing.eval_bind] at h
        obtain ⟨enumVar, henum, h⟩ := bind_eq_ok.mp h
        rw [Throwing.eval_ofExcept] at henum
        -- the variable is a scalar of the base type, or null
        have hscalar : ∀ v, enumVar = some v → ∃ c, v = .scalar c n dataset := by
          rintro v rfl
          rw [Ncdds.buildScalar] at henum
          split at henum
          · obtain rfl := Option.some.inj (Except.ok.inj henum)
            exact ⟨_, rfl⟩
          · split at henum <;> cases henum
        rw [Throwing.eval_ite] at h
        split at h
        · dsimp only at h
          rw [Throwing.eval_bind] at h
          obtain ⟨v, hv, h⟩ := bind_eq_ok.mp h
          rw [Throwing.eval_bind] at h
          obtain ⟨a, ha, h⟩ := bind_eq_ok.mp h
          cases enumVar with
          | none => cases hv
          | some v' =>
              obtain rfl := Except.ok.inj hv
              obtain ⟨c, rfl⟩ := hscalar _ rfl
              rw [BaseType.newNCArray_scalar] at ha
              obtain ⟨dims, rfl⟩ := of_appendDimsById ha
              obtain rfl := Option.some.inj (Except.ok.inj h)
              exact .inr ⟨_, _, _, _, rfl⟩
        · obtain rfl := Except.ok.inj h
          obtain ⟨c, rfl⟩ := hscalar _ rfl
          exact .inl ⟨_, _, _, rfl⟩
  intro n hcast
  rcases hplain with ⟨c, m, d, rfl⟩ | ⟨m, d, v, dims, rfl⟩
  · rw [BaseType.setName, Castable, htype] at hcast
    cases hcast
  · rw [BaseType.setName, Castable, htype] at hcast
    cases hcast

/-- The variable that is added for a field. -/
def fieldMember (dataset fieldName : String) (type : NcType) (sizes : List Nat) (field : BaseType) :
    BaseType :=
  if IsScalarField type sizes then field
  else (BaseType.newNCArray fieldName dataset field).appendDims (sizes.map fun n => .whole n "")

/-- What the loop does once it has the field: no null pointer is added. -/
theorem of_addField {xtype type : NcType} {fieldName : String} {i : Nat} {sizes : List Nat}
    {rest : NcFields} {ncs vars : List BaseType} {field? : Option BaseType}
    (h : Throwing.eval f.answer
      (if sizes.length = 0 ∨ (sizes.length = 1 ∧ type.isChar) then do
        let ncs ← Throwing.ofExcept (Ncdds.addVar ncs field?)
        Ncdds.buildFields cfg ncid varid dataset xtype rest (i + 1) ncs
      else do
        let field ← Throwing.ofExcept (deref field?)
        let ar := (BaseType.newNCArray fieldName dataset field).appendDims
          (sizes.map fun n => .whole n "")
        let ncs ← Throwing.ofExcept (Ncdds.addVar ncs (some ar))
        Ncdds.buildFields cfg ncid varid dataset xtype rest (i + 1) ncs) = .ok vars) :
    ∃ field, field? = some field ∧
      Throwing.eval f.answer (Ncdds.buildFields cfg ncid varid dataset xtype rest (i + 1)
        (ncs ++ [fieldMember dataset fieldName type sizes field])) = .ok vars := by
  unfold fieldMember
  rw [Throwing.eval_ite] at h
  split at h
  next hscalar =>
    rw [Throwing.eval_bind] at h
    obtain ⟨ncs', hadd, h⟩ := bind_eq_ok.mp h
    cases field? with
    -- a null pointer is an error when it is added
    | none => cases hadd
    | some field =>
        obtain rfl := Except.ok.inj hadd
        have hscalar' : IsScalarField type sizes := hscalar
        exact ⟨field, rfl, by rw [if_pos hscalar']; exact h⟩
  next hscalar =>
    rw [Throwing.eval_bind] at h
    obtain ⟨field, hderef, h⟩ := bind_eq_ok.mp h
    dsimp only at h
    rw [Throwing.eval_bind] at h
    obtain ⟨ncs', hadd, h⟩ := bind_eq_ok.mp h
    cases field? with
    -- and so it is as the template of an Array
    | none => cases hderef
    | some field' =>
        obtain rfl := Except.ok.inj hderef
        obtain rfl := Except.ok.inj hadd
        have hscalar' : ¬ IsScalarField type sizes := hscalar
        exact ⟨field', rfl, by rw [if_neg hscalar']; exact h⟩

/-- Where the field comes from. -/
def IsField (f : NcFile) (cfg : Config) (ncid varid : Nat) (dataset fieldName : String) (type : NcType)
    (sizes : List Nat) (field : BaseType) : Prop :=
  if isUserDefinedType type = true then
    ∃ b, Throwing.eval f.answer (Ncdds.buildUserDefined cfg ncid varid dataset type sizes) =
      .ok (some b) ∧ field = b.setName type.name
  else Ncdds.buildScalar cfg fieldName dataset type = .ok (some field)

/-- One round of the loop over the fields. -/
theorem of_buildFields_cons {xtype type : NcType} {fieldName : String} {offset i : Nat}
    {sizes : List Nat} {rest : NcFields} {ncs vars : List BaseType}
    (h : Throwing.eval f.answer (Ncdds.buildFields cfg ncid varid dataset xtype
      (.cons fieldName offset type sizes rest) i ncs) = .ok vars) :
    ∃ field, IsField f cfg ncid varid dataset fieldName type sizes field ∧
      Throwing.eval f.answer (Ncdds.buildFields cfg ncid varid dataset xtype rest (i + 1)
        (ncs ++ [fieldMember dataset fieldName type sizes field])) = .ok vars := by
  unfold IsField
  rw [Ncdds.buildFields, Throwing.eval_bind] at h
  obtain ⟨_, -, h⟩ := bind_eq_ok.mp h
  dsimp only at h
  rw [Throwing.eval_ite] at h
  split at h
  next huser =>
    rw [Throwing.eval_bind] at h
    obtain ⟨b?, hb, h⟩ := bind_eq_ok.mp h
    rw [Throwing.eval_bind] at h
    obtain ⟨n, hn, h⟩ := bind_eq_ok.mp h
    rw [Throwing.eval_bind] at h
    obtain ⟨b, hderef, h⟩ := bind_eq_ok.mp h
    rw [Throwing.eval_bind, Throwing.eval_pure, ok_bind] at h
    obtain ⟨field, hsome, hrest⟩ := of_addField h
    have hname : f.answer (.ncInqCompoundName ncid type) = .ok type.name := if_pos huser
    rw [inqUnchecked, eval_inqOrThrow_ok _ hname] at hn
    obtain rfl := Except.ok.inj hn
    obtain rfl := Option.some.inj hsome
    cases b? with
    | none => cases hderef
    | some b' =>
        obtain rfl := Except.ok.inj hderef
        refine ⟨_, ?_, hrest⟩
        rw [if_pos huser]
        exact ⟨_, hb, rfl⟩
  next huser =>
    rw [Throwing.eval_bind] at h
    obtain ⟨b?, hb, h⟩ := bind_eq_ok.mp h
    obtain ⟨field, rfl, hrest⟩ := of_addField h
    refine ⟨field, ?_, hrest⟩
    rw [if_neg huser]
    exact hb

theorem not_castable_array {type : NcType} (huser : isUserDefinedType type = true)
    (n d : String) (b : BaseType) (dims : List ArrayDim) :
    ¬ Castable type ((BaseType.newNCArray n d b).appendDims dims) := by
  obtain ⟨v, dims', harr⟩ := BaseType.newNCArray_eq n d b
  rw [harr, BaseType.appendDims_ncArray, Castable, huser]
  exact Bool.noConfusion

/-- What is built for a field is a member for it. -/
theorem isMember_of_isField {type : NcType} {fieldName : String} {sizes : List Nat} {field : BaseType}
    {inner : List BaseType → Prop}
    (hinner : ∀ id name size fields vars, type = .compound id name size fields →
      Throwing.eval f.answer (Ncdds.buildFields cfg ncid varid dataset type fields 0 []) = .ok vars →
      inner vars)
    (h : IsField f cfg ncid varid dataset fieldName type sizes field) :
    IsMember fieldName type sizes inner (fieldMember dataset fieldName type sizes field) := by
  unfold IsField at h
  unfold fieldMember
  cases type with
  | atomic t =>
      have hscalar : ∃ c, field = .scalar c fieldName dataset := by
        change Ncdds.buildScalar cfg fieldName dataset (.atomic t) = .ok (some field) at h
        rw [Ncdds.buildScalar] at h
        split at h
        · exact ⟨_, (Option.some.inj (Except.ok.inj h)).symm⟩
        · split at h <;> cases h
      obtain ⟨c, rfl⟩ := hscalar
      split
      · exact ⟨rfl, rfl⟩
      · rw [BaseType.newNCArray_scalar, BaseType.appendDims_ncArray]
        exact ⟨rfl, rfl⟩
  | compound id name size fields =>
      obtain ⟨b, hb, rfl⟩ := h
      obtain ⟨n, vars, hvars, hshape⟩ := of_buildUserDefined_compound hb
      cases sizes with
      | nil =>
          rcases hshape with ⟨-, hb⟩ | ⟨hne, -⟩
          · obtain rfl := Option.some.inj hb
            rw [if_pos (.inl rfl)]
            exact ⟨rfl, _, _, vars, rfl, hinner id name size fields vars rfl hvars⟩
          · exact absurd rfl hne
      | cons x xs =>
          -- with dimensions it is an Array, which the readers cannot cast to a Structure
          rw [if_neg (not_isScalarField_compound (List.cons_ne_nil x xs))]
          exact not_castable_array rfl _ _ _ _
  | vlen id name size =>
      obtain ⟨b, hb, rfl⟩ := h
      have hno := not_structure_of_buildUserDefined rfl (by simp) hb
      show ¬ Castable _ _
      split
      · exact hno _
      · exact not_castable_array rfl _ _ _ _
  | opaqueBytes id name size =>
      obtain ⟨b, hb, rfl⟩ := h
      have hno := not_structure_of_buildUserDefined rfl (by simp) hb
      show ¬ Castable _ _
      split
      · exact hno _
      · exact not_castable_array rfl _ _ _ _
  | enum id name base members =>
      obtain ⟨b, hb, rfl⟩ := h
      have hno := not_structure_of_buildUserDefined rfl (by simp) hb
      show ¬ Castable _ _
      split
      · exact hno _
      · exact not_castable_array rfl _ _ _ _

/-- The builder makes a member for each field. -/
theorem of_buildFields {xtype : NcType} (fields : NcFields) {i : Nat} {ncs vars : List BaseType}
    (h : Throwing.eval f.answer (Ncdds.buildFields cfg ncid varid dataset xtype fields i ncs) =
      .ok vars) : ∃ ms, vars = ncs ++ ms ∧ Members fields ms := by
  match fields with
  | .nil =>
      rw [Ncdds.buildFields] at h
      exact ⟨[], by rw [List.append_nil]; exact (Except.ok.inj h).symm, rfl⟩
  | .cons fieldName offset type sizes rest =>
      obtain ⟨field, hfield, hrest⟩ := of_buildFields_cons h
      obtain ⟨ms, rfl, hms⟩ := of_buildFields rest hrest
      refine ⟨fieldMember dataset fieldName type sizes field :: ms, by rw [List.append_assoc]; rfl, ?_⟩
      cases type with
      | compound id name size inner =>
          refine ⟨_, ms, rfl, isMember_of_isField ?_ hfield, hms⟩
          rintro id' name' size' fields' vars' heq hvars
          obtain ⟨-, -, -, rfl⟩ := NcType.compound.inj heq
          obtain ⟨ms', rfl, hms'⟩ := of_buildFields inner hvars
          exact hms'
      | _ =>
          refine ⟨_, ms, rfl, isMember_of_isField ?_ hfield, hms⟩
          intro _ _ _ _ _ heq
          cases heq

end Builder

/-! ## What the readers find -/

/-- A member is the first of its name if no member in front of it has the name. -/
theorem firstNamed_append {pre bs : List BaseType} {b : BaseType} {n : String} :
    firstNamed (pre ++ b :: bs) n = some pre.length ↔ n ∉ pre.map BaseType.name ∧ b.name = n := by
  unfold firstNamed
  induction pre with
  | nil =>
      rw [List.nil_append, List.findIdx?_cons]
      by_cases hn : b.name = n
      · simp [hn]
      · simp [hn]
  | cons a pre ih =>
      rw [List.cons_append, List.findIdx?_cons, List.map_cons, List.mem_cons, not_or]
      by_cases hn : a.name = n
      · simp [hn]
      · rw [if_neg (by simpa using hn), Option.map_eq_some_iff]
        simp only [List.length_cons, Nat.add_right_cancel_iff, exists_eq_right, ih]
        have hne : n ≠ a.name := Ne.symm hn
        simp [hne]

/-- The fields find their members exactly if the names are different from each other and from those of
the members in front. -/
theorem findsFields_iff (fields : NcFields) (pre : List BaseType) {ms : List BaseType}
    (h : Members fields ms) :
    FindsFields (pre ++ ms) fields pre.length ↔
      Unambiguous fields ∧ (memberNames fields).Nodup ∧
        ∀ n ∈ memberNames fields, n ∉ pre.map BaseType.name := by
  match fields with
  | .nil =>
      obtain rfl : ms = [] := h
      simp [FindsFields, Unambiguous, memberNames]
  | .cons fieldName offset type sizes rest =>
      -- what holds whatever the type, once the member is known
      have hcons : ∀ {b : BaseType} {bs : List BaseType} {inner : Prop}, ms = b :: bs →
          Members rest bs → b.name = lookupName fieldName type → (Castable type b ∧ Finds type b ↔ inner) →
          (FindsFields (pre ++ ms) (.cons fieldName offset type sizes rest) pre.length ↔
            (inner ∧ Unambiguous rest) ∧ (memberNames (.cons fieldName offset type sizes rest)).Nodup ∧
              ∀ n ∈ memberNames (.cons fieldName offset type sizes rest), n ∉ pre.map BaseType.name) := by
        rintro b bs inner rfl hbs hname hinner
        have hrest := findsFields_iff rest (pre ++ [b]) hbs
        rw [List.append_assoc, List.singleton_append, List.length_append, List.length_singleton] at hrest
        have hb : (pre ++ b :: bs)[pre.length]? = some b := by simp
        rw [FindsFields, firstNamed_append, hrest, memberNames, List.nodup_cons, List.forall_mem_cons, hb]
        simp only [Option.some.injEq, exists_eq_left', hinner, hname, and_true, List.map_append,
          List.map_cons, List.map_nil, List.mem_append, List.mem_singleton, not_or, forall_and]
        have hnotMem : (∀ n ∈ memberNames rest, ¬ n = lookupName fieldName type) ↔
            lookupName fieldName type ∉ memberNames rest := by
          constructor
          · exact fun hall hmem => hall _ hmem rfl
          · rintro hnot n hn rfl
            exact hnot hn
        rw [hnotMem]
        tauto
      -- a member of the wrong class is not found
      have hnone : ∀ {b : BaseType} {bs : List BaseType}, ms = b :: bs → ¬ Castable type b →
          ¬ FindsFields (pre ++ ms) (.cons fieldName offset type sizes rest) pre.length := by
        rintro b bs rfl hno hfinds
        rw [FindsFields] at hfinds
        obtain ⟨-, ⟨b', hb', hcast, -⟩, -⟩ := hfinds
        have hb : (pre ++ b :: bs)[pre.length]? = some b := by simp
        rw [hb] at hb'
        obtain rfl := Option.some.inj hb'
        exact hno hcast
      cases type with
      | atomic t =>
          obtain ⟨b, bs, rfl, ⟨hname, hcast⟩, hbs⟩ := h
          have hinner : Castable (.atomic t) b ∧ Finds (.atomic t) b ↔ True := by
            simp [hcast, Finds]
          rw [hcons rfl hbs hname hinner, true_and]
          exact Iff.rfl
      | compound id name size inner =>
          cases sizes with
          | nil =>
              obtain ⟨b, bs, rfl, ⟨hname, n, dataset, vars, rfl, hvars⟩, hbs⟩ := h
              have hfinds := findsFields_iff inner [] hvars
              have hinner : Castable (.compound id name size inner) (.ncStructure n dataset vars) ∧
                  Finds (.compound id name size inner) (.ncStructure n dataset vars) ↔
                  (memberNames inner).Nodup ∧ Unambiguous inner := by
                have hcast : Castable (.compound id name size inner) (.ncStructure n dataset vars) := rfl
                rw [Finds, and_iff_right hcast]
                simpa [and_comm] using hfinds
              rw [hcons rfl hbs hname hinner, Unambiguous]
              simp only [true_and, and_assoc]
          | cons x xs =>
              obtain ⟨b, bs, rfl, hno, -⟩ := h
              refine iff_of_false (hnone rfl hno) ?_
              rintro ⟨hunambiguous, -⟩
              rw [Unambiguous] at hunambiguous
              cases hunambiguous.1
      | _ =>
          obtain ⟨b, bs, rfl, hno, -⟩ := h
          refine iff_of_false (hnone rfl hno) ?_
          rintro ⟨hunambiguous, -⟩
          rw [Unambiguous] at hunambiguous
          · exact hunambiguous
          all_goals simp

/-- The Structure of a variable: the variable itself, or the template of an Array. -/
def structureOf : BaseType → BaseType
  | .ncArray _ _ v _ => v
  | b => b

/-- The readers find in what `build_user_defined` makes of a compound type the member of each field,
exactly if the names that they look for are different in each compound, and of the user-defined types
there are only compounds without dimensions. -/
theorem finds_iff (f : NcFile) (cfg : Config) (ncid varid : Nat) (dataset : String) {id : Nat}
    {name : String} {size : Nat} {fields : NcFields} {dimIds : List Nat} {b : BaseType}
    (h : Throwing.eval f.answer (Ncdds.buildUserDefined cfg ncid varid dataset
      (.compound id name size fields) dimIds) = .ok (some b)) :
    Finds (.compound id name size fields) (structureOf b) ↔
      (memberNames fields).Nodup ∧ Unambiguous fields := by
  obtain ⟨n, vars, hvars, hshape⟩ := of_buildUserDefined_compound h
  have hstructure : structureOf b = .ncStructure n dataset vars := by
    rcases hshape with ⟨-, hb⟩ | ⟨-, dims, hb⟩
    · obtain rfl := Option.some.inj hb
      rfl
    · obtain rfl := Option.some.inj hb
      rfl
  obtain ⟨ms, rfl, hms⟩ := of_buildFields fields hvars
  have hfinds := findsFields_iff fields [] hms
  rw [hstructure, Finds]
  simpa [and_comm] using hfinds

/-- A compound of one number, nested once beside another number. -/
def segmentType : NcType :=
  .compound 33 "segment" 8 (.cons "start" 0 pointType [] (.cons "length" 4 (.atomic .int) [] .nil))

theorem segmentType_finds :
    Finds segmentType (structureOf (.ncStructure "x" "f.nc"
      [.ncStructure "point" "f.nc" [.scalar .ncInt32 "x" "f.nc"], .scalar .ncInt32 "length" "f.nc"])) ↔
    (memberNames (.cons "start" 0 pointType [] (.cons "length" 4 (.atomic .int) [] .nil))).Nodup ∧
      Unambiguous (.cons "start" 0 pointType [] (.cons "length" 4 (.atomic .int) [] .nil)) := by
  have hbuilt : Throwing.eval (NcFile.ofScalar segmentType).answer
      (Ncdds.buildUserDefined {} 0 0 "f.nc" segmentType []) = .ok (some (.ncStructure "x" "f.nc"
        [.ncStructure "point" "f.nc" [.scalar .ncInt32 "x" "f.nc"],
          .scalar .ncInt32 "length" "f.nc"])) := by
    rfl
  exact finds_iff (NcFile.ofScalar segmentType) {} 0 0 "f.nc" hbuilt

/-- A compound with two fields of the same compound type. -/
def lineType : NcType :=
  .compound 33 "line" 8 (.cons "start" 0 pointType [] (.cons "stop" 4 pointType [] .nil))

/-- Both members are named `point`, so `stop` is read into the member for `start`. -/
theorem lineType_not_finds :
    ¬ ∀ (f : NcFile) (cfg : Config) (ncid varid : Nat) (dataset : String) (type : NcType)
        (dimIds : List Nat) (b : BaseType),
      Throwing.eval f.answer (Ncdds.buildUserDefined cfg ncid varid dataset type dimIds) =
        .ok (some b) → Finds type (structureOf b) := by
  intro h
  have hfinds := h (NcFile.ofScalar lineType) {} 0 0 "f.nc" lineType []
    (.ncStructure "x" "f.nc" [.ncStructure "point" "f.nc" [.scalar .ncInt32 "x" "f.nc"],
      .ncStructure "point" "f.nc" [.scalar .ncInt32 "x" "f.nc"]]) (by rfl)
  obtain ⟨-, -, hstop, -⟩ := hfinds
  revert hstop
  decide

end Skunk.NetCDF
