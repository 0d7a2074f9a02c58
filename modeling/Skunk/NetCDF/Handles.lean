import Skunk.NetCDF.DataAccess

/-!
# Open handles

Which runs of `read()` and of `get_dmr` leave the set of open handles as it was? The world is
`NcWorld`, in which any call may fail.

Using an open file opens and closes nothing, so one session adds at most the one handle it opened, and
removes none that was there. It removes its own again

* in `read()` and in `nc_read_dataset_attributes`, if no exception is thrown between `nc_open` and
  `nc_close` and `nc_close` does not fail;
* in `nc_read_dataset_variables`, which closes in a destructor, if `nc_close` does not fail;
* in `NCStr::read` never: it has no `nc_close`.
-/

namespace Skunk.NetCDF

open Skunk.Effect

namespace NcWorld

variable {α : Type}

/-! ## One session -/

/-- The next `nc_open` fails. -/
def OpenRefused (w : NcWorld) : Prop := w.nextStatus ≠ ncNoErr

instance (w : NcWorld) : Decidable w.OpenRefused := inferInstanceAs (Decidable (_ ≠ _))

/-- Open a file and use it: the outcome, and the world at the end. -/
def use (x : Nat → Acc α) (w : NcWorld) : Except NcError α × NcWorld :=
  exec (accessing (x w.fresh)) w.opened

/-- No exception is thrown while the file is used. -/
def Completes (x : Nat → Acc α) (w : NcWorld) : Prop := ∃ a, (w.use x).1 = .ok a

/-- The `nc_close` after the file has been used does not fail. -/
def CloseAccepted (x : Nat → Acc α) (w : NcWorld) : Prop := (w.use x).2.nextStatus = ncNoErr

instance (x : Nat → Acc α) (w : NcWorld) : Decidable (w.CloseAccepted x) :=
  inferInstanceAs (Decidable (_ = _))

/-- Opened, used without an exception, and closed; or not opened at all. -/
def Balanced (x : Nat → Acc α) (w : NcWorld) : Prop :=
  w.OpenRefused ∨ (w.Completes x ∧ w.CloseAccepted x)

theorem handles_use (x : Nat → Acc α) (w : NcWorld) :
    (w.use x).2.handles = insert w.fresh w.handles :=
  handles_exec_accessing (x w.fresh) w.opened

/-- The only handle that may be new is the one that was opened. -/
def AddsAtMostFresh (w w' : NcWorld) : Prop :=
  w'.handles = w.handles ∨ w'.handles = insert w.fresh w.handles

theorem AddsAtMostFresh.subset {w w' : NcWorld} (h : AddsAtMostFresh w w') :
    w.handles ⊆ w'.handles := by
  rcases h with h | h
  · rw [h]
  · rw [h]
    exact Finset.subset_insert _ _

theorem insert_fresh_ne (w : NcWorld) : insert w.fresh w.handles ≠ w.handles := by
  intro h
  apply w.fresh_notMem
  rw [← h]
  exact Finset.mem_insert_self _ _

theorem exec_openOrThrow_refused {w : NcWorld} (h : w.OpenRefused) (path : String)
    (e : Int → NcError) :
    exec (openOrThrow path e) w = (.error (e w.nextStatus), w.tick) := by
  have hstep : step (.ncOpen path) w = (.fail w.nextStatus (0 : Nat), w.tick) := if_neg h
  have hthrow : (w.nextStatus ≠ ncNoErr) := h
  rw [exec, openOrThrow, Throwing.run_bind, Throwing.run_request, hstep]
  simp [hthrow]

theorem exec_openOrThrow_ok {w : NcWorld} (h : ¬ w.OpenRefused) (path : String)
    (e : Int → NcError) :
    exec (openOrThrow path e) w = (.ok w.fresh, w.opened) := by
  have hstatus : w.nextStatus = ncNoErr := not_not.mp h
  have hstep : step (.ncOpen path) w = (.ok w.fresh, w.opened) := if_pos hstatus
  rw [exec, openOrThrow, Throwing.run_bind, Throwing.run_request, hstep]
  rfl

/-- Closing an open handle. -/
theorem exec_closeFile {w : NcWorld} {ncid : Nat} (h : ncid ∈ w.handles) :
    exec (closeFile ncid) w =
      (.ok w.nextStatus, if w.nextStatus = ncNoErr then w.closed ncid else w.tick) := by
  rw [exec, closeFile, Throwing.run_bind, Throwing.run_request]
  by_cases hstatus : w.nextStatus = ncNoErr
  · have hstep : step (.ncClose ncid) w = (.ok (), w.closed ncid) := by
      simp [step, h, hstatus]
    rw [hstep, if_pos hstatus, hstatus]
    rfl
  · have hstep : step (.ncClose ncid) w = (.fail w.nextStatus (), w.tick) := by
      simp [step, h, hstatus]
    rw [hstep, if_neg hstatus]
    rfl

/-- After a use, the handle is there to be closed. -/
theorem fresh_mem_use (x : Nat → Acc α) (w : NcWorld) : w.fresh ∈ (w.use x).2.handles := by
  rw [handles_use]
  exact Finset.mem_insert_self _ _

theorem handles_closed_use (x : Nat → Acc α) (w : NcWorld) :
    ((w.use x).2.closed w.fresh).handles = w.handles := by
  rw [handles_closed, handles_use, Finset.erase_insert w.fresh_notMem]

/-- What a session does that closes the file only after a use without an exception. -/
theorem exec_usingFile (path : String) (eo : Int → NcError) (ec : NcError) (x : Nat → Acc α)
    (w : NcWorld) :
    exec (usingFile path eo ec x) w =
      if w.OpenRefused then (.error (eo w.nextStatus), w.tick)
      else match w.use x with
        | (.error e, w') => (.error e, w')
        | (.ok a, w') =>
          if w'.nextStatus = ncNoErr then (.ok a, w'.closed w.fresh) else (.error ec, w'.tick) := by
  by_cases hopen : w.OpenRefused
  · rw [if_pos hopen, usingFile]
    exact exec_bind_error (exec_openOrThrow_refused hopen path eo)
  · have hmem := fresh_mem_use x w
    rw [if_neg hopen, usingFile, exec_bind_ok (exec_openOrThrow_ok hopen path eo)]
    rcases huse : w.use x with ⟨e | a, w'⟩
    · exact exec_bind_error huse
    · rw [huse] at hmem
      rw [exec_bind_ok huse, exec_bind_ok (exec_closeFile hmem)]
      by_cases hclose : w'.nextStatus = ncNoErr
      · simp [hclose]
      · simp [hclose]

/-- Such a session leaves the handles alone exactly if it is balanced. -/
theorem handles_usingFile (path : String) (eo : Int → NcError) (ec : NcError) (x : Nat → Acc α)
    (w : NcWorld) :
    AddsAtMostFresh w (exec (usingFile path eo ec x) w).2 ∧
      ((exec (usingFile path eo ec x) w).2.handles = w.handles ↔ w.Balanced x) := by
  have hhandles := handles_use x w
  rw [exec_usingFile]
  by_cases hopen : w.OpenRefused
  · rw [if_pos hopen]
    exact ⟨Or.inl rfl, iff_of_true rfl (Or.inl hopen)⟩
  · rw [if_neg hopen, Balanced, CloseAccepted, Completes]
    have hclosed := handles_closed_use x w
    rcases huse : w.use x with ⟨e | a, w'⟩
    · rw [huse] at hhandles
      refine ⟨Or.inr hhandles, iff_of_false ?_ (by simp [hopen])⟩
      rw [hhandles]
      exact w.insert_fresh_ne
    · rw [huse] at hhandles hclosed
      by_cases hclose : w'.nextStatus = ncNoErr
      · simp only [hclose, if_true]
        exact ⟨Or.inl hclosed, iff_of_true hclosed (Or.inr ⟨⟨a, rfl⟩, trivial⟩)⟩
      · simp only [hclose, if_false, handles_tick]
        refine ⟨Or.inr hhandles, iff_of_false ?_ (by simp [hopen])⟩
        rw [hhandles]
        exact w.insert_fresh_ne

/-- A session that closes the file in a destructor. -/
theorem exec_ensuring (path : String) (eo : Int → NcError) (x : Nat → Acc α) (w : NcWorld) :
    exec (do
        let ncid ← openOrThrow path eo
        Throwing.ensuring (accessing (x ncid)) do
          let _ ← closeFile ncid) w =
      if w.OpenRefused then (.error (eo w.nextStatus), w.tick)
      else ((w.use x).1, if w.CloseAccepted x then (w.use x).2.closed w.fresh else (w.use x).2.tick)
      := by
  by_cases hopen : w.OpenRefused
  · rw [if_pos hopen]
    exact exec_bind_error (exec_openOrThrow_refused hopen path eo)
  · have huse : exec (Throwing.attempt (accessing (x w.fresh))) w.opened =
        (.ok (w.use x).1, (w.use x).2) :=
      Throwing.run_attempt (I := ncCalls) step (accessing (x w.fresh)) w.opened
    rw [if_neg hopen, exec_bind_ok (exec_openOrThrow_ok hopen path eo), Throwing.ensuring,
      exec_bind_ok huse, exec_bind_ok (exec_bind_ok (exec_closeFile (fresh_mem_use x w)))]
    rfl

end NcWorld

/-! ## `read()` -/

section Reading

variable (cfg : Config) (lookup : BaseType → String → Option BaseType)

/-- What `read()` of a class does between `nc_open` and `nc_close`. -/
def valuesOf (v : BaseType) (ncid : Nat) : Acc Values :=
  match v with
  | .scalar .ncByte name _ => NCByte.values name ncid
  | .scalar .ncInt16 name _ => NCInt16.values cfg name ncid
  | .scalar .ncUInt16 name _ => NCUInt16.values name ncid
  | .scalar .ncInt32 name _ => NCInt32.values name ncid
  | .scalar .ncUInt32 name _ => NCUInt32.values name ncid
  | .scalar .ncFloat32 name _ => NCFloat32.values name ncid
  | .scalar .ncFloat64 name _ => NCFloat64.values name ncid
  | .scalar .ncStr name _ => NCStr.values name ncid
  | .ncArray name _ var dims => NCArray.values cfg lookup name var dims ncid
  | .ncStructure name dataset vars => NCStructure.values cfg lookup name dataset vars ncid
  | .ncGrid .. => pure (none, [])

/-- The runs of `read()` after which the handles are those of before. `NCStr` never closes, and a
Grid opens nothing itself. -/
def ReadBalanced (v : BaseType) (readP : Bool) (w : NcWorld) : Prop :=
  match v with
  | .scalar .ncStr _ _ => readP ∨ w.OpenRefused
  | .ncGrid .. => True
  | v => readP ∨ w.Balanced (valuesOf cfg lookup v)

/-- A read opens one dataset at most; nothing stays open exactly if it is balanced or nothing is left to read. -/
theorem handles_readDataset (dataset : String) (readP : Bool) (x : Nat → Acc Values)
    (w : NcWorld) :
    w.AddsAtMostFresh (NcWorld.exec (readDataset dataset readP x) w).2 ∧
      ((NcWorld.exec (readDataset dataset readP x) w).2.handles = w.handles ↔
        readP ∨ w.Balanced x) := by
  cases readP with
  | true => exact ⟨Or.inl rfl, iff_of_true rfl (Or.inl rfl)⟩
  | false =>
      simpa [readDataset] using NcWorld.handles_usingFile dataset (openError dataset)
        (.internalErr "Could not close the dataset!") x w

/-- `NCStr::read` leaves its dataset open, if it opens one. -/
theorem handles_readStr (name dataset : String) (readP : Bool) (w : NcWorld) :
    w.AddsAtMostFresh (NcWorld.exec (NCStr.read name dataset readP) w).2 ∧
      ((NcWorld.exec (NCStr.read name dataset readP) w).2.handles = w.handles ↔
        readP ∨ w.OpenRefused) := by
  cases readP with
  | true => exact ⟨Or.inl rfl, iff_of_true rfl (Or.inl rfl)⟩
  | false =>
      by_cases hopen : w.OpenRefused
      · have hrun : (NcWorld.exec (NCStr.read name dataset false) w).2 = w.tick := by
          show (NcWorld.exec (openOrThrow dataset (openError dataset) >>= _) w).2 = _
          rw [NcWorld.exec_bind_error (NcWorld.exec_openOrThrow_refused hopen _ _)]
        rw [hrun]
        exact ⟨Or.inl rfl, iff_of_true rfl (Or.inr hopen)⟩
      · have hrun : (NcWorld.exec (NCStr.read name dataset false) w).2 =
            (w.use (NCStr.values name)).2 := by
          show (NcWorld.exec (openOrThrow dataset (openError dataset) >>= _) w).2 = _
          rw [NcWorld.exec_bind_ok (NcWorld.exec_openOrThrow_ok hopen _ _)]
          rfl
        have hhandles := NcWorld.handles_use (NCStr.values name) w
        rw [hrun, hhandles]
        exact ⟨Or.inr hhandles, iff_of_false w.insert_fresh_ne (by simp [hopen])⟩

/-- `read()` of every class but `NCGrid`. -/
theorem handles_readPlain (v : BaseType) (readP : Bool) (w : NcWorld) :
    w.AddsAtMostFresh (NcWorld.exec (readPlain cfg lookup v readP) w).2 ∧
      ((NcWorld.exec (readPlain cfg lookup v readP) w).2.handles = w.handles ↔
        ReadBalanced cfg lookup v readP w) := by
  cases v with
  | scalar cls name dataset =>
      cases cls with
      | ncStr => exact handles_readStr name dataset readP w
      | _ => exact handles_readDataset dataset readP _ w
  | ncArray name dataset var dims => exact handles_readDataset dataset readP _ w
  | ncStructure name dataset vars => exact handles_readDataset dataset readP _ w
  | ncGrid name dataset arrayVar maps => exact ⟨Or.inl rfl, iff_of_true rfl trivial⟩

/-- The components of a Grid are read one after the other, until one throws. -/
def ComponentsBalanced : List Component → NcWorld → Prop
  | [], _ => True
  | c :: cs, w =>
    if c.selected then
      ReadBalanced cfg lookup c.var c.readP w ∧
        ∀ v w', NcWorld.exec (readPlain cfg lookup c.var c.readP) w = (.ok v, w') →
          ComponentsBalanced cs w'
    else ComponentsBalanced cs w

/-- Nothing that was open is closed, and nothing stays open exactly if each component is balanced. -/
theorem handles_readComponents (cs : List Component) (w : NcWorld) :
    w.handles ⊆ (NcWorld.exec (readComponents cfg lookup cs) w).2.handles ∧
      ((NcWorld.exec (readComponents cfg lookup cs) w).2.handles = w.handles ↔
        ComponentsBalanced cfg lookup cs w) := by
  induction cs generalizing w with
  | nil => exact ⟨Finset.Subset.refl _, iff_of_true rfl trivial⟩
  | cons c cs ih =>
      by_cases hsel : c.selected
      case neg => simpa [readComponents, ComponentsBalanced, hsel] using ih w
      obtain ⟨hadds, hfirst⟩ := handles_readPlain cfg lookup c.var c.readP w
      have hsub := hadds.subset
      simp only [readComponents, ComponentsBalanced, hsel, if_true]
      rcases hexec : NcWorld.exec (readPlain cfg lookup c.var c.readP) w with ⟨e | v, w'⟩
      · rw [hexec] at hsub hfirst
        rw [NcWorld.exec_bind_error hexec, ← hfirst]
        exact ⟨hsub, by simp⟩
      · rw [hexec] at hsub hfirst
        obtain ⟨hsub', hrest⟩ := ih w'
        rw [NcWorld.exec_bind_ok hexec, ← hfirst]
        have hlast : (NcWorld.exec (readComponents cfg lookup cs >>= fun vs =>
            (pure (v :: vs) : Session (List Values))) w').2 =
              (NcWorld.exec (readComponents cfg lookup cs) w').2 := by
          rcases hrun : NcWorld.exec (readComponents cfg lookup cs) w' with ⟨e | vs, w''⟩
          · rw [NcWorld.exec_bind_error hrun]
          · rw [NcWorld.exec_bind_ok hrun]
            rfl
        rw [hlast]
        refine ⟨hsub.trans hsub', ?_⟩
        constructor
        · intro h
          have hsame : w'.handles = w.handles := (h ▸ hsub').antisymm hsub
          refine ⟨hsame, ?_⟩
          rintro v₂ w₂ hw₂
          obtain ⟨-, rfl⟩ := Prod.mk.inj hw₂
          exact hrest.mp (h.trans hsame.symm)
        · rintro ⟨hsame, hcs⟩
          exact (hrest.mpr (hcs v w' rfl)).trans hsame

/-- The same for a Grid. -/
def GridBalanced (readP : Bool) (arrayVar : Component) (maps : List Component) (w : NcWorld) :
    Prop :=
  readP ∨ ComponentsBalanced cfg lookup (arrayVar :: maps) w

end Reading

/-! ## `get_dmr` -/

section Dmr

variable (lib : Ncdas.DasLibrary) (cfg : Config)

/-- What `nc_read_dataset_variables` does with the open file. -/
def variablesOf (path : String) (ncid : Nat) : Acc (List BaseType) :=
  inquiring (NewNcdds.datasetVariables cfg path ncid)

/-- The runs of `get_dmr` after which the handles are those of before: the variables leave none, and
when they have been read, the attributes leave none either. -/
def DmrBalanced (path : String) (w : NcWorld) : Prop :=
  w.OpenRefused ∨
    (w.CloseAccepted (variablesOf cfg path) ∧
      ∀ dds, (w.use (variablesOf cfg path)).1 = .ok dds →
        ((w.use (variablesOf cfg path)).2.closed w.fresh).Balanced
          (Ncdas.datasetAttributes lib cfg path lib.empty))

/-- The attributes are read with one dataset open at most. -/
theorem handles_readDatasetAttributes (path : String) (w : NcWorld) :
    w.AddsAtMostFresh (NcWorld.exec (Ncdas.readDatasetAttributes lib cfg path lib.empty) w).2 ∧
      ((NcWorld.exec (Ncdas.readDatasetAttributes lib cfg path lib.empty) w).2.handles =
          w.handles ↔ w.Balanced (Ncdas.datasetAttributes lib cfg path lib.empty)) :=
  NcWorld.handles_usingFile path _ _ _ w

/-- After the variables, `get_dmr` changes the handles as the attributes do. -/
theorem exec_getDmr_rest {Dmr : Type}
    (finish : String → List BaseType → lib.Das → Except NcError Dmr) (path : String)
    {w w' : NcWorld} {dds : List BaseType}
    (h : NcWorld.exec (NewNcdds.readDatasetVariables cfg path) w = (.ok dds, w')) :
    (NcWorld.exec (getDmr lib cfg finish path) w).2 =
      (NcWorld.exec (Ncdas.readDatasetAttributes lib cfg path lib.empty) w').2 := by
  rw [getDmr, NcWorld.exec_bind_ok h]
  rcases hdas : NcWorld.exec (Ncdas.readDatasetAttributes lib cfg path lib.empty) w' with
    ⟨e | das, w''⟩
  · rw [NcWorld.exec_bind_error hdas]
  · rw [NcWorld.exec_bind_ok hdas]
    rfl

/-- The variables are read with the dataset open, and it is closed whatever they come to. -/
theorem exec_readDatasetVariables (path : String) (w : NcWorld) :
    NcWorld.exec (NewNcdds.readDatasetVariables cfg path) w =
      if w.OpenRefused then (.error (.error none ("Could not open " ++ path ++ ".")), w.tick)
      else ((w.use (variablesOf cfg path)).1,
        if w.CloseAccepted (variablesOf cfg path)
        then (w.use (variablesOf cfg path)).2.closed w.fresh
        else (w.use (variablesOf cfg path)).2.tick) :=
  NcWorld.exec_ensuring path _ (variablesOf cfg path) w

/-- Nothing stays open exactly if both parts close what they open. -/
theorem handles_getDmr {Dmr : Type}
    (finish : String → List BaseType → lib.Das → Except NcError Dmr) (path : String)
    (w : NcWorld) :
    (NcWorld.exec (getDmr lib cfg finish path) w).2.handles = w.handles ↔
      DmrBalanced lib cfg path w := by
  have hvars := exec_readDatasetVariables cfg path w
  by_cases hopen : w.OpenRefused
  · rw [if_pos hopen] at hvars
    have hrun : (NcWorld.exec (getDmr lib cfg finish path) w).2 = w.tick := by
      rw [getDmr, NcWorld.exec_bind_error hvars]
    rw [hrun]
    exact iff_of_true rfl (Or.inl hopen)
  rw [if_neg hopen] at hvars
  by_cases hclose : w.CloseAccepted (variablesOf cfg path)
  · rw [if_pos hclose] at hvars
    have hsame := NcWorld.handles_closed_use (variablesOf cfg path) w
    rcases huse : (w.use (variablesOf cfg path)).1 with e | dds
    · rw [huse] at hvars
      have hrun : (NcWorld.exec (getDmr lib cfg finish path) w).2 =
          (w.use (variablesOf cfg path)).2.closed w.fresh := by
        rw [getDmr, NcWorld.exec_bind_error hvars]
      rw [hrun]
      -- the variables could not be read, but the file was closed
      exact iff_of_true hsame (Or.inr ⟨hclose, by simp [huse]⟩)
    · rw [huse] at hvars
      have hattrs := (handles_readDatasetAttributes lib cfg path
        ((w.use (variablesOf cfg path)).2.closed w.fresh)).2
      rw [exec_getDmr_rest lib cfg finish path hvars, ← hsame, hattrs]
      simp [DmrBalanced, hopen, hclose, huse]
  · rw [if_neg hclose] at hvars
    -- the first handle is still open, whatever comes next
    have hleft : w.fresh ∈ (NcWorld.exec (getDmr lib cfg finish path) w).2.handles := by
      have hmem : w.fresh ∈ (w.use (variablesOf cfg path)).2.tick.handles :=
        NcWorld.fresh_mem_use _ w
      rcases huse : (w.use (variablesOf cfg path)).1 with e | dds
      · rw [huse] at hvars
        rw [getDmr, NcWorld.exec_bind_error hvars]
        exact hmem
      · rw [huse] at hvars
        rw [exec_getDmr_rest lib cfg finish path hvars]
        exact (handles_readDatasetAttributes lib cfg path _).1.subset hmem
    refine iff_of_false (fun h => w.fresh_notMem (h ▸ hleft)) ?_
    simp [DmrBalanced, hopen, hclose]

end Dmr

/-- Exactly these runs of `read()` and of `get_dmr` leave the set of open handles as it was. -/
theorem handles_unchanged_iff (cfg : Config) (lookup : BaseType → String → Option BaseType)
    (lib : Ncdas.DasLibrary) {Dmr : Type}
    (finish : String → List BaseType → lib.Das → Except NcError Dmr) (w : NcWorld) :
    (∀ v readP, (NcWorld.exec (readPlain cfg lookup v readP) w).2.handles = w.handles ↔
      ReadBalanced cfg lookup v readP w) ∧
    (∀ readP arrayVar maps,
      (NcWorld.exec (NCGrid.read cfg lookup readP arrayVar maps) w).2.handles = w.handles ↔
        GridBalanced cfg lookup readP arrayVar maps w) ∧
    (∀ path, (NcWorld.exec (getDmr lib cfg finish path) w).2.handles = w.handles ↔
      DmrBalanced lib cfg path w) := by
  refine ⟨fun v readP => (handles_readPlain cfg lookup v readP w).2, ?_,
    fun path => handles_getDmr lib cfg finish path w⟩
  intro readP arrayVar maps
  cases readP with
  | true => exact iff_of_true rfl (Or.inl rfl)
  | false =>
      simpa [NCGrid.read, GridBalanced] using
        (handles_readComponents cfg lookup (arrayVar :: maps) w).2

/-- A library that reports `f` faithfully, reads nothing but zeros and never fails. -/
def quietWorld (f : NcFile) : NcWorld where
  answers := fun _ c =>
    match c with
    | .inquire q => f.answer q
    | .ncGetVar .. => .ok NcData.empty
    | .ncGetVar1 .. => .ok NcData.empty
    | .ncGetVara .. => .ok NcData.empty
    | .ncGetVars .. => .ok NcData.empty
    | .ncGetAtt .. => .ok NcData.empty
    | .ncFreeString _ => .ok ()
  status := fun _ => ncNoErr
  calls := 0
  handles := ∅

/-- `NCStr::read` returns its value, nothing having failed, and a handle is left open. -/
theorem ncStr_read_leaks :
    (NcWorld.exec (readPlain {} (fun _ _ => none) (.scalar .ncStr "x" "f.nc") false)
        (quietWorld (NcFile.ofScalar (.atomic .char)))).1 =
      .ok (some NcData.empty, [⟨[], .rows 0 1 1⟩]) ∧
    ¬ (NcWorld.exec (readPlain {} (fun _ _ => none) (.scalar .ncStr "x" "f.nc") false)
        (quietWorld (NcFile.ofScalar (.atomic .char)))).2.handles =
      (quietWorld (NcFile.ofScalar (.atomic .char))).handles := by
  refine ⟨rfl, ?_⟩
  show ¬ insert 1 ∅ = (∅ : Finset Nat)
  decide

end Skunk.NetCDF
