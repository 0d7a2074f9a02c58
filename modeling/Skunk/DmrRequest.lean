import Skunk.HttpDate
import Skunk.NetCDF.DatasetAttributes
import Skunk.NetCDF.GridMaps

/-!
# A request for a dataset that is there

What `handleDmrRequest` answers, from the file to the response. The two halves of `getDmr` read the file on
their own; the DMR is right only if they agree on what it holds. They go over the variables in one order, and
a variable has the name of its attribute table.
-/

namespace Skunk

open Skunk.Effect Skunk.Posix Skunk.NetCDF Skunk.BesUtils

/-! ## The variables -/

namespace NetCDF

section Variables

variable {f : NcFile} {cfg : Config} {filename : String} {varid : Nat} {v : Var} {c : ScalarClass}

/-- The DAP variable that stands for a variable of the file: a Grid if each of its dimensions has a coordinate
variable, else a scalar or an Array. -/
def StandsFor (f : NcFile) (cfg : Config) (filename : String) (varid : Nat) (v : Var) (b : BaseType) : Prop :=
  ∃ c, typeClass cfg v.type = some c ∧
    ((∀ d ∈ v.dimIds, HasCoordinateVariable f varid d) →
      ∃ maps, b = .ncGrid v.name filename (arrayOf f filename v c) maps ∧
        List.Forall₂ (MapFor f cfg filename) (arrayDims v) maps) ∧
    ((∃ d ∈ v.dimIds, ¬ HasCoordinateVariable f varid d) →
      b = if IsScalar v then scalarOf filename v c else arrayOf f filename v c)

theorem StandsFor.name {b : BaseType} (h : StandsFor f cfg filename varid v b) : b.name = v.name := by
  obtain ⟨c, -, hgrid, hother⟩ := h
  by_cases hall : ∀ d ∈ v.dimIds, HasCoordinateVariable f varid d
  · obtain ⟨maps, rfl, -⟩ := hgrid hall
    rfl
  · obtain rfl := hother (by simpa using hall)
    split <;> rfl

/-- The dimensions that the Maps have are those of the Array. -/
theorem wholes_eq {ds : List Nat} {ms : List Ncdds.Map} (hds : ∀ d ∈ ds, d < f.dims.length)
    (hms : List.Forall₂ (fun d m => coordMap f varid d = some m) ds ms) :
    (ms.map fun m => ArrayDim.whole m.size m.name) = ds.map (dapDim f) := by
  induction hms with
  | nil => rfl
  | cons hm _ ih =>
      obtain ⟨hd, hds⟩ := List.forall_mem_cons.mp hds
      obtain ⟨w, -, -, -, -, hwhole⟩ := coordMap_var hd hm
      rw [List.map_cons, List.map_cons, hwhole, ih hds]

/-- `build_grid`, for Maps of types that are accepted. -/
theorem gridOf_whole {ms : List Ncdds.Map} (horder : cfg.releaseFirst = false)
    (hdims : ∀ d ∈ v.dimIds, d < f.dims.length) (hgrid : gridMaps f varid v.dimIds = some ms)
    (hacc : ∀ m ∈ ms, (typeClass cfg m.type).isSome) :
    ∃ maps, gridOf cfg filename v c ms = .ok (.ncGrid v.name filename (arrayOf f filename v c) maps) ∧
      List.Forall₂ (MapFor f cfg filename) (arrayDims v) maps := by
  have hms := gridMaps_forall₂ hgrid
  have hlength := gridMaps_length hgrid
  have hused : List.Forall₂ (fun d m => coordMap f varid d = some m) (arrayDims v)
      (ms.take (if v.type.isChar then ms.length - 1 else ms.length)) := by
    rw [hlength]
    exact List.forall₂_take _ hms
  obtain ⟨maps, hold, hnew⟩ := mapM_buildMap filename
    fun m (hm : m ∈ ms.take (if v.type.isChar then ms.length - 1 else ms.length)) =>
      hacc m (List.mem_of_mem_take hm)
  refine ⟨maps, ?_, ?_⟩
  · rw [gridOf, Ncdds.buildGrid, hold, wholes_eq (fun d hd => hdims d (mem_arrayDims hd)) hused,
      BaseType.newNCArray_scalar, BaseType.appendDims_ncArray, List.nil_append]
    rfl
  · apply mapFor_of_gridMaps (fun d hd => hdims d (mem_arrayDims hd)) hused
    rw [mapM_eq_ok_iff, List.forall₂_map_left_iff] at hnew
    exact (hnew horder).imp fun m a ha => of_buildMap ha

/-- `read_all_variables` makes of each variable what stands for it. -/
theorem newOutcome_ok (hacc : Accepted cfg f) (filename : String) (hv : f.vars[varid]? = some v)
    (hbuild : Buildable f cfg varid v) (hc : typeClass cfg v.type = some c) :
    ∃ b, newOutcome f cfg filename varid v c = .ok b ∧ StandsFor f cfg filename varid v b := by
  have hdims := f.dimIds_lt v (List.mem_of_getElem? hv)
  have hall : (gridMaps f varid v.dimIds).isSome ↔ ∀ d ∈ v.dimIds, HasCoordinateVariable f varid d :=
    gridMaps_isSome_iff hdims
  rw [newOutcome]
  cases hgrid : gridMaps f varid v.dimIds with
  | some ms =>
      rw [hgrid] at hall
      have hevery := hall.mp rfl
      have horder : cfg.releaseFirst = false := by
        by_contra hfirst
        rw [Bool.not_eq_false] at hfirst
        obtain ⟨d, hd, hnone⟩ := hbuild hfirst
        exact hnone (hevery d hd)
      obtain ⟨maps, hok, hmaps⟩ := gridOf_whole horder hdims hgrid (gridMaps_accepted hacc hdims hgrid)
      dsimp only
      rw [if_neg (by rw [horder]; exact Bool.false_ne_true)]
      refine ⟨_, hok, c, hc, fun _ => ⟨maps, rfl, hmaps⟩, ?_⟩
      rintro ⟨d, hd, hnone⟩
      exact absurd (hevery d hd) hnone
  | none =>
      rw [hgrid] at hall
      have hnot : ¬ ∀ d ∈ v.dimIds, HasCoordinateVariable f varid d := fun h => Bool.noConfusion (hall.mpr h)
      refine ⟨if IsScalar v then scalarOf filename v c else arrayOf f filename v c, ?_, c, hc,
        fun h => absurd h hnot, fun _ => rfl⟩
      dsimp only
      split <;> rfl

/-- Each of these variables stands for the variable of the file at its position. -/
def StandForAll (f : NcFile) (cfg : Config) (filename : String) (varids : List Nat) (bs : List BaseType) :
    Prop :=
  List.Forall₂ (fun varid b => ∃ v, f.vars[varid]? = some v ∧ StandsFor f cfg filename varid v b) varids bs

/-- Where every variable can be built, the DDS has one for each. -/
theorem mapM_newOutcome (hacc : Accepted cfg f)
    (hbuild : ∀ varid v, f.vars[varid]? = some v → Buildable f cfg varid v) (filename : String)
    {varids : List Nat}
    (hvarids : ∀ i ∈ varids, i < f.vars.length) :
    ∃ bs, varids.mapM (outcomeAt f cfg (newOutcome f cfg filename)) = .ok bs ∧
      StandForAll f cfg filename varids bs := by
  induction varids with
  | nil => exact ⟨[], rfl, .nil⟩
  | cons varid varids ih =>
      obtain ⟨hvarid, hvarids⟩ := List.forall_mem_cons.mp hvarids
      obtain ⟨v, c, hv, hc⟩ := hacc.get hvarid
      obtain ⟨b, hb, hstands⟩ := newOutcome_ok hacc filename hv (hbuild _ _ hv) hc
      obtain ⟨bs, hbs, hrest⟩ := ih hvarids
      refine ⟨b :: bs, ?_, .cons ⟨v, hv, hstands⟩ hrest⟩
      rw [List.mapM_cons, outcomeAt_eq hv hc, hb, ok_bind, hbs]
      rfl

/-- The names of the variables, in the order of the file. -/
theorem names_of_standForAll {bs : List BaseType}
    (h : StandForAll f cfg filename (List.range f.vars.length) bs) :
    bs.map BaseType.name = f.vars.map Var.name := by
  have hvars : (List.range f.vars.length).map (fun varid => (f.vars[varid]?.map Var.name).getD "") =
      f.vars.map Var.name := by
    apply List.ext_getElem
    · simp
    · intro i _ hi
      rw [List.length_map] at hi
      simp [List.getElem?_eq_getElem hi]
  have hnames : ∀ {varids : List Nat} {bs : List BaseType}, StandForAll f cfg filename varids bs →
      bs.map BaseType.name = varids.map fun varid => (f.vars[varid]?.map Var.name).getD "" := by
    intro varids bs h
    induction h with
    | nil => rfl
    | cons hb _ ih =>
        obtain ⟨v, hv, hstands⟩ := hb
        rw [List.map_cons, List.map_cons, hv, ih, hstands.name]
        rfl
  rw [hnames h, hvars]

/-- `nc_read_dataset_variables`. -/
theorem eval_readDatasetVariables {lib : (c : NcAccess) → NcReply c.Out} (hreports : Reports f lib)
    (hacc : Accepted cfg f) (hbuild : ∀ varid v, f.vars[varid]? = some v → Buildable f cfg varid v)
    (filename : String) :
    ∃ bs, Throwing.eval (opening lib) (NewNcdds.readDatasetVariables cfg filename) = .ok bs ∧
      StandForAll f cfg filename (List.range f.vars.length) bs := by
  obtain ⟨bs, hbs, hstand⟩ := mapM_newOutcome hacc hbuild filename fun i hi => List.mem_range.mp hi
  refine ⟨bs, ?_, hstand⟩
  have hanswers : (fun c => inquiries.reply c (lib (inquiries.call c))) = f.answer := funext hreports
  have hnvars : f.answer (.ncInqNvars 1) = .ok f.vars.length := rfl
  have hopen : ∀ e, Throwing.eval (opening lib) (openOrThrow filename e) = .ok 1 := fun _ => rfl
  have hclose : Throwing.eval (opening lib) (do let _ ← closeFile 1) = .ok () := rfl
  have hread : Throwing.eval (opening lib)
      (accessing (inquiring (NewNcdds.datasetVariables cfg filename 1))) = .ok bs := by
    rw [accessing, Throwing.eval_lift, inquiring, Throwing.eval_lift]
    show Throwing.eval (fun c => inquiries.reply c (lib (inquiries.call c))) _ = _
    rw [hanswers, NewNcdds.datasetVariables, Throwing.eval_bind, eval_inqOrThrow_ok _ hnvars, ok_bind,
      eval_readAllVariables filename 1 hacc, hbs]
  rw [NewNcdds.readDatasetVariables, Throwing.eval_bind, hopen, ok_bind, Throwing.eval_ensuring _ hclose,
    hread]

end Variables

end NetCDF

/-! ## The response -/

/-- A machine on which the file is there, was changed at this time, and is the dataset. -/
def servingDataset {f : NcFile} (values : Ncdas.AttValues f) (mtime : Int) : (c : HandlerCall) → c.Out
  | .access _ => (0 : Int)
  | .stat _ => some mtime
  | .netcdf c => opening values.serveAtt c

/-- The answer for the XML of a DMR, or for the exception that came instead. -/
def dmrAnswer : Except NcError String → Except HandlerError Response
  | .ok response => .ok ⟨200, response, "application/vnd.opendap.dap4.dataset-metadata+xml"⟩
  | .error (.error _ msg) => .ok ⟨500, "Moof! Server error: " ++ msg, "text/plain"⟩
  | .error (.internalErr msg) => .ok ⟨500, "Moof! Server error: " ++ msg, "text/plain"⟩
  | .error e => .error (.uncaught e)

section Response

variable {env : HandlerEnv} {f : NcFile} {values : Ncdas.AttValues f}

/-- The request is answered with what comes of the dataset at the end of the path. -/
theorem eval_handleDmrRequest {dataPath : Text} (hformat : findFormat dataPath = .nc) {mtime : Int}
    (hyear : PlainYear mtime) :
    Throwing.eval (servingDataset values mtime) (handleDmrRequest env.withDates dataPath) =
      dmrAnswer (Throwing.eval (opening values.serveAtt)
        (dmrResponse env (dataRoot ++ '/' :: dataPath))) := by
  have hlmt : Throwing.eval (servingDataset values mtime)
      (getLastModificationTime (dataRoot ++ '/' :: dataPath)) = .ok mtime := rfl
  have haccess : Throwing.eval (servingDataset values mtime)
      (ask (.access (dataRoot ++ '/' :: dataPath))) = .ok (0 : Int) := rfl
  have hdmr : Throwing.eval (servingDataset values mtime)
      (Throwing.lift netcdfCalls (dmrResponse env.withDates (dataRoot ++ '/' :: dataPath))) =
        Throwing.eval (opening values.serveAtt) (dmrResponse env (dataRoot ++ '/' :: dataPath)) :=
    Throwing.eval_lift netcdfCalls _ _
  rw [handleDmrRequest, if_pos hformat]
  dsimp only
  rw [Throwing.eval_bind, haccess, ok_bind, if_neg (not_not.mpr rfl), Throwing.eval_bind, hlmt, ok_bind,
    Throwing.eval_bind, Throwing.eval_ofExcept, formatHttpDate_eq env hyear, ok_bind, Throwing.eval_bind,
    Throwing.eval_attempt, hdmr, ok_bind]
  cases Throwing.eval (opening values.serveAtt) (dmrResponse env (dataRoot ++ '/' :: dataPath)) with
  | ok response => rfl
  | error e => cases e <;> rfl

/-- A request for a netCDF file that is there: the DMR is made of one variable for each of the file, and of
its whole DAS; a variable's attributes are in the table of its name. Where the compiler releases first, this is so
for a file without Grids. -/
theorem handleDmrRequest_dataset {entries : env.das.Das → String → List Ncdas.Entry}
    (h : Ncdas.KeepsTables entries) (hdescribes : Ncdas.Describes env.das env.cfg values)
    (hacc : Accepted env.cfg f)
    (hbuild : ∀ varid v, f.vars[varid]? = some v → Buildable f env.cfg varid v)
    {dataPath : Text} (hformat : findFormat dataPath = .nc) {mtime : Int} (hyear : PlainYear mtime) :
    ∃ vars das,
      Throwing.eval (servingDataset values mtime) (handleDmrRequest env.withDates dataPath) =
        dmrAnswer (env.finish (String.ofList (dataRoot ++ '/' :: dataPath)) vars das >>= env.printDap4) ∧
      StandForAll f env.cfg (String.ofList (dataRoot ++ '/' :: dataPath)) (List.range f.vars.length) vars ∧
      (∀ t, env.das.hasTable t das = true ↔
        t ∈ vars.map BaseType.name ++
          (Ncdas.globalTables env.das env.cfg values ++ Ncdas.extraTables f).map Prod.fst) ∧
      ∀ p ∈ Ncdas.wholeTables env.das env.cfg values, entries das p.1 = p.2 := by
  obtain ⟨vars, hvars, hstand⟩ := eval_readDatasetVariables values.reports_serveAtt hacc hbuild
    (String.ofList (dataRoot ++ '/' :: dataPath))
  obtain ⟨das, hdas, htables, hhere⟩ := Ncdas.readDatasetAttributes_whole h hdescribes
    (String.ofList (dataRoot ++ '/' :: dataPath))
  refine ⟨vars, das, ?_, hstand, ?_, hhere⟩
  · rw [eval_handleDmrRequest hformat hyear, dmrResponse, Throwing.eval_bind, getDmr, Throwing.eval_bind,
      hvars, ok_bind, Throwing.eval_bind, hdas, ok_bind, Throwing.eval_ofExcept]
    rfl
  · intro t
    have hnames := Ncdas.names_variableTables env.das env.cfg values f.vars 0
    rw [htables, names_of_standForAll hstand, ← hnames, Ncdas.wholeTables, Ncdas.variableTables,
      List.append_assoc, List.map_append]
    rfl

end Response

/-! ### A small dataset -/

namespace NetCDF

/-- A coordinate variable, a Grid over it, and texts. -/
def buoyFile : NcFile where
  dims := [⟨"time", 3⟩, ⟨"letters", 5⟩]
  vars := [⟨"time", .atomic .int, [0], []⟩, ⟨"temp", .atomic .float, [0], []⟩,
    ⟨"station", .atomic .char, [0, 1], [⟨"units", .atomic .char, 1⟩]⟩]
  globalAtts := [⟨"version", .atomic .short, 1⟩]
  unlimdim := some 0
  dimIds_lt := by decide
  dimNames_nodup := by decide
  varNames_nodup := by decide
  dimNames_le := by decide
  varNames_le := by decide

def buoyValues : Ncdas.AttValues buoyFile where
  value := fun _ name => if name = "units" then ⟨[109], []⟩ else ⟨[7, 0], []⟩
  holds := by
    intro varid att hatt
    match varid with
    | some 2 | none =>
        obtain rfl := List.mem_singleton.mp hatt
        rfl
    | some 0 | some 1 | some (n + 3) => cases hatt

theorem accepted_buoy : Accepted {} buoyFile := by
  show ∀ v ∈ buoyFile.vars, (typeClass {} v.type).isSome
  decide

theorem describes_buoy : Ncdas.Describes Ncdas.tableLibrary {} buoyValues where
  tables := by decide +kernel
  entries := by decide +kernel
  fits := by decide
  types := by
    intro v hv
    simp only [buoyFile, List.mem_cons, List.not_mem_nil, or_false] at hv
    rcases hv with rfl | rfl | rfl
    · trivial
    · trivial
    · show Ncdas.stringLengthOf buoyFile _ < 2 ^ 31
      decide
  atts := by
    intro varid att hatt
    match varid with
    | some 2 | none =>
        obtain rfl := List.mem_singleton.mp hatt
        refine ⟨by simp [Ncdas.Supported, Ncdas.IsSupported], Nat.le_refl 1, ?_⟩
        simp only [Ncdas.Kept]
        decide
    | some 0 | some 1 | some (n + 3) => cases hatt
  unlimdim := by decide

end NetCDF

/-- Surroundings in which a DMR is the variables, and its XML their names. -/
def namesEnv : HandlerEnv where
  das := Ncdas.tableLibrary
  cfg := {}
  Dmr := List BaseType
  finish := fun _ vars _ => .ok vars
  printDap4 := fun vars => .ok (" ".intercalate (vars.map BaseType.name))
  strftime := fun _ => none

theorem handleDmrRequest_buoy :
    ∃ vars, Throwing.eval (servingDataset buoyValues 0)
        (handleDmrRequest namesEnv.withDates "buoy.nc".toList) =
          .ok ⟨200, "time temp station", "application/vnd.opendap.dap4.dataset-metadata+xml"⟩ ∧
      StandForAll buoyFile {} (String.ofList (dataRoot ++ "/buoy.nc".toList)) [0, 1, 2] vars := by
  obtain ⟨vars, das, hanswer, hstand, -⟩ := @handleDmrRequest_dataset namesEnv _ buoyValues _
    Ncdas.keepsTables_tableLibrary describes_buoy accepted_buoy
    (fun _ _ _ horder => absurd horder (by decide)) "buoy.nc".toList (by decide) 0 (by decide)
  have hnames := names_of_standForAll hstand
  refine ⟨vars, ?_, hstand⟩
  rw [hanswer]
  show Except.ok (Response.mk 200 (" ".intercalate (vars.map BaseType.name)) _) = _
  rw [hnames]
  rfl

end Skunk
