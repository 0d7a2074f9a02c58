import Skunk.NetCDF.DataAccess
import Skunk.Posix.Path

/-!
# `handler.cpp`: the DMR route

`handleDmrRequest` answers `/opendap/(.+)\.dmr`. The captured text decides by its extension whether a
file is looked for at all; if so, the data root in front of it is the pathname of the file that is
checked, asked for its time, and opened.

The extension is looked up in the whole text, while the system calls see it up to the first NUL and walk
it with its `..`. So a text can pass for a netCDF file of the data root and denote another file.
`handleDmrRequest_served_iff` says which ones do not.
-/

namespace Skunk

open Skunk.Effect Skunk.Posix Skunk.NetCDF

/-! ## Formats -/

def getExtension (filename : Text) : Text :=
  let basename := match rfind '/' filename with
    | some lastSlashPos => filename.drop (lastSlashPos + 1)
    | none => filename
  match rfind '.' basename with
  | none => filename
  | some lastDotPos => basename.drop lastDotPos

inductive DataFormat
  | nc | unknownFormat
  deriving DecidableEq, Repr

def findFormat (dataPath : Text) : DataFormat :=
  if getExtension dataPath = ".nc".toList then .nc else .unknownFormat

/-! ## The handler -/

/-- The calls of the handler: `access(path, F_OK | R_OK)`, `stat(path)`, and those of the netCDF
library. -/
inductive HandlerCall
  | access (path : Text)
  | stat (path : Text)
  | netcdf (c : NcCall)

/-- A status, the time of the last modification, or the reply of the library. -/
@[reducible] def HandlerCall.Out : HandlerCall → Type
  | .access _ => Int
  | .stat _ => Option Int
  | .netcdf c => NcReply c.Out

abbrev handlerCalls : Interface := ⟨HandlerCall, HandlerCall.Out⟩

/-- The netCDF library is one of its callees. -/
def netcdfCalls : Embedding ncCalls handlerCalls := ⟨.netcdf, fun _ r => r⟩

/-- What leaves the handler as an exception. -/
inductive HandlerError
  | runtimeError (what : String)
  | uncaught (e : NcError)

/-- The parts of a response that the handler sets. -/
structure Response where
  status : Int
  content : String
  contentType : String

/-- What the handler uses from outside: libdap's attribute tables, its DMRs and their XML, and the date
that `strftime` writes. -/
structure HandlerEnv where
  das : Ncdas.DasLibrary
  cfg : Config
  Dmr : Type
  finish : String → List BaseType → das.Das → Except NcError Dmr
  printDap4 : Dmr → Except NcError String
  strftime : Int → Option String

/-- `data_root`, up to its final slash. -/
def dataRoot : Text := "/Users/jimg/src/opendap/skunk/services/opendap/src/netcdf/data".toList

/-- A call of the handler. -/
def ask (c : HandlerCall) : Throwing handlerCalls HandlerError c.Out :=
  @Throwing.request handlerCalls HandlerError c

def getLastModificationTime (filepath : Text) : Throwing handlerCalls HandlerError Int := do
  match ← ask (.stat filepath) with
  | some mtime => return mtime
  | none => throw (.runtimeError ("Unable to retrieve file info: " ++ String.ofList filepath))

variable (env : HandlerEnv)

def formatHttpDate (t : Int) : Except HandlerError String :=
  match env.strftime t with
  | some date => .ok date
  | none => .error (.runtimeError "strftime failed")

/-- The `try` block of `handle_dmr_request`: the XML of the DMR. -/
def dmrResponse (fullDataPath : Text) : Session String := do
  let dmr ← getDmr env.das env.cfg env.finish (String.ofList fullDataPath)
  Throwing.ofExcept (env.printDap4 dmr)

def handleDmrRequest (dataPath : Text) : Throwing handlerCalls HandlerError Response := do
  if findFormat dataPath = .nc then
    let fullDataPath := dataRoot ++ '/' :: dataPath
    let status ← ask (.access fullDataPath)
    if status ≠ 0 then return ⟨404, "File not found. Moof!", "text/plain"⟩
    else
      let lmt ← getLastModificationTime fullDataPath
      let _ ← Throwing.ofExcept (formatHttpDate env lmt)
      match ← Throwing.attempt (Throwing.lift netcdfCalls (dmrResponse env fullDataPath)) with
      | .ok response =>
        return ⟨200, response, "application/vnd.opendap.dap4.dataset-metadata+xml"⟩
      | .error (.error _ msg) => return ⟨500, "Moof! Server error: " ++ msg, "text/plain"⟩
      | .error (.internalErr msg) => return ⟨500, "Moof! Server error: " ++ msg, "text/plain"⟩
      | .error e => throw (.uncaught e)
  else return ⟨200, "Error: only netCDF files can be served.", "text/plain"⟩

/-- The route `/opendap/(.+)\.dmr` of `main`: what it captures. `.` matches all but line ends. -/
def route (path : Text) : Option Text :=
  let rest := path.drop "/opendap/".length
  let captured := rest.take (rest.length - ".dmr".length)
  if "/opendap/".toList <+: path ∧ ".dmr".toList <:+ rest ∧ captured ≠ [] ∧
      '\n' ∉ captured ∧ '\r' ∉ captured
  then some captured else none

/-! ## Files that are touched -/

/-- The pathname that a call hands to the operating system. -/
def touched : HandlerCall → Option Text
  | .access path => some (cStr path)
  | .stat path => some (cStr path)
  | .netcdf (.ncOpen path) => some (cStr path.toList)
  | .netcdf _ => none

/-- A file of the data root with a name that ends in `.nc`. -/
def InDataRoot (file : List Text) : Prop :=
  resolve dataRoot <+: file ∧ ∃ name, file.getLast? = some name ∧ ".nc".toList <:+ name

/-- The captured text, up to its first NUL and without detours, goes up from the data root only to come
down to it again, and ends in a name that ends in `.nc`. -/
def StaysInside (dataPath : Text) : Prop :=
  (resolve dataRoot).drop ((resolve dataRoot).length - (normalize (cStr dataPath)).1) <+:
      (normalize (cStr dataPath)).2 ∧
    ∃ name, (normalize (cStr dataPath)).2.getLast? = some name ∧ ".nc".toList <:+ name

/-- Every file that the request touches is one of the data root; and if the captured text denotes
another, the request touches none. -/
def Served (dataPath : Text) : Prop :=
  Throwing.Every (fun c => ∀ path, touched c = some path → InDataRoot (resolve path))
      (handleDmrRequest env dataPath) ∧
    (¬ InDataRoot (resolve (cStr (dataRoot ++ '/' :: dataPath))) →
      Throwing.Every (fun c => touched c = none) (handleDmrRequest env dataPath))

theorem cStr_fullDataPath (dataPath : Text) :
    cStr (dataRoot ++ '/' :: dataPath) = dataRoot ++ '/' :: cStr dataPath := by
  rw [cStr_append_of_notMem (by decide)]
  rfl

/-- No directory on the way to the data root has a name that ends in `.nc`. -/
theorem not_nc_of_mem_dataRoot :
    ∀ name ∈ resolve dataRoot, ¬ ".nc".toList <:+ name := by
  decide

/-- Where the text leads is a file of the data root exactly if the text stays inside. -/
theorem inDataRoot_iff (dataPath : Text) :
    InDataRoot (resolve (cStr (dataRoot ++ '/' :: dataPath))) ↔ StaysInside dataPath := by
  rw [cStr_fullDataPath, resolve_append, InDataRoot, StaysInside, prefix_place_iff]
  refine and_congr_right fun _ => ?_
  by_cases hnames : (normalize (cStr dataPath)).2 = []
  · simp only [place, hnames, List.append_nil, List.getLast?_nil]
    constructor
    · rintro ⟨name, hname, hnc⟩
      have hmem := List.mem_of_mem_take (List.mem_of_getLast? hname)
      exact absurd hnc (not_nc_of_mem_dataRoot name hmem)
    · rintro ⟨name, hname, -⟩
      cases hname
  · rw [place, List.getLast?_append_of_ne_nil _ hnames]

/-! ### What the handler calls -/

/-- The only file that `get_dmr` opens is the one it is given. -/
theorem every_getDmr {P : NcCall → Prop} (hacc : ∀ c, P (.access c)) (hclose : ∀ n, P (.ncClose n))
    {path : String} (hopen : P (.ncOpen path)) :
    Throwing.Every P (getDmr env.das env.cfg env.finish path) := by
  have hopenOrThrow : ∀ e, Throwing.Every P (openOrThrow path e) := by
    intro e
    refine Throwing.Every.bind ((Throwing.every_request _).mpr hopen) fun r => ?_
    dsimp only
    split
    · exact Throwing.Every.bind (Throwing.every_throw _) fun _ => Throwing.every_pure _
    · exact Throwing.every_pure _
  have haccessing : ∀ {α : Type} (x : Acc α), Throwing.Every P (accessing x) :=
    fun x => Throwing.Every.lift (Throwing.Every.of_forall hacc x)
  have hcloseFile : ∀ ncid, Throwing.Every P (closeFile ncid) := by
    intro ncid
    exact Throwing.Every.bind ((Throwing.every_request _).mpr (hclose ncid))
      fun _ => Throwing.every_pure _
  refine Throwing.Every.bind ?_ fun dds => Throwing.Every.bind ?_ fun das =>
    Throwing.every_ofExcept _
  · refine Throwing.Every.bind (hopenOrThrow _) fun ncid => ?_
    exact Throwing.Every.ensuring (haccessing _)
      (Throwing.Every.bind (hcloseFile ncid) fun _ => Throwing.every_pure _)
  · refine Throwing.Every.bind (hopenOrThrow _) fun ncid => ?_
    refine Throwing.Every.bind (haccessing _) fun das => ?_
    refine Throwing.Every.bind (hcloseFile ncid) fun status => ?_
    dsimp only
    split
    · exact Throwing.Every.bind (Throwing.every_throw _) fun _ => Throwing.every_pure _
    · exact Throwing.every_pure _

/-- What holds of the calls with the full pathname, and of those without one, holds of every call. -/
theorem every_handleDmrRequest {P : HandlerCall → Prop} {dataPath : Text}
    (haccess : P (.access (dataRoot ++ '/' :: dataPath)))
    (hstat : P (.stat (dataRoot ++ '/' :: dataPath)))
    (hopen : P (.netcdf (.ncOpen (String.ofList (dataRoot ++ '/' :: dataPath)))))
    (hacc : ∀ c, P (.netcdf (.access c))) (hclose : ∀ n, P (.netcdf (.ncClose n))) :
    Throwing.Every P (handleDmrRequest env dataPath) := by
  rw [handleDmrRequest]
  split
  case isFalse => exact Throwing.every_pure _
  refine Throwing.Every.bind ((Throwing.every_request _).mpr haccess) fun status => ?_
  split
  case isTrue => exact Throwing.every_pure _
  have hlmt : Throwing.Every P (getLastModificationTime (dataRoot ++ '/' :: dataPath)) := by
    refine Throwing.Every.bind ((Throwing.every_request _).mpr hstat) fun mtime => ?_
    cases mtime with
    | none => exact Throwing.every_throw _
    | some t => exact Throwing.every_pure _
  have hdmr : Throwing.Every (fun c => P (netcdfCalls.call c))
      (dmrResponse env (dataRoot ++ '/' :: dataPath)) :=
    Throwing.Every.bind (every_getDmr env hacc hclose hopen) fun dmr => Throwing.every_ofExcept _
  refine Throwing.Every.bind hlmt fun lmt => Throwing.Every.bind (Throwing.every_ofExcept _)
    fun _ => Throwing.Every.bind (Throwing.Every.attempt (Throwing.Every.lift hdmr))
      fun outcome => ?_
  rcases outcome with (e | response)
  · cases e <;> trivial
  · trivial

/-- A request touches only netCDF files of the data root exactly if its text has another extension, or
stays inside and ends in `.nc` as the operating system reads it. -/
theorem handleDmrRequest_served_iff (env : HandlerEnv) (dataPath : Text) :
    Served env dataPath ↔ findFormat dataPath ≠ .nc ∨ StaysInside dataPath := by
  rw [← inDataRoot_iff]
  constructor
  · rintro ⟨htouched, -⟩
    by_cases hformat : findFormat dataPath = .nc
    · right
      rw [handleDmrRequest, if_pos hformat] at htouched
      exact Throwing.Every.of_request_bind htouched _ rfl
    · exact Or.inl hformat
  · rintro (hformat | hinside)
    · have hquiet : ∀ P, Throwing.Every P (handleDmrRequest env dataPath) := by
        intro P
        rw [handleDmrRequest, if_neg hformat]
        exact Throwing.every_pure _
      exact ⟨hquiet _, fun _ => hquiet _⟩
    · refine ⟨every_handleDmrRequest env ?_ ?_ ?_ ?_ ?_, fun h => absurd hinside h⟩
      · rintro path ⟨rfl⟩
        exact hinside
      · rintro path ⟨rfl⟩
        exact hinside
      · intro path hpath
        have htext : cStr (dataRoot ++ '/' :: dataPath) = path := by
          simpa [touched] using hpath
        exact htext ▸ hinside
      · rintro c path ⟨⟩
      · rintro n path ⟨⟩

/-- Surroundings in which attribute tables and DMRs are empty. -/
def bareEnv : HandlerEnv where
  das :=
    { Das := Unit, empty := (), hasTable := fun _ _ => true, addTable := fun _ _ => .ok (),
      appendAttr := fun _ _ _ _ _ => .ok (), floatText := fun _ => "", doubleText := fun _ => "" }
  cfg := {}
  Dmr := Unit
  finish := fun _ _ _ => .ok ()
  printDap4 := fun _ => .ok ""
  strftime := fun _ => some ""

/-- `/opendap/../x.nc.dmr` makes the handler look at a file next to the data root, and a NUL in front
of the extension at a file that is not a netCDF file. -/
theorem dotdot_not_served :
    route "/opendap/../x.nc.dmr".toList = some "../x.nc".toList ∧
      ¬ Served bareEnv "../x.nc".toList ∧ ¬ Served bareEnv "secret\x00.nc".toList := by
  refine ⟨by decide, ?_, ?_⟩
  · rw [handleDmrRequest_served_iff]
    rintro (hformat | ⟨hsub, -⟩)
    · exact hformat (by decide)
    · exact absurd hsub (by decide)
  · rw [handleDmrRequest_served_iff]
    rintro (hformat | ⟨-, name, hname, hnc⟩)
    · exact hformat (by decide)
    · obtain rfl : "secret".toList = name := Option.some.inj hname
      exact absurd hnc (by decide)

end Skunk
