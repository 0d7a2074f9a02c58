import Skunk.NetCDF.NewNcdds
import Skunk.NetCDF.Ncdas

/-!
# `DataAccessNetCDF`

`getDmr` builds the DMR of a dataset: the variables from `new_ncdds.cc`, the attributes from `ncdas.cc`,
and then libdap turns both into a DMR. Each of the first two opens the dataset for itself.
-/

namespace Skunk.NetCDF

open Skunk.Effect

namespace NewNcdds

/-- What `nc_read_dataset_variables` does with the open file. -/
def datasetVariables (cfg : Config) (filename : String) (ncid : Nat) : Inq (List BaseType) := do
  let nvars ← inqOrThrow (.ncInqNvars ncid) fun status =>
    .error (some status) ("Could not inquire about netcdf file: " ++ Ncdas.pathToFilename filename
      ++ ".")
  readAllVariables cfg filename ncid nvars

/-- `nc_read_dataset_variables`. The destructor of `NetCDFFile` closes the file whether or not an
exception is on its way, and does not look at the status. -/
def readDatasetVariables (cfg : Config) (filename : String) : Session (List BaseType) := do
  let ncid ← openOrThrow filename fun _ => .error none ("Could not open " ++ filename ++ ".")
  Throwing.ensuring (accessing (inquiring (datasetVariables cfg filename ncid))) do
    let _ ← closeFile ncid

end NewNcdds

/-- `DataAccessNetCDF::get_dmr`. `finish` is what libdap does at the end: it adds the ancillary DAS of
the path, transfers the attributes to the variables and builds the DMR. -/
def getDmr {Dmr : Type} (lib : Ncdas.DasLibrary) (cfg : Config)
    (finish : String → List BaseType → lib.Das → Except NcError Dmr) (path : String) :
    Session Dmr := do
  let dds ← NewNcdds.readDatasetVariables cfg path
  let das ← Ncdas.readDatasetAttributes lib cfg path lib.empty
  Throwing.ofExcept (finish path dds das)

end Skunk.NetCDF
