import Mcachefs.Transfer.Queue

namespace Mcachefs

/-!
# Open files

The fields of `struct mcachefs_file_t` that the modelled functions read and
write, and the calls that only concern one such structure.
-/

/-- `mcachefs_file_type_t`. -/
inductive FileType
  | file | dir | vops
  deriving DecidableEq, Repr

/-- `MCACHEFS_FILE_BACKING_*`. -/
inductive CacheStatus
  | none | asked | inProgress | done | error
  deriving DecidableEq, Repr

/-- `struct mcachefs_file_t`. -/
structure Mfile where
  metadata_id : Nat
  path : Path
  type : FileType
  use : Nat
  cache_status : CacheStatus
  dirty : Bool
  deriving DecidableEq, Repr

/-- `mcachefs_file_init`: everything is zero except what is set here. -/
def Mfile.init (path : Path) (type : FileType) : Mfile where
  metadata_id := 0
  path := path
  type := type
  use := 1
  cache_status := .none
  dirty := false

end Mcachefs
