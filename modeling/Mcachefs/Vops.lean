import Mcachefs.CString

namespace Mcachefs

/-!
# Virtual files

The names that the program keeps for itself, and the two tests that
`mcachefs-lowlevel.c` has for them.
-/

/-- `MCACHEFS_VOPS_DIR`. -/
def VOPS_DIR : Path := ascii "/.mcachefs"

/-- `MCACHEFS_VOPS_FILE_PREFIX`. -/
def VOPS_FILE_PREFIX : Path := ascii "/.mcachefs/"

/-- `mcachefs_vops_get_vops_list`: the names in `vops_procs`. -/
def vopsNames : List Path :=
  ["read_state", "write_state", "file_thread_interval", "file_ttl", "metadata_map_ttl",
    "transfer_max_rate", "transfer", "journal", "metadata", "timeslices", "cache_prefix",
    "action"].map ascii

/-- `__MCACHEFS_IS_VOPS_FILE`. -/
def isVopsFile (path : Path) : Bool :=
  strncmpEqual path VOPS_FILE_PREFIX 11

theorem isVopsFile_iff (path : Path) : isVopsFile path = true ↔ VOPS_FILE_PREFIX <+: path :=
  strncmpEqual_length_iff path VOPS_FILE_PREFIX

/-- The directory of the virtual files, or something in it. -/
def Virtual (path : Path) : Prop := Below VOPS_DIR path

instance (path : Path) : Decidable (Virtual path) :=
  inferInstanceAs (Decidable (Below VOPS_DIR path))

theorem virtual_iff (path : Path) : Virtual path ↔ path = VOPS_DIR ∨ isVopsFile path = true := by
  have whole : VOPS_DIR ++ [slash] = VOPS_FILE_PREFIX := by decide
  rw [isVopsFile_iff, ← whole]
  rfl

end Mcachefs
