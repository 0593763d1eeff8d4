import Mathlib.Data.UInt

namespace Mcachefs

/-!
# File attributes

The fields of `struct stat` that the program reads or sets.  The file type sits
in the bits `S_IFMT` of the mode.
-/

/-- `struct stat`. -/
structure Stat where
  st_mode : UInt32
  st_nlink : Nat
  st_uid : UInt32
  st_gid : UInt32
  st_rdev : UInt64
  st_size : Int
  st_atime : Int
  st_mtime : Int
  st_ctime : Int
  deriving DecidableEq, Repr

/-- All fields after `memset`. -/
def Stat.zero : Stat := ⟨0, 0, 0, 0, 0, 0, 0, 0, 0⟩

/-- The bits of the file type. -/
def S_IFMT : UInt32 := 0o170000

def S_IFDIR : UInt32 := 0o040000
def S_IFREG : UInt32 := 0o100000
def S_IFLNK : UInt32 := 0o120000

namespace Stat

/-- `S_ISDIR`. -/
def isDir (st : Stat) : Bool :=
  st.st_mode &&& S_IFMT = S_IFDIR

/-- `S_ISREG`. -/
def isReg (st : Stat) : Bool :=
  st.st_mode &&& S_IFMT = S_IFREG

/-- `S_ISLNK`. -/
def isLnk (st : Stat) : Bool :=
  st.st_mode &&& S_IFMT = S_IFLNK

/-- A mode has one file type. -/
theorem isReg_of_isDir {st : Stat} (directory : st.isDir = true) : st.isReg = false := by
  simp only [isDir, isReg, decide_eq_true_eq] at directory ⊢
  rw [directory]
  decide

theorem isLnk_of_isDir {st : Stat} (directory : st.isDir = true) : st.isLnk = false := by
  simp only [isDir, isLnk, decide_eq_true_eq] at directory ⊢
  rw [directory]
  decide

end Stat

/-- The mode that `mcachefs_chmod` sets: its mask leaves only the permissions. -/
def chmodMode (st_mode mode : UInt32) : UInt32 :=
  (st_mode &&& ~~~0o777) ||| (mode &&& 0o777)

section Bits

variable {mask part old new : UInt32}

/-- Bits inside the mask come from the new value. -/
theorem splice_inside (inside : part &&& mask = part) :
    ((old &&& ~~~mask) ||| (new &&& mask)) &&& part = new &&& part := by
  have inside := congrArg UInt32.toBitVec inside
  apply UInt32.toBitVec_inj.mp
  simp only [UInt32.toBitVec_and, UInt32.toBitVec_or, UInt32.toBitVec_not] at inside ⊢
  ext bit bound
  have here := congrArg (fun bits => bits[bit]) inside
  simp only [BitVec.getElem_and, BitVec.getElem_or, BitVec.getElem_not] at here ⊢
  grind

/-- The other bits stay. -/
theorem splice_outside (apart : part &&& mask = 0) :
    ((old &&& ~~~mask) ||| (new &&& mask)) &&& part = old &&& part := by
  have apart := congrArg UInt32.toBitVec apart
  apply UInt32.toBitVec_inj.mp
  simp only [UInt32.toBitVec_and, UInt32.toBitVec_or, UInt32.toBitVec_not] at apart ⊢
  ext bit bound
  have here := congrArg (fun bits => bits[bit]) apart
  simp only [UInt32.toBitVec_zero, BitVec.getElem_zero, BitVec.getElem_and, BitVec.getElem_or,
    BitVec.getElem_not] at here ⊢
  grind

end Bits

theorem chmodMode_type (st_mode mode : UInt32) :
    chmodMode st_mode mode &&& S_IFMT = st_mode &&& S_IFMT :=
  splice_outside (by decide)

/-- What `mcachefs_chmod` makes of the attributes. -/
def chmodStat (mode : UInt32) (st : Stat) : Stat :=
  { st with st_mode := chmodMode st.st_mode mode }

/-- The id that tells `mcachefs_chown` to keep the present one. -/
def KEEP_ID : UInt32 := 0xFFFFFFFF

/-- What `mcachefs_chown` makes of the attributes. -/
def chownStat (uid gid : UInt32) (st : Stat) : Stat :=
  { st with
    st_uid := if uid = KEEP_ID then st.st_uid else uid
    st_gid := if gid = KEEP_ID then st.st_gid else gid }

/-- What `mcachefs_truncate` makes of the attributes. -/
def truncateStat (size : Int) (st : Stat) : Stat :=
  { st with st_size := size }

/-- What `mcachefs_utime` makes of the attributes. -/
def utimeStat (actime modtime : Int) (st : Stat) : Stat :=
  { st with st_atime := actime, st_mtime := modtime }

/-- What `mcachefs_file_update_metadata` makes of the attributes. -/
def updateStat (now size : Int) (modified : Bool) (st : Stat) : Stat :=
  { st with
    st_size := if st.st_size < size then size else st.st_size
    st_atime := now
    st_mtime := if modified then now else st.st_mtime }

/-- `MCACHEFS_METADATA_MAX_LINK_COUNT`. -/
def MAX_LINK_COUNT : Nat := 1024

/-- `st_nlink++` and `st_nlink--` of a `nlink_t`. -/
def raiseLinks (st : Stat) : Stat :=
  { st with st_nlink := (st.st_nlink + 1) % 2 ^ 64 }

def lowerLinks (st : Stat) : Stat :=
  { st with st_nlink := (st.st_nlink + (2 ^ 64 - 1)) % 2 ^ 64 }

end Mcachefs
