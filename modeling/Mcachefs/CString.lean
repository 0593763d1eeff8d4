import Mcachefs.Library.Bytes
import Mathlib.Data.List.Infix
import Mathlib.Data.List.TakeWhile

namespace Mcachefs

open Library

/-!
# C strings and paths

A path is the byte string a `char *` points to, up to its terminating NUL
and without it.  The terminator is therefore not an element of the list; a
byte list denotes such a string when it contains no NUL.
-/

/-- A path, as the bytes before its terminating NUL. -/
abbrev Path := List Byte

/-- `PATH_MAX` of the Linux headers: the size of every path buffer. -/
def PATH_MAX : Nat := 4096

/-- The path separator. -/
def slash : Byte := 47

/-- The bytes of an ASCII literal. -/
def ascii (text : String) : Path :=
  text.toList.map fun letter => UInt8.ofNat letter.toNat

/-- What a C reader sees of a buffer: everything before the first NUL. -/
def cString (buffer : List Byte) : Path :=
  buffer.takeWhile (· ≠ 0)

theorem cString_eq_self {buffer : List Byte} (noNul : (0 : Byte) ∉ buffer) :
    cString buffer = buffer := by
  apply List.takeWhile_eq_self_iff.mpr
  intro byte member
  have different : byte ≠ 0 := fun equal => noNul (equal ▸ member)
  simpa using different

/-- `strncmp(first, second, count) == 0` on NUL-free strings.  A string that
ends early differs at its terminator, so equality of the prefixes decides. -/
def strncmpEqual (first second : Path) (count : Nat) : Bool :=
  decide (first.take count = second.take count)

/-- Comparing up to the length of the second string tests a string prefix. -/
theorem strncmpEqual_length_iff (first second : Path) :
    strncmpEqual first second second.length = true ↔ second <+: first := by
  rw [strncmpEqual, decide_eq_true_eq, List.take_length, List.prefix_iff_eq_take]
  exact eq_comm

/-- A path names `ancestor` itself or something below it. -/
def Below (ancestor path : Path) : Prop :=
  path = ancestor ∨ ancestor ++ [slash] <+: path

instance (ancestor path : Path) : Decidable (Below ancestor path) := by
  unfold Below
  infer_instance

theorem Below.isPrefix {ancestor path : Path} (below : Below ancestor path) :
    ancestor <+: path := by
  rcases below with same | inside
  · exact same ▸ List.prefix_refl path
  · exact (List.prefix_append ancestor [slash]).trans inside

end Mcachefs
