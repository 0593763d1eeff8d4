import Mathlib.Data.List.Basic
import Mathlib.Tactic.Ring

namespace Mcachefs
namespace Library

/-!
# Fixed-width little-endian fields

A binary record is a concatenation of fixed-width little-endian fields and
of byte strings whose lengths those fields carry.  A reader peels such a
record from the left: it takes a known number of bytes and keeps the rest.

Nothing here depends on a particular record.  The two facts a round trip
needs are that a field which was written in a given width reads back as the
number it encodes, and that peeling a field returns exactly what follows it.
-/

/-- One byte of a file or of a string. -/
abbrev Byte := UInt8

/-- The low `width` bytes of a number, least significant byte first. -/
def littleEndian : (width : Nat) -> Nat -> List Byte
  | 0, _ => []
  | width + 1, value => UInt8.ofNat (value % 256) :: littleEndian width (value / 256)

/-- The number a little-endian byte string denotes. -/
def ofLittleEndian : List Byte -> Nat
  | [] => 0
  | byte :: bytes => byte.toNat + 256 * ofLittleEndian bytes

@[simp] theorem littleEndian_length (width value : Nat) :
    (littleEndian width value).length = width := by
  induction width generalizing value with
  | zero => rfl
  | succ width inductionHypothesis =>
      simp only [littleEndian, List.length_cons, inductionHypothesis]

/-- A value that fits its width survives the encoding. -/
theorem ofLittleEndian_littleEndian (width value : Nat) (fits : value < 256 ^ width) :
    ofLittleEndian (littleEndian width value) = value := by
  induction width generalizing value with
  | zero =>
      have zero : value = 0 := by simpa using fits
      subst zero
      rfl
  | succ width inductionHypothesis =>
      have high : value / 256 < 256 ^ width := by
        apply Nat.div_lt_of_lt_mul
        rwa [Nat.pow_succ, Nat.mul_comm] at fits
      have low : (UInt8.ofNat (value % 256)).toNat = value % 256 := by
        rw [UInt8.toNat_ofNat']
        exact Nat.mod_eq_of_lt (Nat.mod_lt value (by decide))
      simp only [littleEndian, ofLittleEndian, inductionHypothesis _ high, low]
      exact Nat.mod_add_div value 256

/-- Peel one little-endian field of the given width. -/
def peel (width : Nat) (bytes : List Byte) : Nat × List Byte :=
  (ofLittleEndian (bytes.take width), bytes.drop width)

/-- Peeling a written field returns its value and everything after it. -/
theorem peel_littleEndian_append (width value : Nat) (rest : List Byte)
    (fits : value < 256 ^ width) :
    peel width (littleEndian width value ++ rest) = (value, rest) := by
  have taken : (littleEndian width value ++ rest).take width = littleEndian width value :=
    List.take_left' (littleEndian_length width value)
  have dropped : (littleEndian width value ++ rest).drop width = rest :=
    List.drop_left' (littleEndian_length width value)
  rw [peel, taken, dropped, ofLittleEndian_littleEndian width value fits]

@[simp] theorem peel_uint32 (value : UInt32) (rest : List Byte) :
    peel 4 (littleEndian 4 value.toNat ++ rest) = (value.toNat, rest) :=
  peel_littleEndian_append 4 value.toNat rest value.toNat_lt

@[simp] theorem peel_uint64 (value : UInt64) (rest : List Byte) :
    peel 8 (littleEndian 8 value.toNat ++ rest) = (value.toNat, rest) :=
  peel_littleEndian_append 8 value.toNat rest value.toNat_lt

end Library
end Mcachefs
