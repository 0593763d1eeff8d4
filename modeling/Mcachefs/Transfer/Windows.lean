import Mathlib.Algebra.Ring.Int.Defs

namespace Mcachefs
namespace Transfer

/-!
# The windows of a copy

The loop of `mcachefs_transfer_file` copies a window, moves on by it, and takes another
window size from the rate so far.  The models of the loop share these steps:
`Transfer.copyLoop` follows nothing else, `CopyLoop` adds the bytes and the clock, and
`CachedLength` the length of the target while others change it.
-/

/-- `mcachefs_transfer_window_size_min`. -/
def windowSizeMin : Int := 4 * 2 ^ 10

/-- `mcachefs_transfer_window_size_max`. -/
def windowSizeMax : Int := 128 * 2 ^ 10

/-- The window of the next turn. -/
def nextWindow (global_rate window_size : Int) : Int :=
  if global_rate < 10 ∧ window_size > 2 ^ 12 then window_size / 2
  else if global_rate > 100 ∧ window_size < windowSizeMax then window_size * 2
  else window_size

/-- `tocopy`. -/
def tocopy (remains window_size : Int) : Int :=
  if remains > window_size then window_size else remains

/-- Where the loop is, and its window. -/
structure CopyCursor where
  offset : Int
  remains : Int
  window_size : Int
  window_size_alloced : Int

/-- The variables with which the loop is entered. -/
def CopyCursor.start (size : Int) : CopyCursor where
  offset := 0
  remains := size
  window_size := windowSizeMin
  window_size_alloced := windowSizeMin

def CopyCursor.tocopy (cursor : CopyCursor) : Int :=
  Transfer.tocopy cursor.remains cursor.window_size

/-- After a window. -/
def CopyCursor.copied (cursor : CopyCursor) : CopyCursor :=
  { cursor with
    offset := cursor.offset + cursor.tocopy
    remains := cursor.remains - cursor.tocopy }

theorem windowSizeMin_pos : 0 < windowSizeMin := by decide

theorem nextWindow_pos {global_rate window_size : Int} (positive : 0 < window_size) :
    0 < nextWindow global_rate window_size := by
  unfold nextWindow
  split
  · omega
  · split <;> omega

/-- The sizes are powers of two. -/
theorem nextWindow_power {global_rate window_size : Int} {exponent : Nat} (few : exponent ≤ 5)
    (power : window_size = 4096 * 2 ^ exponent) :
    Exists fun exponent : Nat => exponent ≤ 5 ∧
      nextWindow global_rate window_size = 4096 * 2 ^ exponent := by
  unfold nextWindow
  split
  · next shrinks =>
      cases exponent with
      | zero =>
          rw [power] at shrinks
          exact absurd shrinks.2 (by decide)
      | succ exponent =>
          refine ⟨exponent, by omega, ?_⟩
          rw [power, pow_succ]
          omega
  · split
    · next grows =>
        have less : exponent ≠ 5 := by
          rintro rfl
          rw [power] at grows
          exact absurd grows.2 (by decide)
        exact ⟨exponent + 1, by omega, by rw [power, pow_succ]; omega⟩
    · exact ⟨exponent, few, power⟩

/-- A window that is not the last is full. -/
theorem tocopy_full {remains window_size : Int} (more : window_size < remains) :
    tocopy remains window_size = window_size :=
  if_pos more

theorem tocopy_le {remains window_size : Int} :
    tocopy remains window_size ≤ remains ∧ tocopy remains window_size ≤ window_size := by
  unfold tocopy
  split <;> omega

/-- What is left after a window is less than before, or nothing. -/
theorem CopyCursor.copied_less {cursor : CopyCursor} (positive : 0 < cursor.window_size) :
    cursor.copied.remains = 0 ∨ cursor.copied.remains.toNat < cursor.remains.toNat := by
  simp only [copied, CopyCursor.tocopy, Transfer.tocopy]
  split <;> omega

end Transfer
end Mcachefs
