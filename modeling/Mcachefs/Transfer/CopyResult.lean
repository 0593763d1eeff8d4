import Mcachefs.Transfer.CopyLoop
import Mcachefs.Transfer.Settling

namespace Mcachefs
namespace CopyLoop

open Library
open Transfer (CopyCursor CopyFault CopyTurn Copying copyLoop nextWindow tocopy_full)

/-!
# The result of a copy

A backup settles its file by the result of its copy alone, and `Transfer.copyLoop` gives
that result without the bytes, the buffer and the clock.  `transferFile_copying` says that
it is the result of `transferFile`.
-/

variable {call : Call} {target : List Byte}

def Fault.ofCopy : CopyFault -> Fault
  | .couldNotGetSourceStat => .sourceStat
  | .divisionByZero => .divisionByZero
  | .fuel => .fuel

/-- The variables of the loop in a turn before which all windows were full. -/
def Call.cursor (call : Call) (number : Nat) : CopyCursor where
  offset := (call.window number).offset
  remains := call.size - (call.window number).offset
  window_size := (call.window number).size
  window_size_alloced := (call.window number).alloced

/-- What the loop alone meets in a turn.  A read or a write that fails gives -1. -/
def Call.turns (call : Call) (number : Nat) : CopyTurn where
  quittingBefore := (call.answers number).quittingBefore
  quittingRead := (call.answers number).quittingRead
  quittingWritten := (call.answers number).quittingWritten
  pread := if (call.answers number).pread = none then (call.cursor number).tocopy else -1
  pwrite := if (call.answers number).pwrite = none then (call.cursor number).tocopy else -1
  interval := TIME_DIFF (call.clock (2 * number + 2)) (call.clock (2 * number))
  global_interval := TIME_DIFF (call.clock (2 * number + 2)) (call.clock 0)
  realloc := (call.answers number).realloc.isSome

/-- What the loop alone meets. -/
def Call.copying (call : Call) : Copying where
  source_fd := call.source_fd
  target_fd := call.target_fd
  source_stat := if call.fstat then some call.source.length else none
  turns := call.turns

theorem Planned.cursor_eq {number : Nat} {state : State}
    (planned : Planned call target number state) : state.toCopyCursor = call.cursor number := by
  obtain ⟨offset, -, remains, window_size, window_size_alloced, -, -, -, -⟩ := planned
  obtain ⟨⟨_, _, _, _⟩, _, _, _, _, _, _, _⟩ := state
  simp only at offset remains window_size window_size_alloced
  subst offset remains window_size window_size_alloced
  rfl

/-- A read or a write that fails gives another number than was asked for. -/
theorem goesThrough {tocopy : Int} {fails : Option Nat} (nonneg : 0 ≤ tocopy)
    (same : ¬ tocopy ≠ if fails = none then tocopy else -1) : fails = none := by
  by_contra failed
  rw [if_neg failed] at same
  omega

theorem copyLoop_incomplete {number : Nat} (nonneg : 0 ≤ (call.cursor number).tocopy)
    (incomplete : ¬ Complete (call.answers number)) (fuel : Nat) :
    copyLoop call.turns (fuel + 1) number (call.cursor number) = .ok false := by
  unfold copyLoop
  simp only
  split
  · rfl
  next ready =>
    split
    · rfl
    next read =>
      split
      · rfl
      next readOn =>
        split
        · rfl
        next written =>
          split
          · rfl
          next writtenOn =>
            exact absurd ⟨Bool.eq_false_iff.mpr ready, Bool.eq_false_iff.mpr readOn,
              Bool.eq_false_iff.mpr writtenOn, goesThrough nonneg read,
              goesThrough nonneg written⟩ incomplete

theorem Complete.turns {number : Nat} (complete : Complete (call.answers number)) :
    call.turns number =
      { quittingBefore := false
        quittingRead := false
        quittingWritten := false
        pread := (call.cursor number).tocopy
        pwrite := (call.cursor number).tocopy
        interval := TIME_DIFF (call.clock (2 * number + 2)) (call.clock (2 * number))
        global_interval := TIME_DIFF (call.clock (2 * number + 2)) (call.clock 0)
        realloc := (call.answers number).realloc.isSome } := by
  rw [Call.turns, complete.quittingBefore, complete.quittingRead, complete.quittingWritten,
    if_pos complete.pread, if_pos complete.pwrite]

/-- A turn of the loop alone in which everything goes through. -/
theorem copyLoop_complete {number : Nat} (complete : Complete (call.answers number))
    (fuel : Nat) :
    copyLoop call.turns (fuel + 1) number (call.cursor number) =
      if (call.cursor number).copied.remains = 0 then .ok true
      else if TIME_DIFF (call.clock (2 * number + 2)) (call.clock (2 * number)) = 0 ∨
          TIME_DIFF (call.clock (2 * number + 2)) (call.clock 0) = 0 then .error .divisionByZero
      else
        let cursor := (call.cursor number).copied
        let window_size := nextWindow ((cursor.offset * 1000).tdiv
          (TIME_DIFF (call.clock (2 * number + 2)) (call.clock 0))) cursor.window_size
        if cursor.window_size_alloced < window_size then
          if (call.answers number).realloc.isSome then
            copyLoop call.turns fuel (number + 1)
              { cursor with window_size := window_size, window_size_alloced := window_size }
          else .ok false
        else copyLoop call.turns fuel (number + 1) { cursor with window_size := window_size } := by
  rw [copyLoop]
  simp only [complete.turns, ne_eq, not_true_eq_false, Bool.false_eq_true, if_false]

/-- A full window leads to the next planned cursor. -/
theorem Call.cursor_copied {number : Nat} (more : (call.window (number + 1)).offset < call.size) :
    (call.cursor number).copied =
      { call.cursor number with
        offset := (call.window (number + 1)).offset
        remains := call.size - (call.window (number + 1)).offset } := by
  have full : (call.cursor number).tocopy = (call.window number).size := by
    rw [call.window_succ_offset] at more
    exact tocopy_full (Int.lt_sub_left_of_add_lt more)
  rw [CopyCursor.copied, full]
  simp only [Call.cursor, call.window_succ_offset, sub_sub]

theorem Call.cursor_succ (call : Call) (number : Nat) :
    call.cursor (number + 1) =
      { offset := (call.window (number + 1)).offset
        remains := call.size - (call.window (number + 1)).offset
        window_size := (call.window (number + 1)).size
        window_size_alloced :=
          max (call.window number).alloced (call.window (number + 1)).size } :=
  rfl

section More

variable {number : Nat} (complete : Complete (call.answers number))
  (more : (call.window (number + 1)).offset < call.size)
include complete more

theorem copyLoop_traps (still : call.clock (2 * number + 2) = call.clock (2 * number))
    (fuel : Nat) :
    copyLoop call.turns (fuel + 1) number (call.cursor number) = .error .divisionByZero := by
  have rest : ¬ call.size - (call.window (number + 1)).offset = 0 := by omega
  have zero : TIME_DIFF (call.clock (2 * number + 2)) (call.clock (2 * number)) = 0 := by
    rw [still, timeDiff_eq]
    exact Int.sub_self _
  rw [copyLoop_complete complete, call.cursor_copied more, if_neg rest, if_pos (Or.inl zero)]

/-- After a full window the loop alone is left where the buffer cannot grow. -/
theorem copyLoop_more
    (interval : TIME_DIFF (call.clock (2 * number + 2)) (call.clock (2 * number)) ≠ 0)
    (global_interval : TIME_DIFF (call.clock (2 * number + 2)) (call.clock 0) ≠ 0) (fuel : Nat) :
    copyLoop call.turns (fuel + 1) number (call.cursor number) =
      if (call.window number).alloced < (call.window (number + 1)).size ∧
          (call.answers number).realloc = none then .ok false
      else copyLoop call.turns fuel (number + 1) (call.cursor (number + 1)) := by
  have rest : ¬ call.size - (call.window (number + 1)).offset = 0 := by omega
  rw [copyLoop_complete complete, call.cursor_copied more, if_neg rest,
    if_neg (not_or.mpr ⟨interval, global_interval⟩)]
  by_cases grows : (call.window number).alloced < (call.window (number + 1)).size
  · refine (if_pos grows).trans ?_
    cases (call.answers number).realloc with
    | none => exact (if_pos ⟨grows, rfl⟩).symm
    | some held =>
        refine Eq.trans ?_ (if_neg fun fails => nomatch fails.2).symm
        rw [call.cursor_succ, max_eq_right grows.le]
        rfl
  · refine (if_neg grows).trans (Eq.trans ?_ (if_neg fun fails => grows fails.1).symm)
    rw [call.cursor_succ, max_eq_left (Int.not_lt.mp grows)]
    rfl

end More

theorem copyLoop_last {number : Nat} (complete : Complete (call.answers number))
    (last : call.size ≤ (call.window (number + 1)).offset) (fuel : Nat) :
    copyLoop call.turns (fuel + 1) number (call.cursor number) = .ok true := by
  have all : (call.cursor number).copied.remains = 0 := by
    rw [call.window_succ_offset] at last
    have whole : (call.cursor number).tocopy = call.size - (call.window number).offset :=
      if_neg (by simp only [Call.cursor]; omega)
    exact (congrArg (call.size - (call.window number).offset - ·) whole).trans (Int.sub_self _)
  rw [copyLoop_complete complete, if_pos all]

/-- The result of a call whose loop has come to its end, or has not. -/
def ending (ended : Bool) : Option Int :=
  some (if ended then 0 else - Journal.EIO)

/-- From a planned state, the loop and the loop alone end alike. -/
theorem Planned.iterate_copyLoop {number : Nat} {state : State}
    (planned : Planned call target number state) (neverBack : NeverBack call.clock)
    (letsThrough : call.LetsThrough) (fuel : Nat) :
    (iterate .fuel (turn call) fuel number state).map State.result =
      ((copyLoop call.turns fuel number (call.cursor number)).mapError Fault.ofCopy).map
        ending := by
  induction fuel generalizing number state with
  | zero => rfl
  | succ fuel inductionHypothesis =>
      by_cases complete : Complete (call.answers number)
      · by_cases more : (call.window (number + 1)).offset < call.size
        · by_cases still : call.clock (2 * number + 2) = call.clock (2 * number)
          · rw [copyLoop_traps complete more still, iterate,
              planned.turn_traps complete more still]
            rfl
          · obtain ⟨interval, global_interval⟩ := neverBack.intervals still
            rw [copyLoop_more complete more interval global_interval, iterate]
            split
            · next fails =>
                obtain ⟨left, taken, result⟩ := planned.turn_fails complete more
                  (letsThrough number) interval global_interval fails.1 fails.2
                rw [taken]
                exact congrArg Except.ok result
            · next fails =>
                obtain ⟨next, taken, goesOn⟩ := planned.turn_goesOn complete more
                  (letsThrough number) interval global_interval
                  fun grows none => fails ⟨grows, none⟩
                rw [taken]
                exact inductionHypothesis goesOn
        · have last := Int.not_lt.mp more
          obtain ⟨left, taken, result, -⟩ := planned.turn_last complete last
          rw [copyLoop_last complete last, iterate, taken]
          exact congrArg Except.ok result
      · obtain ⟨left, taken, result⟩ := planned.turn_incomplete complete
        have nonneg := planned.tocopy_le.1
        rw [planned.cursor_eq] at nonneg
        rw [copyLoop_incomplete nonneg complete, iterate, taken]
        exact congrArg Except.ok result

/-- With a clock that never goes back, a copy gives the result that a backup works with. -/
theorem transferFile_copying (call : Call) (target : List Byte) (neverBack : NeverBack call.clock)
    (letsThrough : call.LetsThrough) (tobacking : Bool) (mfile : Mfile) :
    (transferFile call target (call.size.toNat + 1)).map State.result =
      ((call.copying.transferFile tobacking call.total_size mfile).mapError Fault.ofCopy).map
        fun returned => some returned.1 := by
  have size : (if (call.total_size : Int) < (call.source.length : Int) then
      (call.total_size : Int) else call.source.length) = call.size := by
    unfold Call.size
    split <;> split <;> omega
  have start : CopyCursor.start call.size = call.cursor 0 :=
    (call.planned_start target).cursor_eq
  have alike := (call.planned_start target).iterate_copyLoop neverBack letsThrough
    (call.size.toNat + 1)
  obtain ⟨source_fd, target_fd, fstat, total_size, source, malloc, clock, answers⟩ := call
  cases source_fd with
  | false => rfl
  | true =>
      cases target_fd with
      | false => rfl
      | true =>
          cases fstat with
          | false => rfl
          | true =>
              refine alike.trans ?_
              unfold Copying.transferFile
              simp only [Call.copying, Bool.true_eq_false, if_true, if_false, size, start]
              cases copyLoop _ _ 0 (Call.cursor _ 0) with
              | error fault => rfl
              | ok ended => cases ended <;> rfl

/-- Whatever a copy meets, it does not run out of turns. -/
theorem transferFile_fuel (call : Call) (target : List Byte) (neverBack : NeverBack call.clock)
    (letsThrough : call.LetsThrough) :
    transferFile call target (call.size.toNat + 1) ≠ .error .fuel := by
  intro out
  have alike := transferFile_copying call target neverBack letsThrough false (.init [] .file)
  rw [out] at alike
  have never := call.copying.transferFile_fuel false call.total_size (.init [] .file)
  cases returned : call.copying.transferFile false call.total_size (.init [] .file) with
  | ok returned' => rw [returned] at alike; cases alike
  | error fault =>
      rw [returned] at alike never
      cases fault with
      | fuel => exact never rfl
      | couldNotGetSourceStat | divisionByZero => cases alike

end CopyLoop
end Mcachefs
