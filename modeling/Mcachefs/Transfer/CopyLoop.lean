import Mcachefs.CBuffer
import Mcachefs.Journal.Entry
import Mcachefs.Library.Runs
import Mcachefs.Transfer.Windows

namespace Mcachefs
namespace CopyLoop

open Library
open Transfer (CopyCursor nextWindow nextWindow_power windowSizeMin windowSizeMax)

/-!
# The copy of a file

`mcachefs_transfer_file` copies window by window.  After every window but the last it
reads the clock, computes rates from what has gone by, pauses to keep to the maximal rate,
and takes another window size.  The cursor and its steps are those of `Windows`; here are
the bytes, the buffer and the clock as well.

The call reads the clock once before the loop, and twice in each turn: `clock 0` is
`begin_copy`, `clock (2 * k + 1)` is `before` and `clock (2 * k + 2)` is `now` in turn `k`.
-/

/-- `struct timeval`. -/
structure Timeval where
  tv_sec : Int
  tv_usec : Int
  valid : 0 ≤ tv_usec ∧ tv_usec < 1000000

/-- `TIME_DIFF`, in microseconds. -/
def TIME_DIFF (now last : Timeval) : Int :=
  (now.tv_sec - last.tv_sec) * 1000000 + (now.tv_usec - last.tv_usec)

/-- One reading of the clock is earlier than another. -/
def Timeval.Before (one two : Timeval) : Prop :=
  one.tv_sec < two.tv_sec ∨ one.tv_sec = two.tv_sec ∧ one.tv_usec < two.tv_usec

/-- What one turn of the loop meets. -/
structure Answers where
  /-- The read state is `MCACHEFS_STATE_QUITTING` before the read, before the write
  and after it. -/
  quittingBefore : Bool
  quittingRead : Bool
  quittingWritten : Bool
  /-- `pread` and `pwrite` move what is asked for, or else fail after so many bytes. -/
  pread : Option Nat
  pwrite : Option Nat
  /-- What `mcachefs_config_get_transfer_max_rate()` gives for the test, for the comparison
  and for the division. -/
  max_rate : Int
  max_rate_compared : Int
  max_rate_divisor : Int
  /-- `realloc` fails, or the new bytes hold anything. -/
  realloc : Option (Nat -> Byte)

/-- What a call meets. -/
structure Call where
  source_fd : Bool
  target_fd : Bool
  fstat : Bool
  /-- `mfile->transfer.total_size`. -/
  total_size : Nat
  source : List Byte
  malloc : Nat -> Byte
  clock : Nat -> Timeval
  answers : Nat -> Answers

/-- The variables of the loop, the target file, and what is published in
`mfile->transfer`; `result` is there once the loop is left. -/
structure State extends CopyCursor where
  window : List Byte
  last : Timeval
  target : List Byte
  transfered_size : Int
  rate : Int
  total_time : Int
  result : Option Int

inductive Fault
  | sourceStat
  | divisionByZero
  /-- A read or a write of more than the window. -/
  | pastWindow
  | fuel
  deriving DecidableEq

/-- `size`, cut down to that of the source. -/
def Call.size (call : Call) : Int :=
  if call.source.length ≠ call.total_size then
    if call.total_size < call.source.length then call.total_size else call.source.length
  else call.total_size

/-- `pwrite` of some bytes; a gap before them would be filled with zeros. -/
def pwrite (file : List Byte) (offset : Nat) (bytes : List Byte) : List Byte :=
  if bytes = [] then file
  else
    file.take offset ++ (List.replicate (offset - file.length) 0 ++
      (bytes ++ file.drop (offset + bytes.length)))

/-- A division of the processor. -/
def divide (numerator denominator : Int) : Except Fault Int :=
  if denominator = 0 then .error .divisionByZero else .ok (numerator.tdiv denominator)

def State.copyerr (state : State) : State :=
  { state with result := some (- Journal.EIO) }

/-- A turn up to `remains -= copied`. -/
def copyWindow (call : Call) (turn : Nat) (state : State) : Except Fault State :=
  let meets := call.answers turn
  let tocopy := state.tocopy
  if meets.quittingBefore then .ok state.copyerr
  else if state.window.length < tocopy then .error .pastWindow
  else
    let read := (call.source.drop state.offset.toNat).take tocopy.toNat
    match meets.pread with
    | some bytes => .ok { state with window := memcpy state.window 0 (read.take bytes) }.copyerr
    | none =>
        let state := { state with window := memcpy state.window 0 read }
        if tocopy ≠ read.length then .ok state.copyerr
        else if meets.quittingRead then .ok state.copyerr
        else
          let written := state.window.take tocopy.toNat
          match meets.pwrite with
          | some bytes =>
              .ok { state with
                target := pwrite state.target state.offset.toNat (written.take bytes) }.copyerr
          | none =>
              let state := { state with target := pwrite state.target state.offset.toNat written }
              if meets.quittingWritten then .ok state.copyerr
              else
                .ok { state with toCopyCursor := state.copied }

/-- The pause in nanoseconds, when there is one. -/
def penalty (meets : Answers) (adjusted_rate window_size copy_interval : Int) :
    Except Fault (Option Int) :=
  if meets.max_rate ≠ 0 ∧ adjusted_rate ≥ meets.max_rate_compared then do
    let tv_nsec ← divide (window_size * 2 ^ 20) meets.max_rate_divisor
    let tv_nsec :=
      if tv_nsec > copy_interval * 2 ^ 10 then tv_nsec - copy_interval * 2 ^ 10 else tv_nsec
    return some (if tv_nsec > 900000000 then 900000000 else tv_nsec)
  else .ok none

/-- The rest of a turn that is not the last: the rates, the next window and the progress. -/
def adapt (call : Call) (turn : Nat) (copied : Int) (state : State) : Except Fault State := do
  let meets := call.answers turn
  let before := call.clock (2 * turn + 1)
  let now := call.clock (2 * turn + 2)
  let global_interval := TIME_DIFF now (call.clock 0)
  let rate ← divide (copied * 1000) (TIME_DIFF now state.last)
  let global_rate ← divide (state.offset * 1000) global_interval
  let adjusted_rate := (global_rate + rate).tdiv 2
  let _ ← penalty meets adjusted_rate state.window_size (TIME_DIFF now before)
  let window_size := nextWindow global_rate state.window_size
  let state :=
    { state with
      window_size := window_size
      last := now }
  let published : State :=
    { state with
      transfered_size := state.offset
      rate := adjusted_rate
      total_time := global_interval }
  if state.window_size_alloced < window_size then
    match meets.realloc with
    | none => return state.copyerr
    | some held =>
        return { published with
          window := grow state.window window_size.toNat held
          window_size_alloced := window_size }
  else return published

/-- One turn of the loop. -/
def turn (call : Call) (turn : Nat) (state : State) : Except Fault (Option Nat × State) := do
  let copied ← copyWindow call turn state
  if copied.result ≠ none then return (none, copied)
  else if copied.remains = 0 then return (none, { copied with result := some 0 })
  else
    let adapted ← adapt call turn state.tocopy copied
    return (if adapted.result = none then some (turn + 1) else none, adapted)

/-- The state in which the loop is entered. -/
def Call.start (call : Call) (target : List Byte) : State where
  toCopyCursor := .start call.size
  window := grow [] windowSizeMin.toNat call.malloc
  last := call.clock 0
  target := target
  transfered_size := 0
  rate := 0
  total_time := 0
  result := none

/-- `mcachefs_transfer_file`. -/
def transferFile (call : Call) (target : List Byte) (fuel : Nat) : Except Fault State :=
  if call.source_fd = false then .ok (call.start target).copyerr
  else if call.target_fd = false then .ok (call.start target).copyerr
  else if call.fstat = false then .error .sourceStat
  else iterate .fuel (turn call) fuel 0 (call.start target)

/-! ## The clock -/

/-- All microseconds of a reading. -/
def Timeval.micros (reading : Timeval) : Int :=
  reading.tv_sec * 1000000 + reading.tv_usec

theorem timeDiff_eq (now last : Timeval) : TIME_DIFF now last = now.micros - last.micros := by
  simp only [TIME_DIFF, Timeval.micros]
  omega

theorem Timeval.before_iff {one two : Timeval} : one.Before two ↔ one.micros < two.micros := by
  have oneValid := one.valid
  have twoValid := two.valid
  simp only [Timeval.Before, Timeval.micros]
  omega

theorem Timeval.eq_iff {one two : Timeval} : one = two ↔ one.micros = two.micros := by
  refine ⟨congrArg micros, fun same => ?_⟩
  cases one with
  | mk oneSec oneUsec oneValid =>
      cases two with
      | mk twoSec twoUsec twoValid =>
          simp only [micros] at same
          have sec : oneSec = twoSec := by omega
          have usec : oneUsec = twoUsec := by omega
          subst sec usec
          rfl

/-- The clock never goes back. -/
def NeverBack (clock : Nat -> Timeval) : Prop :=
  forall reading, ¬ (clock (reading + 1)).Before (clock reading)

theorem NeverBack.micros_le {clock : Nat -> Timeval} (neverBack : NeverBack clock)
    {one two : Nat} (later : one ≤ two) : (clock one).micros ≤ (clock two).micros := by
  induction two, later using Nat.le_induction with
  | base => exact Int.le_refl _
  | succ two _ inductionHypothesis =>
      have step := mt Timeval.before_iff.mpr (neverBack two)
      omega

/-! ## The windows -/

/-- Where a turn starts, its window, and how much has been allocated. -/
structure Window where
  offset : Int
  size : Int
  alloced : Int

/-- The windows as the readings of the clock give them, as long as they are full. -/
def Call.window (call : Call) : Nat -> Window
  | 0 => ⟨0, windowSizeMin, windowSizeMin⟩
  | turn + 1 =>
      let before := call.window turn
      let offset := before.offset + before.size
      let interval := TIME_DIFF (call.clock (2 * turn + 2)) (call.clock 0)
      let size := nextWindow ((offset * 1000).tdiv interval) before.size
      ⟨offset, size, max before.alloced size⟩

theorem Call.window_power (call : Call) (turn : Nat) :
    Exists fun exponent : Nat => exponent ≤ 5 ∧
      (call.window turn).size = 4096 * 2 ^ exponent := by
  induction turn with
  | zero => exact ⟨0, by omega, rfl⟩
  | succ turn inductionHypothesis =>
      obtain ⟨exponent, few, power⟩ := inductionHypothesis
      exact nextWindow_power few power

theorem Call.window_bounds (call : Call) (turn : Nat) :
    windowSizeMin ≤ (call.window turn).size ∧ (call.window turn).size ≤ windowSizeMax := by
  obtain ⟨exponent, few, power⟩ := call.window_power turn
  rw [power]
  have cases : exponent = 0 ∨ exponent = 1 ∨ exponent = 2 ∨ exponent = 3 ∨ exponent = 4 ∨
      exponent = 5 := by
    omega
  rcases cases with rfl | rfl | rfl | rfl | rfl | rfl <;> decide

theorem Call.window_alloced (call : Call) (turn : Nat) :
    (call.window turn).size ≤ (call.window turn).alloced := by
  cases turn with
  | zero => exact Int.le_refl _
  | succ turn => exact Int.le_max_right _ _

theorem Call.window_offset (call : Call) (turn : Nat) : 0 ≤ (call.window turn).offset := by
  induction turn with
  | zero => exact Int.le_refl 0
  | succ turn inductionHypothesis =>
      have positive := (call.window_bounds turn).1
      simp only [Call.window]
      simp only [windowSizeMin] at positive
      omega

/-! ## A turn -/

/-- The reads and writes of a turn go through. -/
structure Complete (meets : Answers) : Prop where
  quittingBefore : meets.quittingBefore = false
  quittingRead : meets.quittingRead = false
  quittingWritten : meets.quittingWritten = false
  pread : meets.pread = none
  pwrite : meets.pwrite = none

/-- The state in which a turn with a full window before it is entered. -/
structure Planned (call : Call) (target : List Byte) (turn : Nat) (state : State) : Prop where
  offset : state.offset = (call.window turn).offset
  within : state.offset ≤ call.size
  remains : state.remains = call.size - state.offset
  window_size : state.window_size = (call.window turn).size
  window_size_alloced : state.window_size_alloced = (call.window turn).alloced
  window : state.window.length = state.window_size_alloced
  last : state.last = call.clock (2 * turn)
  copied : state.target = call.source.take state.offset.toNat ++ target.drop state.offset.toNat
  result : state.result = none

theorem Call.size_le (call : Call) : 0 ≤ call.size ∧ call.size ≤ call.source.length := by
  unfold Call.size
  split
  · split <;> omega
  · next same =>
      have equal : call.source.length = call.total_size := not_not.mp same
      omega

theorem Call.planned_start (call : Call) (target : List Byte) :
    Planned call target 0 (call.start target) where
  offset := rfl
  within := call.size_le.1
  remains := (Int.sub_zero _).symm
  window_size := rfl
  window_size_alloced := rfl
  window := by
    rw [Call.start, grow_length]
    rfl
  last := rfl
  copied := rfl
  result := rfl

/-- The bytes of a window behind the bytes before it. -/
theorem pwrite_copied {source target : List Byte} {offset tocopy : Nat}
    (inside : offset + tocopy ≤ source.length) :
    pwrite (source.take offset ++ target.drop offset) offset ((source.drop offset).take tocopy) =
      source.take (offset + tocopy) ++ target.drop (offset + tocopy) := by
  have front : (source.take offset).length = offset := by
    rw [List.length_take]
    omega
  have window : ((source.drop offset).take tocopy).length = tocopy := by
    rw [List.length_take, List.length_drop]
    omega
  unfold pwrite
  split
  · next empty =>
      have none : tocopy = 0 := by
        rw [empty] at window
        exact window.symm
      rw [none, Nat.add_zero]
  · have gap : offset - (source.take offset ++ target.drop offset).length = 0 := by
      rw [List.length_append, front]
      omega
    have before : (source.take offset ++ target.drop offset).take offset = source.take offset :=
      List.take_left' front
    have after : (source.take offset ++ target.drop offset).drop (offset + tocopy) =
        target.drop (offset + tocopy) := by
      have short : (source.take offset).length ≤ offset + tocopy := by omega
      rw [List.drop_append, List.drop_eq_nil_of_le short, front, Nat.add_sub_cancel_left,
        List.nil_append, List.drop_drop]
    rw [gap, window, before, after, List.replicate_zero, List.nil_append, ← List.append_assoc,
      List.take_add]

section Turn

variable {call : Call} {target : List Byte} {number : Nat} {state : State}

/-- A window fits into the buffer and into what is left. -/
theorem Planned.tocopy_le (planned : Planned call target number state) :
    0 ≤ state.tocopy ∧ state.tocopy ≤ state.window.length ∧
      state.offset + state.tocopy ≤ call.size := by
  have bounds := call.window_bounds number
  have alloced := call.window_alloced number
  have within := planned.within
  rw [planned.window, planned.window_size_alloced]
  simp only [CopyCursor.tocopy, Transfer.tocopy, planned.remains, planned.window_size, windowSizeMin] at *
  split <;> omega

/-- What `pread` gives when it goes through. -/
def State.read (call : Call) (state : State) : List Byte :=
  (call.source.drop state.offset.toNat).take state.tocopy.toNat

theorem Planned.offset_nonneg (planned : Planned call target number state) :
    0 ≤ state.offset := by
  rw [planned.offset]
  exact call.window_offset number

theorem Planned.read_length (planned : Planned call target number state) :
    state.offset.toNat + state.tocopy.toNat ≤ call.source.length ∧
      (state.read call).length = state.tocopy.toNat := by
  have nonneg := planned.offset_nonneg
  have fits := planned.tocopy_le
  have inside := call.size_le.2
  rw [State.read, List.length_take, List.length_drop]
  omega

/-- The loop is left when a read or a write does not go through. -/
theorem Planned.copyWindow_incomplete (planned : Planned call target number state)
    (incomplete : ¬ Complete (call.answers number)) :
    Exists fun next => copyWindow call number state = .ok next ∧
      next.result = some (- Journal.EIO) := by
  have room : ¬ (state.window.length : Int) < state.tocopy :=
    Int.not_lt.mpr planned.tocopy_le.2.1
  unfold copyWindow
  simp only [if_neg room]
  split
  · exact ⟨_, rfl, rfl⟩
  · next ready =>
      cases read : (call.answers number).pread with
      | some bytes => exact ⟨_, rfl, rfl⟩
      | none =>
          simp only
          split
          · exact ⟨_, rfl, rfl⟩
          · split
            · exact ⟨_, rfl, rfl⟩
            · next readOn =>
                cases written : (call.answers number).pwrite with
                | some bytes => exact ⟨_, rfl, rfl⟩
                | none =>
                    simp only
                    split
                    · exact ⟨_, rfl, rfl⟩
                    · next writtenOn =>
                        exact absurd ⟨Bool.eq_false_iff.mpr ready, Bool.eq_false_iff.mpr readOn,
                          Bool.eq_false_iff.mpr writtenOn, read, written⟩ incomplete

/-- A window that is copied: its bytes are in the buffer and in the target. -/
theorem Planned.copyWindow_complete (planned : Planned call target number state)
    (complete : Complete (call.answers number)) :
    copyWindow call number state =
      .ok { state with
        window := memcpy state.window 0 (state.read call)
        target := call.source.take (state.offset.toNat + state.tocopy.toNat) ++
          target.drop (state.offset.toNat + state.tocopy.toNat)
        offset := state.offset + state.tocopy
        remains := state.remains - state.tocopy } := by
  have fits := planned.tocopy_le
  obtain ⟨inside, long⟩ := planned.read_length
  have room : ¬ (state.window.length : Int) < state.tocopy := Int.not_lt.mpr fits.2.1
  have whole : ¬ state.tocopy ≠ ((state.read call).length : Int) := by
    rw [long]
    omega
  have written : (memcpy state.window 0 (state.read call)).take state.tocopy.toNat =
      state.read call := by
    rw [memcpy, List.take_zero, List.nil_append]
    exact List.take_left' long
  have copied : pwrite state.target state.offset.toNat (state.read call) =
      call.source.take (state.offset.toNat + state.tocopy.toNat) ++
        target.drop (state.offset.toNat + state.tocopy.toNat) := by
    rw [planned.copied]
    exact pwrite_copied inside
  simp only [State.read] at whole written copied ⊢
  unfold copyWindow
  simp only [complete.quittingBefore, complete.quittingRead, complete.quittingWritten,
    complete.pread, complete.pwrite, if_neg room, if_neg whole, Bool.false_eq_true, if_false,
    written, copied, CopyCursor.copied]

/-- Nothing sets the maximal rate to 0 between the test and the division. -/
def Answers.LetsThrough (meets : Answers) : Prop :=
  meets.max_rate ≠ 0 -> meets.max_rate_divisor ≠ 0

def Call.LetsThrough (call : Call) : Prop :=
  forall turn, (call.answers turn).LetsThrough

/-- The throttle divides by a rate that is not zero. -/
theorem penalty_ok {meets : Answers} (letsThrough : meets.LetsThrough)
    (adjusted_rate window_size copy_interval : Int) :
    Exists fun pause => penalty meets adjusted_rate window_size copy_interval = .ok pause := by
  unfold penalty divide
  split
  · next throttles =>
      rw [if_neg (letsThrough throttles.1)]
      exact ⟨_, rfl⟩
  · exact ⟨_, rfl⟩

/-- No time has gone by. -/
theorem adapt_traps {copied : Int} (still : call.clock (2 * number + 2) = state.last) :
    adapt call number copied state = .error .divisionByZero := by
  have zero : TIME_DIFF (call.clock (2 * number + 2)) state.last = 0 := by
    rw [still, timeDiff_eq]
    exact Int.sub_self _
  simp only [adapt, divide, zero, if_true]
  rfl

/-- The window of the next turn. -/
def Call.nextSize (call : Call) (number : Nat) (state : State) : Int :=
  nextWindow ((state.offset * 1000).tdiv
    (TIME_DIFF (call.clock (2 * number + 2)) (call.clock 0))) state.window_size

/-- Time has gone by, and the buffer cannot grow. -/
theorem adapt_fails {copied : Int} (letsThrough : (call.answers number).LetsThrough)
    (interval : TIME_DIFF (call.clock (2 * number + 2)) state.last ≠ 0)
    (global_interval : TIME_DIFF (call.clock (2 * number + 2)) (call.clock 0) ≠ 0)
    (grows : state.window_size_alloced < call.nextSize number state)
    (fails : (call.answers number).realloc = none) :
    Exists fun next => adapt call number copied state = .ok next ∧
      next.result = some (- Journal.EIO) := by
  obtain ⟨pause, paused⟩ := penalty_ok letsThrough
    (((state.offset * 1000).tdiv (TIME_DIFF (call.clock (2 * number + 2)) (call.clock 0)) +
      (copied * 1000).tdiv (TIME_DIFF (call.clock (2 * number + 2)) state.last)).tdiv 2)
    state.window_size
    (TIME_DIFF (call.clock (2 * number + 2)) (call.clock (2 * number + 1)))
  simp only [Call.nextSize] at grows
  simp only [adapt, divide, if_neg interval, if_neg global_interval, bind, Except.bind, paused,
    if_pos grows, fails]
  exact ⟨_, rfl, rfl⟩

/-- Time has gone by, and the buffer has grown if it had to. -/
theorem adapt_goesOn {copied : Int} (letsThrough : (call.answers number).LetsThrough)
    (interval : TIME_DIFF (call.clock (2 * number + 2)) state.last ≠ 0)
    (global_interval : TIME_DIFF (call.clock (2 * number + 2)) (call.clock 0) ≠ 0)
    (allocates : state.window_size_alloced < call.nextSize number state ->
      (call.answers number).realloc ≠ none)
    (window : (state.window.length : Int) = state.window_size_alloced) :
    Exists fun next => adapt call number copied state = .ok next ∧
      next.offset = state.offset ∧ next.remains = state.remains ∧
      next.window_size = call.nextSize number state ∧
      next.window_size_alloced = max state.window_size_alloced (call.nextSize number state) ∧
      (next.window.length : Int) = next.window_size_alloced ∧
      next.last = call.clock (2 * number + 2) ∧ next.target = state.target ∧
      next.transfered_size = state.offset ∧ next.result = state.result := by
  obtain ⟨pause, paused⟩ := penalty_ok letsThrough
    (((state.offset * 1000).tdiv (TIME_DIFF (call.clock (2 * number + 2)) (call.clock 0)) +
      (copied * 1000).tdiv (TIME_DIFF (call.clock (2 * number + 2)) state.last)).tdiv 2)
    state.window_size
    (TIME_DIFF (call.clock (2 * number + 2)) (call.clock (2 * number + 1)))
  simp only [Call.nextSize] at allocates ⊢
  by_cases grows : state.window_size_alloced <
      nextWindow ((state.offset * 1000).tdiv
        (TIME_DIFF (call.clock (2 * number + 2)) (call.clock 0))) state.window_size
  · obtain ⟨held, granted⟩ := Option.ne_none_iff_exists'.mp (allocates grows)
    simp only [adapt, divide, if_neg interval, if_neg global_interval, bind, Except.bind, paused,
      if_pos grows, granted]
    refine ⟨_, rfl, rfl, rfl, rfl, (max_eq_right grows.le).symm, ?_, rfl, rfl, rfl, rfl⟩
    simp only [grow_length]
    omega
  · simp only [adapt, divide, if_neg interval, if_neg global_interval, bind, Except.bind, paused,
      if_neg grows]
    exact ⟨_, rfl, rfl, rfl, rfl, (max_eq_left (Int.not_lt.mp grows)).symm, window, rfl, rfl, rfl,
      rfl⟩

theorem Call.window_succ_offset (call : Call) (number : Nat) :
    (call.window (number + 1)).offset = (call.window number).offset + (call.window number).size :=
  rfl

/-- What is copied by a full window and by the last one. -/
theorem Planned.tocopy_eq (planned : Planned call target number state) :
    state.offset + state.tocopy = min (call.window (number + 1)).offset call.size := by
  rw [call.window_succ_offset, CopyCursor.tocopy, Transfer.tocopy, planned.remains, planned.window_size, planned.offset]
  split <;> omega

theorem Planned.turn_incomplete (planned : Planned call target number state)
    (incomplete : ¬ Complete (call.answers number)) :
    Exists fun next => turn call number state = .ok (none, next) ∧
      next.result = some (- Journal.EIO) := by
  obtain ⟨next, copied, result⟩ := planned.copyWindow_incomplete incomplete
  refine ⟨next, ?_, result⟩
  simp only [turn, copied, bind, Except.bind, result]
  rfl

/-- The last turn copies the rest. -/
theorem Planned.turn_last (planned : Planned call target number state)
    (complete : Complete (call.answers number))
    (last : call.size ≤ (call.window (number + 1)).offset) :
    Exists fun next => turn call number state = .ok (none, next) ∧ next.result = some 0 ∧
      next.target = call.source.take call.size.toNat ++ target.drop call.size.toNat := by
  have all : state.offset + state.tocopy = call.size :=
    planned.tocopy_eq.trans (min_eq_right last)
  have nothing : state.remains - state.tocopy = 0 := by
    rw [planned.remains]
    omega
  have whole : state.offset.toNat + state.tocopy.toNat = call.size.toNat := by
    have nonneg := planned.offset_nonneg
    have fits := planned.tocopy_le
    omega
  have copied := planned.copyWindow_complete complete
  rw [whole] at copied
  simp only [turn, copied, bind, Except.bind, planned.result, nothing]
  exact ⟨_, rfl, rfl, rfl⟩

section More

variable (planned : Planned call target number state) (complete : Complete (call.answers number))
  (more : (call.window (number + 1)).offset < call.size)
include planned complete more

/-- A turn that is not the last copies a full window and then looks at the clock. -/
theorem Planned.turn_more : Exists fun copied : State =>
    turn call number state = (do
      let adapted ← adapt call number state.tocopy copied
      return (if adapted.result = none then some (number + 1) else none, adapted)) ∧
    copied.offset = (call.window (number + 1)).offset ∧
    copied.remains = call.size - copied.offset ∧
    copied.window_size = state.window_size ∧
    copied.window_size_alloced = state.window_size_alloced ∧
    copied.window.length = state.window.length ∧ copied.last = state.last ∧
    copied.target = call.source.take copied.offset.toNat ++ target.drop copied.offset.toNat ∧
    copied.result = none := by
  have all : state.offset + state.tocopy = (call.window (number + 1)).offset :=
    planned.tocopy_eq.trans (min_eq_left more.le)
  have rest : ¬ state.remains - state.tocopy = 0 := by
    rw [planned.remains]
    omega
  have nonneg := planned.offset_nonneg
  have fits := planned.tocopy_le
  have whole : state.offset.toNat + state.tocopy.toNat =
      (state.offset + state.tocopy).toNat := by
    omega
  have copied := planned.copyWindow_complete complete
  rw [whole] at copied
  refine ⟨{ state with
      window := memcpy state.window 0 (state.read call)
      target := call.source.take (state.offset + state.tocopy).toNat ++
        target.drop (state.offset + state.tocopy).toNat
      offset := state.offset + state.tocopy
      remains := state.remains - state.tocopy },
    ?_, all, ?_, rfl, rfl, ?_, rfl, rfl, planned.result⟩
  · simp only [turn, copied, bind, Except.bind, planned.result, rest, if_false, ne_eq,
      not_true_eq_false]
  · change state.remains - state.tocopy = call.size - (state.offset + state.tocopy)
    rw [planned.remains]
    omega
  · apply memcpy_length
    rw [planned.read_length.2]
    omega

theorem Planned.turn_traps (still : call.clock (2 * number + 2) = call.clock (2 * number)) :
    turn call number state = .error .divisionByZero := by
  obtain ⟨copied, taken, -, -, -, -, -, last, -⟩ := planned.turn_more complete more
  rw [taken, adapt_traps (by rw [still, last, planned.last])]
  rfl

section Time

variable (letsThrough : (call.answers number).LetsThrough)
  (interval : TIME_DIFF (call.clock (2 * number + 2)) (call.clock (2 * number)) ≠ 0)
  (global_interval : TIME_DIFF (call.clock (2 * number + 2)) (call.clock 0) ≠ 0)
include letsThrough interval global_interval

theorem Planned.turn_fails
    (grows : (call.window number).alloced < (call.window (number + 1)).size)
    (fails : (call.answers number).realloc = none) :
    Exists fun next => turn call number state = .ok (none, next) ∧
      next.result = some (- Journal.EIO) := by
  obtain ⟨copied, taken, offset, -, size, alloced, -, last, -⟩ := planned.turn_more complete more
  have sized : call.nextSize number copied = (call.window (number + 1)).size := by
    rw [Call.nextSize, offset, size, planned.window_size]
    rfl
  obtain ⟨next, adapted, result⟩ := @adapt_fails call number copied state.tocopy letsThrough
    (by rw [last, planned.last]; exact interval) global_interval
    (by rw [sized, alloced, planned.window_size_alloced]; exact grows) fails
  refine ⟨next, ?_, result⟩
  simp only [taken, adapted, bind, Except.bind, result]
  rfl

theorem Planned.turn_goesOn
    (allocates : (call.window number).alloced < (call.window (number + 1)).size ->
      (call.answers number).realloc ≠ none) :
    Exists fun next => turn call number state = .ok (some (number + 1), next) ∧
      Planned call target (number + 1) next := by
  obtain ⟨copied, taken, offset, remains, size, alloced, window, last, target, open'⟩ :=
    planned.turn_more complete more
  have sized : call.nextSize number copied = (call.window (number + 1)).size := by
    rw [Call.nextSize, offset, size, planned.window_size]
    rfl
  obtain ⟨next, adapted, sameOffset, sameRemains, nextSize, nextAlloced, nextWindow, nextLast,
    sameTarget, -, result⟩ := @adapt_goesOn call number copied state.tocopy letsThrough
    (by rw [last, planned.last]; exact interval) global_interval
    (by rw [sized, alloced, planned.window_size_alloced]; exact allocates)
    (by rw [window, alloced]; exact planned.window)
  refine ⟨next, ?_, ?_⟩
  · simp only [taken, adapted, bind, Except.bind, result, open']
    rfl
  · exact {
      offset := sameOffset.trans offset
      within := by rw [sameOffset, offset]; exact more.le
      remains := by rw [sameRemains, remains, sameOffset]
      window_size := nextSize.trans sized
      window_size_alloced := by rw [nextAlloced, alloced, planned.window_size_alloced, sized]; rfl
      window := nextWindow
      last := nextLast
      copied := by rw [sameTarget, target, sameOffset]
      result := result.trans open' }

end Time

end More

end Turn

/-! ## The loop -/

/-- A turn of the loop is entered. -/
def Reached (call : Call) (target : List Byte) : Nat × State -> Prop :=
  Reachable (fun entered => entered = (0, call.start target)) fun entered next =>
    turn call entered.1 entered.2 = .ok (some next.1, next.2)

variable {call : Call} {target : List Byte}

/-- Where the clock has moved since the last turn, it has since the first one. -/
theorem NeverBack.intervals (neverBack : NeverBack call.clock) {number : Nat}
    (moved : call.clock (2 * number + 2) ≠ call.clock (2 * number)) :
    TIME_DIFF (call.clock (2 * number + 2)) (call.clock (2 * number)) ≠ 0 ∧
      TIME_DIFF (call.clock (2 * number + 2)) (call.clock 0) ≠ 0 := by
  have first := neverBack.micros_le (Nat.zero_le (2 * number))
  have second := neverBack.micros_le (Nat.le_add_right (2 * number) 2)
  have apart := mt Timeval.eq_iff.mpr moved
  rw [timeDiff_eq, timeDiff_eq]
  omega

/-- Whatever a turn meets, it ends the loop, goes on as planned or traps. -/
theorem Planned.turn_next {number other : Nat} {state next : State}
    (planned : Planned call target number state) (neverBack : NeverBack call.clock)
    (letsThrough : call.LetsThrough)
    (taken : turn call number state = .ok (some other, next)) :
    other = number + 1 ∧ Planned call target other next := by
  by_cases complete : Complete (call.answers number)
  · by_cases more : (call.window (number + 1)).offset < call.size
    · by_cases still : call.clock (2 * number + 2) = call.clock (2 * number)
      · rw [planned.turn_traps complete more still] at taken
        cases taken
      · obtain ⟨interval, global_interval⟩ := neverBack.intervals still
        by_cases fails : (call.window number).alloced < (call.window (number + 1)).size ∧
            (call.answers number).realloc = none
        · obtain ⟨left, result, -⟩ := planned.turn_fails complete more (letsThrough number)
            interval global_interval fails.1 fails.2
          rw [result] at taken
          cases taken
        · obtain ⟨there, result, goesOn⟩ := planned.turn_goesOn complete more
            (letsThrough number) interval global_interval fun grows none => fails ⟨grows, none⟩
          rw [result] at taken
          cases taken
          exact ⟨rfl, goesOn⟩
    · obtain ⟨left, result, -⟩ := planned.turn_last complete (Int.not_lt.mp more)
      rw [result] at taken
      cases taken
  · obtain ⟨left, result, -⟩ := planned.turn_incomplete complete
    rw [result] at taken
    cases taken

theorem Reached.planned {number : Nat} {state : State} (neverBack : NeverBack call.clock)
    (letsThrough : call.LetsThrough) (reached : Reached call target (number, state)) : Planned call target number state := by
  let invariant (entered : Nat × State) : Prop := Planned call target entered.1 entered.2
  suffices all : forall entered, Reached call target entered -> invariant entered from
    all _ reached
  intro entered reached
  refine Reachable.ofInvariant ?_ ?_ reached
  · rintro _ rfl
    exact call.planned_start target
  · intro entered next planned taken
    exact (planned.turn_next neverBack letsThrough taken).2

/-- The descriptors are there. -/
structure Call.Opens (call : Call) : Prop where
  source_fd : call.source_fd = true
  target_fd : call.target_fd = true
  fstat : call.fstat = true

theorem Call.Opens.transferFile (opens : call.Opens) (fuel : Nat) :
    transferFile call target fuel = iterate .fuel (turn call) fuel 0 (call.start target) := by
  unfold CopyLoop.transferFile
  rw [opens.source_fd, opens.target_fd, opens.fstat]
  rfl

/-- Allocation succeeds, reads and writes are complete, and nothing is quitting. -/
structure Call.Succeeds (call : Call) : Prop extends call.Opens where
  complete : forall turn, Complete (call.answers turn)
  realloc : forall turn, (call.answers turn).realloc ≠ none

/-- A clock that always goes on never goes back. -/
theorem NeverBack.ofIncreasing {clock : Nat -> Timeval} (increasing : forall reading,
    (clock reading).Before (clock (reading + 1))) : NeverBack clock := by
  intro reading back
  have forth := Timeval.before_iff.mp (increasing reading)
  have back := Timeval.before_iff.mp back
  omega

/-- From every planned state the loop gets to its last turn. -/
theorem Planned.ends {number : Nat} {state : State} (planned : Planned call target number state)
    (succeeds : call.Succeeds) (letsThrough : call.LetsThrough) (increasing : forall reading,
      (call.clock reading).Before (call.clock (reading + 1))) :
    Exists fun last => Exists fun entered => Exists fun final =>
      Leads .fuel (turn call) number state last entered ∧
      turn call last entered = .ok (none, final) ∧ final.result = some 0 ∧
      final.target = call.source.take call.size.toNat ++ target.drop call.size.toNat := by
  have neverBack := NeverBack.ofIncreasing increasing
  -- Every turn but the last copies at least 4096 bytes.
  obtain ⟨left, amount⟩ : Exists fun left => (call.size - state.offset).toNat ≤ left :=
    ⟨_, Nat.le_refl _⟩
  induction left generalizing number state with
  | zero =>
      have positive := (call.window_bounds number).1
      have last : call.size ≤ (call.window (number + 1)).offset := by
        rw [call.window_succ_offset, ← planned.offset]
        simp only [windowSizeMin] at positive
        omega
      obtain ⟨final, taken, result, copied⟩ :=
        planned.turn_last (succeeds.complete number) last
      exact ⟨number, state, final, .refl, taken, result, copied⟩
  | succ left inductionHypothesis =>
      by_cases more : (call.window (number + 1)).offset < call.size
      · have moved : call.clock (2 * number + 2) ≠ call.clock (2 * number) := by
          intro still
          have first := Timeval.before_iff.mp (increasing (2 * number))
          have second : (call.clock (2 * number + 1)).micros <
              (call.clock (2 * number + 2)).micros :=
            Timeval.before_iff.mp (increasing (2 * number + 1))
          have same := Timeval.eq_iff.mp still
          omega
        obtain ⟨interval, global_interval⟩ := neverBack.intervals moved
        obtain ⟨next, taken, goesOn⟩ := planned.turn_goesOn (succeeds.complete number) more
          (letsThrough number) interval global_interval fun _ => succeeds.realloc number
        have positive := (call.window_bounds number).1
        have offset := goesOn.offset
        rw [call.window_succ_offset, ← planned.offset] at offset
        obtain ⟨last, entered, final, leads, rest⟩ := inductionHypothesis goesOn
          (by simp only [windowSizeMin] at positive; omega)
        exact ⟨last, entered, final, (Leads.step taken).trans leads, rest⟩
      · obtain ⟨final, taken, result, copied⟩ :=
          planned.turn_last (succeeds.complete number) (Int.not_lt.mp more)
        exact ⟨number, state, final, .refl, taken, result, copied⟩

/-- The size that is copied. -/
theorem Call.size_toNat (call : Call) :
    call.size.toNat = min call.total_size call.source.length := by
  unfold Call.size
  split
  · split <;> omega
  · next same =>
      have equal : call.source.length = call.total_size := not_not.mp same
      omega

/-- With a clock that moves at every reading and everything else in order, a copy returns 0 and
has copied the file, and in every turn the window is between its bounds and in its buffer. -/
theorem transferFile_copies (call : Call) (target : List Byte) (succeeds : call.Succeeds)
    (letsThrough : call.LetsThrough)
    (increasing : forall reading, (call.clock reading).Before (call.clock (reading + 1))) :
    (Exists fun final => Returns (transferFile call target) final ∧ final.result = some 0 ∧
      final.target = call.source.take (min call.total_size call.source.length) ++
        target.drop (min call.total_size call.source.length)) ∧
    forall number state, Reached call target (number, state) ->
      4096 ≤ state.window_size ∧ state.window_size ≤ 131072 ∧
        state.window_size ≤ state.window_size_alloced ∧
        (state.window.length : Int) = state.window_size_alloced ∧
        0 ≤ state.tocopy ∧ state.tocopy ≤ state.window_size_alloced := by
  have neverBack := NeverBack.ofIncreasing increasing
  constructor
  · obtain ⟨last, entered, final, leads, taken, result, copied⟩ :=
      (call.planned_start target).ends succeeds letsThrough increasing
    rw [call.size_toNat] at copied
    refine ⟨final, ?_, result, copied⟩
    have same : transferFile call target =
        fun fuel => iterate .fuel (turn call) fuel 0 (call.start target) :=
      funext succeeds.toOpens.transferFile
    rw [same]
    exact leads.returns taken
  · intro number state reached
    have planned := reached.planned neverBack letsThrough
    have bounds := call.window_bounds number
    have alloced := call.window_alloced number
    have tocopy := planned.tocopy_le
    rw [← planned.window_size] at bounds alloced
    rw [← planned.window_size_alloced] at alloced
    rw [planned.window] at tocopy
    exact ⟨bounds.1, bounds.2, alloced, planned.window, tocopy.1, tocopy.2.1⟩

/-- A turn in which everything goes through. -/
def Answers.through : Answers where
  quittingBefore := false
  quittingRead := false
  quittingWritten := false
  pread := none
  pwrite := none
  max_rate := 100000
  max_rate_compared := 100000
  max_rate_divisor := 100000
  realloc := some fun _ => 0

/-- A copy of so many bytes in which everything goes through. -/
def Call.through (size : Nat) (clock : Nat -> Timeval) : Call where
  source_fd := true
  target_fd := true
  fstat := true
  total_size := size
  source := List.replicate size 7
  malloc := fun _ => 0
  clock := clock
  answers := fun _ => .through

theorem Call.through_succeeds (size : Nat) (clock : Nat -> Timeval) :
    (Call.through size clock).Succeeds where
  source_fd := rfl
  target_fd := rfl
  fstat := rfl
  complete := fun _ => ⟨rfl, rfl, rfl, rfl, rfl⟩
  realloc := fun _ => Option.some_ne_none _

theorem Call.through_letsThrough (size : Nat) (clock : Nat -> Timeval) :
    (Call.through size clock).LetsThrough :=
  fun _ zero => zero

theorem Call.through_size (size : Nat) (clock : Nat -> Timeval) :
    (Call.through size clock).size = size := by
  have same : (Call.through size clock).source.length = (Call.through size clock).total_size :=
    List.length_replicate
  exact if_neg (not_not.mpr same)

/-- A clock that is read once a second. -/
def seconds (reading : Nat) : Timeval :=
  ⟨reading, 0, by decide⟩

theorem seconds_before (reading : Nat) : (seconds reading).Before (seconds (reading + 1)) :=
  Or.inl (by simp only [seconds]; omega)

/-- Three windows into a file that was longer. -/
theorem transferFile_copies_seconds : Exists fun final =>
    Returns (transferFile (.through 10000 seconds) (List.replicate 20000 1)) final ∧
      final.target = List.replicate 10000 7 ++ List.replicate 10000 1 := by
  obtain ⟨⟨final, returns, -, copied⟩, -⟩ := transferFile_copies (.through 10000 seconds)
    (List.replicate 20000 1) (Call.through_succeeds 10000 seconds)
    (Call.through_letsThrough 10000 seconds) seconds_before
  refine ⟨final, returns, copied.trans ?_⟩
  simp only [Call.through, List.length_replicate, Nat.min_self, List.take_replicate,
    List.drop_replicate]

/-! ## The divisions -/

/-- The loop gets past the reads and writes of a turn with full windows. -/
def Call.Undisturbed (call : Call) (number : Nat) : Prop :=
  (forall before, before ≤ number -> Complete (call.answers before)) ∧
    forall before, before < number ->
      (call.window before).alloced < (call.window (before + 1)).size ->
        (call.answers before).realloc ≠ none

/-- In every turn with a full window that is not the last, the clock has moved since the turn
before. -/
def Call.TakesTime (call : Call) : Prop :=
  call.Opens -> forall number, call.Undisturbed number ->
    (call.window (number + 1)).offset < call.size ->
      call.clock (2 * number + 2) ≠ call.clock (2 * number)

theorem Call.window_offset_le (call : Call) {one two : Nat} (later : one ≤ two) :
    (call.window one).offset ≤ (call.window two).offset := by
  induction two, later using Nat.le_induction with
  | base => exact Int.le_refl _
  | succ two _ inductionHypothesis =>
      have positive := (call.window_bounds two).1
      rw [call.window_succ_offset]
      simp only [windowSizeMin] at positive
      omega

theorem Planned.iterate_takesTime {number : Nat} {state : State}
    (planned : Planned call target number state) (neverBack : NeverBack call.clock)
    (letsThrough : call.LetsThrough) (opens : call.Opens) (takesTime : call.TakesTime)
    (undisturbed : forall before, before < number -> Complete (call.answers before) ∧
      ((call.window before).alloced < (call.window (before + 1)).size ->
        (call.answers before).realloc ≠ none)) (fuel : Nat) :
    iterate .fuel (turn call) fuel number state ≠ .error .divisionByZero := by
  induction fuel generalizing number state with
  | zero => simp [iterate]
  | succ fuel inductionHypothesis =>
      by_cases complete : Complete (call.answers number)
      · by_cases more : (call.window (number + 1)).offset < call.size
        · have sofar : call.Undisturbed number := by
            refine ⟨fun before le => ?_, fun before less => (undisturbed before less).2⟩
            rcases Nat.lt_or_eq_of_le le with less | rfl
            · exact (undisturbed before less).1
            · exact complete
          obtain ⟨interval, global_interval⟩ :=
            neverBack.intervals (takesTime opens number sofar more)
          by_cases fails : (call.window number).alloced < (call.window (number + 1)).size ∧
              (call.answers number).realloc = none
          · obtain ⟨left, taken, -⟩ := planned.turn_fails complete more (letsThrough number)
              interval global_interval fails.1 fails.2
            rw [iterate, taken]
            simp [bind, Except.bind]
          · obtain ⟨next, taken, goesOn⟩ := planned.turn_goesOn complete more
              (letsThrough number) interval global_interval fun grows none => fails ⟨grows, none⟩
            have rest := inductionHypothesis goesOn fun before less => by
              rcases Nat.lt_or_eq_of_le (Nat.le_of_lt_succ less) with earlier | rfl
              · exact undisturbed before earlier
              · exact ⟨complete, fun grows none => fails ⟨grows, none⟩⟩
            rw [iterate, taken]
            exact rest
        · obtain ⟨left, taken, -⟩ := planned.turn_last complete (Int.not_lt.mp more)
          rw [iterate, taken]
          simp [bind, Except.bind]
      · obtain ⟨left, taken, -⟩ := planned.turn_incomplete complete
        rw [iterate, taken]
        simp [bind, Except.bind]

/-- The loop gets to an undisturbed turn if time has gone by in all before it. -/
theorem leads_undisturbed (neverBack : NeverBack call.clock) (letsThrough : call.LetsThrough)
    {number : Nat}
    (undisturbed : call.Undisturbed number)
    (more : (call.window (number + 1)).offset < call.size)
    (moved : forall before, before < number ->
      call.clock (2 * before + 2) ≠ call.clock (2 * before)) :
    forall before, before ≤ number -> Exists fun state =>
      Leads .fuel (turn call) 0 (call.start target) before state ∧
        Planned call target before state := by
  intro before
  induction before with
  | zero => exact fun _ => ⟨_, .refl, call.planned_start target⟩
  | succ before inductionHypothesis =>
      intro less
      obtain ⟨state, leads, planned⟩ := inductionHypothesis (Nat.le_of_succ_le less)
      obtain ⟨interval, global_interval⟩ := neverBack.intervals (moved before less)
      have full : (call.window (before + 1)).offset < call.size :=
        (call.window_offset_le (Nat.le_succ_of_le less)).trans_lt more
      obtain ⟨next, taken, goesOn⟩ := planned.turn_goesOn
        (undisturbed.1 before (Nat.le_of_succ_le less)) full (letsThrough before) interval
        global_interval (undisturbed.2 before less)
      exact ⟨next, leads.trans (.step taken), goesOn⟩

/-- With a clock that never goes back, a copy never divides by zero exactly when the clock moves
from one turn to the next, as long as full windows are copied and more remains. -/
theorem transferFile_divides_iff (call : Call) (target : List Byte)
    (neverBack : NeverBack call.clock) (letsThrough : call.LetsThrough) :
    (forall fuel, transferFile call target fuel ≠ .error .divisionByZero) ↔ call.TakesTime := by
  classical
  constructor
  · intro never opens
    by_contra still
    push Not at still
    -- The first turn in which the clock has not moved is reached.
    obtain ⟨undisturbed, more, same⟩ := Nat.find_spec still
    have moved : forall before, before < Nat.find still ->
        call.clock (2 * before + 2) ≠ call.clock (2 * before) := by
      intro before less stuck
      refine Nat.find_min still less ⟨⟨?_, ?_⟩, ?_, stuck⟩
      · exact fun other le => undisturbed.1 other (le.trans less.le)
      · exact fun other earlier => undisturbed.2 other (earlier.trans less)
      · exact (call.window_offset_le (Nat.succ_le_succ less.le)).trans_lt more
    obtain ⟨state, ⟨turns, leads⟩, planned⟩ := @leads_undisturbed call target neverBack letsThrough _
      undisturbed more moved (Nat.find still) (Nat.le_refl _)
    have trapped := planned.turn_traps (undisturbed.1 _ (Nat.le_refl _)) more same
    refine never (1 + turns) ?_
    rw [opens.transferFile, leads, iterate, trapped]
    rfl
  · intro takesTime fuel
    by_cases opens : call.Opens
    · rw [opens.transferFile]
      exact (call.planned_start target).iterate_takesTime neverBack letsThrough opens takesTime
        (fun before less => absurd less (Nat.not_lt_zero before)) fuel
    · unfold transferFile
      split
      · simp
      · next source =>
          split
          · simp
          · next target =>
              split
              · simp
              · next stat =>
                  exact absurd ⟨Bool.eq_true_of_not_eq_false source,
                    Bool.eq_true_of_not_eq_false target, Bool.eq_true_of_not_eq_false stat⟩ opens

/-- A clock that moves never leads to a trap. -/
theorem transferFile_divides_seconds : NeverBack (Call.through 10000 seconds).clock ∧
    forall fuel, transferFile (.through 10000 seconds) [] fuel ≠ .error .divisionByZero := by
  have neverBack : NeverBack (Call.through 10000 seconds).clock := by
    rintro reading (less | ⟨-, less⟩)
    · simp only [Call.through, seconds] at less
      omega
    · exact absurd less (lt_irrefl 0)
  refine ⟨neverBack, (transferFile_divides_iff (.through 10000 seconds) [] neverBack
    (Call.through_letsThrough 10000 seconds)).mpr ?_⟩
  intro _ number _ _ same
  have sec := congrArg Timeval.tv_sec same
  simp only [Call.through, seconds] at sec
  omega

/-- Two windows within one microsecond. -/
theorem transferFile_traps : ¬ forall (call : Call) (target : List Byte),
    NeverBack call.clock -> call.LetsThrough -> forall fuel,
      transferFile call target fuel ≠ .error .divisionByZero := by
  intro never
  have still : NeverBack (Call.through 4097 fun _ => seconds 0).clock := by
    rintro reading (less | ⟨-, less⟩)
    · exact absurd less (lt_irrefl 0)
    · exact absurd less (lt_irrefl 0)
  have succeeds := Call.through_succeeds 4097 fun _ => seconds 0
  have more : ((Call.through 4097 fun _ => seconds 0).window 1).offset <
      (Call.through 4097 fun _ => seconds 0).size := by
    rw [Call.through_size]
    decide
  have trapped := (Call.planned_start _ []).turn_traps (succeeds.complete 0) more rfl
  refine never _ [] still (Call.through_letsThrough 4097 fun _ => seconds 0) 1 ?_
  rw [succeeds.toOpens.transferFile, iterate, trapped]
  rfl

end CopyLoop
end Mcachefs
