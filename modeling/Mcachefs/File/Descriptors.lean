import Mcachefs.Library.Runs
import Mathlib.Data.List.Basic

namespace Mcachefs
namespace Descriptors

open Library

/-!
# The descriptor of one source of an open file

An open file has two sources, the file in the cache and the file on the source
file system, and each keeps at most one descriptor open with a count of its
uses.  Readers, writers and transfers take the descriptor with
`mcachefs_file_getfd` and give it back with `mcachefs_file_putfd`; a cleanup
closes it when nobody uses it, and so does the end of a transfer.  Everything
that happens under the lock of the open file is one step, so that a list of
events is one interleaving of any number of threads.

A descriptor is known here by the number of the `open` that made it, because
the numbers that `open` returns are used again.
-/

/-- Who asks for the descriptor. -/
inductive User
  /-- `mcachefs_read_file`. -/
  | read
  /-- `mcachefs_write_file`. -/
  | write
  /-- `mcachefs_transfer_file`, to read. -/
  | transferFrom
  /-- `mcachefs_transfer_file`, to write. -/
  | transferTo
  deriving DecidableEq, Repr

/-- `__IS_WRITE(flags)` of the flags that are asked for. -/
def User.asked_wr : User -> Bool
  | .read | .transferFrom => false
  | .write | .transferTo => true

/-- The result of `open`, should a call come to it. -/
inductive Opening
  | opened
  | failed (errno : Nat)
  deriving DecidableEq, Repr

/-- `struct mcachefs_file_source_t` and the threads that are about to use it. -/
structure SourceState where
  use : Nat
  /-- The descriptor, `none` for `-1`. -/
  fd : Option Nat
  wr : Bool
  /-- The number of calls of `open` that succeeded. -/
  opens : Nat
  /-- Between a successful `mcachefs_file_getfd` and its `mcachefs_file_putfd`. -/
  holders : List (User × Nat)
  /-- In the loop of `mcachefs_file_may_reuse_source`. -/
  waiting : List User
  /-- Writers that did not get a descriptor and go on to `mcachefs_file_putfd`. -/
  strays : Nat
  /-- Transfers that have given their descriptors back and have yet to close. -/
  closing : Nat
  deriving DecidableEq, Repr

inductive Event
  /-- `refused` is the error of a check before `mcachefs_file_do_open`. -/
  | getfd (user : User) (refused : Option Nat) (opening : Opening)
  /-- A waiting thread looks at the count again. -/
  | retry (index : Nat) (opening : Opening)
  /-- A holder gives its descriptor back; `closes` if it is a transfer that
  ends with success. -/
  | putfd (index : Nat) (closes : Bool)
  | strayPutfd
  | endOfTransfer
  | cleanup
  deriving DecidableEq, Repr

namespace SourceState

/-- `mcachefs_file_source_init`. -/
def init : SourceState := ⟨0, none, false, 0, [], [], 0, 0⟩

/-- `mcachefs_file_getfd` returns `-err`.  A reader and a transfer test for a
negative value; `mcachefs_write_file` compares with `-1`. -/
def refuse (user : User) (err : Nat) (state : SourceState) : SourceState :=
  if user = .write ∧ err ≠ 1 then { state with strays := state.strays + 1 } else state

/-- The part of `mcachefs_file_do_open` after `mcachefs_file_may_reuse_source`
has returned 0. -/
def openSource (user : User) (opening : Opening) (state : SourceState) : SourceState :=
  match opening with
  | .opened =>
      { state with
        use := state.use + 1
        fd := some state.opens
        wr := user.asked_wr
        opens := state.opens + 1
        holders := (user, state.opens) :: state.holders }
  | .failed errno => refuse user errno { state with fd := none }

/-- `mcachefs_file_do_open`, up to the loop that waits for the other users. -/
def doOpen (user : User) (opening : Opening) (state : SourceState) : SourceState :=
  match state.fd with
  | none => openSource user opening state
  | some fd =>
      if user.asked_wr ≤ state.wr then
        { state with use := state.use + 1, holders := (user, fd) :: state.holders }
      else if state.use ≠ 0 then { state with waiting := user :: state.waiting }
      else openSource user opening { state with fd := none }

/-- `mcachefs_file_getfd`. -/
def getfd (user : User) (refused : Option Nat) (opening : Opening) (state : SourceState) :
    SourceState :=
  match refused with
  | some err => refuse user err state
  | none => doOpen user opening state

/-- `mcachefs_file_source_putfd`. -/
def sourcePutfd (state : SourceState) : SourceState :=
  if state.use = 0 then state else { state with use := state.use - 1 }

/-- `mcachefs_file_cleanup_file_source`, and the end of
`mcachefs_transfer_file`. -/
def closeUnused (state : SourceState) : SourceState :=
  if state.use = 0 then { state with fd := none } else state

def step (state : SourceState) (event : Event) : SourceState :=
  match event with
  | .getfd user refused opening => getfd user refused opening state
  | .retry index opening =>
      match state.waiting[index]? with
      | none => state
      | some user =>
          if state.use ≠ 0 then state
          else
            openSource user opening
              { state with fd := none, waiting := state.waiting.eraseIdx index }
  | .putfd index closes =>
      match state.holders[index]? with
      | none => state
      | some (user, _) =>
          let closes := closes ∧ (user = .transferFrom ∨ user = .transferTo)
          { sourcePutfd state with
            holders := state.holders.eraseIdx index
            closing := if closes then state.closing + 1 else state.closing }
  | .strayPutfd =>
      if state.strays = 0 then state
      else sourcePutfd { state with strays := state.strays - 1 }
  | .endOfTransfer =>
      if state.closing = 0 then state
      else closeUnused { state with closing := state.closing - 1 }
  | .cleanup => closeUnused state

/-- The count is that of the holders, and each of them has the descriptor that
is open now: it has not been closed since. -/
structure Balanced (state : SourceState) : Prop where
  use : state.use = state.holders.length
  open_ : forall holder, holder ∈ state.holders -> state.fd = some holder.2

/-- A writer that has no descriptor gives it back only while nobody has one. -/
def StrayIsHarmless (state : SourceState) : Event -> Prop
  | .strayPutfd => state.strays ≠ 0 -> state.use = 0
  | _ => True

/-! ## One step -/

section Steps

variable {state : SourceState}

theorem init_balanced : init.Balanced where
  use := rfl
  open_ := fun _ member => absurd member List.not_mem_nil

/-- Without a use there is no holder. -/
theorem Balanced.holders_nil (balanced : state.Balanced) (unused : state.use = 0) :
    state.holders = [] :=
  List.length_eq_zero_iff.mp (balanced.use.symm.trans unused)

/-- Without a descriptor there is no use. -/
theorem Balanced.use_zero (balanced : state.Balanced) (closed : state.fd = none) :
    state.use = 0 := by
  cases holders : state.holders with
  | nil => rw [balanced.use, holders, List.length_nil]
  | cons holder others =>
      have inside := balanced.open_ holder (holders ▸ List.mem_cons_self)
      rw [closed] at inside
      cases inside

/-- Two states with the same count, descriptor and holders. -/
theorem Balanced.congr {other : SourceState} (balanced : state.Balanced)
    (use : other.use = state.use) (fd : other.fd = state.fd)
    (holders : other.holders = state.holders) : other.Balanced where
  use := by rw [use, holders, balanced.use]
  open_ := by
    rw [fd, holders]
    exact balanced.open_

theorem Balanced.refuse (balanced : state.Balanced) (user : User) (err : Nat) :
    (refuse user err state).Balanced := by
  unfold SourceState.refuse
  split
  · exact balanced.congr rfl rfl rfl
  · exact balanced

/-- A descriptor may go away while nobody uses it. -/
theorem Balanced.close (balanced : state.Balanced) (unused : state.use = 0) :
    ({ state with fd := none } : SourceState).Balanced where
  use := balanced.use
  open_ := by
    rw [balanced.holders_nil unused]
    exact fun _ member => absurd member List.not_mem_nil

theorem Balanced.closeUnused (balanced : state.Balanced) : (closeUnused state).Balanced := by
  unfold SourceState.closeUnused
  split
  · next unused => exact balanced.close unused
  · exact balanced

theorem Balanced.openSource (balanced : state.Balanced) (unused : state.use = 0) (user : User)
    (opening : Opening) : (openSource user opening state).Balanced := by
  have nobody := balanced.holders_nil unused
  cases opening with
  | opened =>
      constructor
      · simp only [SourceState.openSource, unused, nobody, List.length_cons, List.length_nil]
      · intro holder member
        simp only [SourceState.openSource, nobody, List.mem_singleton] at member ⊢
        rw [member]
  | failed errno => exact (balanced.close unused).refuse user errno

theorem Balanced.doOpen (balanced : state.Balanced) (user : User) (opening : Opening) :
    (doOpen user opening state).Balanced := by
  unfold SourceState.doOpen
  cases open_ : state.fd with
  | none => exact balanced.openSource (balanced.use_zero open_) user opening
  | some fd =>
      simp only
      split
      · constructor
        · simp only [balanced.use, List.length_cons]
        · intro holder member
          rcases List.mem_cons.mp member with rfl | member
          · rfl
          · exact open_.symm.trans (balanced.open_ holder member)
      · split
        · exact balanced.congr rfl open_.symm rfl
        · next unused =>
            have unused : state.use = 0 := not_not.mp unused
            exact (balanced.close unused).openSource unused user opening

/-- A holder that leaves takes its use along. -/
theorem Balanced.putfd (balanced : state.Balanced) {index : Nat} {holder : User × Nat}
    (held : state.holders[index]? = some holder) (closing : Nat) :
    ({ sourcePutfd state with
      holders := state.holders.eraseIdx index, closing := closing } : SourceState).Balanced := by
  obtain ⟨inside, -⟩ := List.getElem?_eq_some_iff.mp held
  have used : state.use ≠ 0 := by
    rw [balanced.use]
    exact Nat.ne_zero_of_lt inside
  unfold sourcePutfd
  rw [if_neg used]
  constructor
  · simp only [balanced.use, List.length_eraseIdx_of_lt inside]
  · exact fun other member => balanced.open_ other (List.mem_of_mem_eraseIdx member)

/-- Every step but a stray `mcachefs_file_putfd` keeps the balance, and so does
that one while nobody uses the descriptor. -/
theorem Balanced.step (balanced : state.Balanced) {event : Event}
    (harmless : state.StrayIsHarmless event) : (state.step event).Balanced := by
  cases event with
  | getfd user refused opening =>
      cases refused with
      | some err => exact balanced.refuse user err
      | none => exact balanced.doOpen user opening
  | retry index opening =>
      simp only [SourceState.step]
      split
      · exact balanced
      · split
        · exact balanced
        · next unused =>
            have unused : state.use = 0 := not_not.mp unused
            have closed : ({ state with
                fd := none, waiting := state.waiting.eraseIdx index } : SourceState).Balanced :=
              (balanced.close unused).congr rfl rfl rfl
            exact closed.openSource unused _ opening
  | putfd index closes =>
      simp only [SourceState.step]
      split
      · exact balanced
      · next held => exact balanced.putfd held _
  | strayPutfd =>
      simp only [SourceState.step]
      split
      · exact balanced
      · next some =>
          have unused : state.use = 0 := harmless some
          simp only [sourcePutfd, unused, if_true]
          exact balanced.congr unused.symm rfl rfl
  | endOfTransfer =>
      simp only [SourceState.step]
      split
      · exact balanced
      · have given : ({ state with closing := state.closing - 1 } : SourceState).Balanced :=
          balanced.congr rfl rfl rfl
        exact given.closeUnused
  | cleanup => exact balanced.closeUnused

/-- A stray `mcachefs_file_putfd` takes the use of somebody else. -/
theorem Balanced.stray (balanced : state.Balanced) {event : Event}
    (harmful : ¬ state.StrayIsHarmless event) : ¬ (state.step event).Balanced := by
  cases event with
  | strayPutfd =>
      simp only [StrayIsHarmless, Classical.not_imp] at harmful
      obtain ⟨some, used⟩ := harmful
      intro after
      have use := after.use
      simp only [SourceState.step, if_neg some, sourcePutfd, if_neg used] at use
      have before := balanced.use
      omega
  | _ => exact absurd trivial harmful

end Steps

/-- Every interleaving keeps the count of uses exact and closes no descriptor
that somebody holds, exactly when no writer without a descriptor gives one back
while somebody else has it. -/
theorem descriptors_balanced_iff (events : List Event) :
    Throughout (fun state event => (.ok (step state event) : Except Empty SourceState)) Balanced
        (fun _ => False) init events ↔
      EachStep (fun state event => (.ok (step state event) : Except Empty SourceState))
        StrayIsHarmless init events := by
  refine throughout_iff_eachStep (fun _ (balanced : Balanced _) => balanced) ?_ ?_ ?_
    events init_balanced
  · rintro state event next balanced harmless result
    cases result
    exact balanced.step harmless
  · rintro state event fault - - result
    cases result
  · intro state event balanced harmful
    exact ⟨_, rfl, balanced.stray harmful⟩

/-- A write finds no descriptor free (`EMFILE`) and a read gets one before the
write comes to its `mcachefs_file_putfd`: the count of the reader is lost, and
the next cleanup closes the descriptor it reads from. -/
theorem stray_putfd_closes_held :
    ¬ Throughout (fun state event => (.ok (step state event) : Except Empty SourceState)) Balanced
      (fun _ => False) init
      [.getfd .write none (.failed 24), .getfd .read none .opened, .strayPutfd, .cleanup] := by
  intro throughout
  exact absurd throughout.2.2.2.1.use (by decide)

end SourceState

end Descriptors
end Mcachefs
