import Mcachefs.Transfer.Backing
import Mcachefs.Transfer.Windows

namespace Mcachefs
namespace CachedLength

open Library
open Backing (Inode)
open Transfer (nextWindow tocopy tocopy_le windowSizeMin)

/-!
# The length of the cached copy

This module follows the size in the metadata and the cache file of one regular
file through truncations, writes and the backup of the file.  The source file
keeps its length, since no journal is applied meanwhile.

A truncation sets the size first and gets to the cache file later; a write
gets to the cache file first and sets the size later; and a backup takes the
size at its start, cuts it down to the length of the source file, and copies up
to there.  The macro `__MCACHEFS_TRANSFER_DO_FTRUNCATE_TARGET` is not defined,
so that a copy never cuts the cache file.  The kernel passes no negative size.
-/

/-- How far the backup of the file is. -/
inductive CopyStage
  /-- There is none. -/
  | idle
  | queued
  | taken
  /-- `mcachefs_transfer_do_transfer` has the size. -/
  | sampled (total_size : Nat)
  /-- `mcachefs_transfer_do_backing` has found no cache file. -/
  | checked (total_size : Nat)
  | created (total_size : Nat)
  /-- The loop of `mcachefs_transfer_file`. -/
  | copying (target : Inode) (size offset window_size : Nat)
  /-- The status is `MCACHEFS_FILE_BACKING_ERROR`; the cache file is still there. -/
  | failed
  deriving DecidableEq, Repr

inductive WriteStage
  /-- It waits for the backup. -/
  | waiting
  | opened (inode : Inode)
  /-- All bytes are in the cache file, and the size is not updated. -/
  | landed
  deriving DecidableEq, Repr

/-- A call of `mcachefs_write_file` on its way. -/
structure WriteCall where
  size : Nat
  offset : Nat
  stage : WriteStage
  deriving DecidableEq, Repr

structure LengthState where
  /-- The length of the source file. -/
  source : Nat
  /-- The size in the metadata. -/
  st_size : Nat
  cache_status : CacheStatus
  /-- The cache file at the path of the file. -/
  cache : Option Inode
  length : Inode -> Nat
  /-- The number of inodes so far. -/
  inodes : Nat
  /-- The inode on which `sources[MCACHEFS_FILE_SOURCE_BACKING].fd` is open. -/
  backing : Option Inode
  stage : CopyStage
  /-- The sizes of the truncations that have yet to look for the cache file. -/
  truncates : List Nat
  writes : List WriteCall

inductive LengthEvent
  /-- `mcachefs_truncate` up to its journal entry. -/
  | truncate (size : Nat)
  /-- The rest of it: `truncate(2)` of a cache file may fail. -/
  | truncateCache (index : Nat) (fails : Bool)
  | write (size offset : Nat)
  /-- `mcachefs_write_file` looks at the status, and gets its descriptor. -/
  | writeOpen (index : Nat)
  /-- `pwrite`, and the number of bytes it writes. -/
  | writeOut (index written : Nat)
  /-- `mcachefs_file_update_metadata`. -/
  | writeUpdate (index : Nat)
  /-- `mcachefs_open_mfile`; it caches unless it is for reading in the state `NOCACHE`. -/
  | openMfile (caches : Bool)
  /-- A thread takes the request. -/
  | take
  /-- The transfer ends before it has a cache file. -/
  | abandon
  | sample
  | check
  | create
  /-- `mcachefs_file_getfd` for the target, and `fstat` of the source. -/
  | openTarget
  /-- One turn of the copy loop, and the global rate it has measured. -/
  | copyWindow (global_rate : Int)
  | finish
  | fail
  /-- The unlink after a copy that failed. -/
  | unlinkFailed
  deriving DecidableEq, Repr

/-- `pwrite` of so many bytes at an offset. -/
def pwrite (length : Inode -> Nat) (inode : Inode) (offset bytes : Nat) : Inode -> Nat :=
  if bytes = 0 then length
  else Function.update length inode (max (length inode) (offset + bytes))

/-- The end of the bytes that a write has put into the cache file while the
metadata does not count them. -/
def WriteCall.reach (call : WriteCall) : Nat :=
  match call.stage with
  | .landed => call.offset + call.size
  | _ => 0

/-- The furthest of these ends. -/
def reached : List WriteCall -> Nat
  | [] => 0
  | call :: calls => max call.reach (reached calls)

namespace LengthState

/-- A file that is not open; its cached copy, if there is one, has the size of
the metadata, and otherwise the source file has. -/
def start (source : Nat) (cached : Option Nat) : LengthState where
  source := source
  st_size := cached.getD source
  cache_status := .none
  cache := cached.map fun _ => 0
  length := fun _ => cached.getD 0
  inodes := 1
  backing := none
  stage := .idle
  truncates := []
  writes := []

/-- The rest of `mcachefs_truncate`. -/
def truncateCache (index size : Nat) (fails : Bool) (state : LengthState) : LengthState :=
  { state with
    truncates := state.truncates.eraseIdx index
    length :=
      match state.cache with
      | none => state.length
      | some inode =>
          if fails then state.length else Function.update state.length inode size }

/-- `mcachefs_write` turns writes of no bytes away. -/
def write (size offset : Nat) (state : LengthState) : LengthState :=
  if size = 0 then state
  else { state with writes := state.writes ++ [⟨size, offset, .waiting⟩] }

/-- `mcachefs_file_do_open` for the cached copy, for writing. -/
def doOpen (state : LengthState) : Option Inode :=
  match state.backing with
  | some inode => some inode
  | none => state.cache

/-- `mcachefs_write_file` up to its descriptor.  It waits while the status is neither
`MCACHEFS_FILE_BACKING_DONE` nor `MCACHEFS_FILE_BACKING_ERROR`. -/
def writeOpen (index : Nat) (call : WriteCall) (state : LengthState) : LengthState :=
  match state.cache_status with
  | .done =>
      match state.doOpen with
      | none => { state with writes := state.writes.eraseIdx index }
      | some inode =>
          { state with
            backing := some inode
            writes := state.writes.set index { call with stage := .opened inode } }
  | .error => { state with writes := state.writes.eraseIdx index }
  | _ => state

def writeOut (index written : Nat) (call : WriteCall) (inode : Inode) (state : LengthState) :
    LengthState :=
  let bytes := min written call.size
  { state with
    length := pwrite state.length inode call.offset bytes
    writes :=
      if bytes = call.size then state.writes.set index { call with stage := .landed }
      else state.writes.eraseIdx index }

/-- `mcachefs_file_update_metadata`. -/
def writeUpdate (index : Nat) (call : WriteCall) (state : LengthState) : LengthState :=
  { state with
    st_size :=
      if state.st_size < call.offset + call.size then call.offset + call.size else state.st_size
    writes := state.writes.eraseIdx index }

/-- `mcachefs_transfer_backfile`. -/
def backfile (state : LengthState) : LengthState :=
  if state.cache_status = .asked ∨ state.cache_status = .inProgress ∨
      state.cache_status = .done then state
  else if state.cache.isSome then { state with cache_status := .done }
  else { state with cache_status := .asked, stage := .queued }

/-- `mcachefs_open_mfile`. -/
def openMfile (caches : Bool) (state : LengthState) : LengthState :=
  if caches then state.backfile
  else if state.cache_status = .none ∧ state.cache.isSome then
    { state with cache_status := .done }
  else state

/-- `mcachefs_createfile_cache`. -/
def create (total_size : Nat) (state : LengthState) : LengthState :=
  match state.cache with
  | some inode =>
      { state with
        length := Function.update state.length inode 0
        stage := .created total_size }
  | none =>
      { state with
        cache := some state.inodes
        length := Function.update state.length state.inodes 0
        inodes := state.inodes + 1
        stage := .created total_size }

def failed (state : LengthState) : LengthState :=
  { state with cache_status := .error, stage := .failed }

/-- The start of `mcachefs_transfer_file`: the size is cut down to that of the source file. -/
def openTarget (total_size : Nat) (state : LengthState) : LengthState :=
  match state.doOpen with
  | none => state.failed
  | some inode =>
      { state with
        backing := some inode
        stage := .copying inode (min total_size state.source) 0 windowSizeMin.toNat }

/-- A turn of the loop.  Once nothing remains the loop is left, and a window is empty. -/
def copyWindow (global_rate : Int) (target : Inode) (size offset window_size : Nat)
    (state : LengthState) : LengthState :=
  let tocopy := (tocopy (size - offset : Nat) window_size).toNat
  { state with
    length := pwrite state.length target offset tocopy
    stage := .copying target size (offset + tocopy) (nextWindow global_rate window_size).toNat }

def step (state : LengthState) : LengthEvent -> LengthState
  | .truncate size => { state with st_size := size, truncates := state.truncates ++ [size] }
  | .truncateCache index fails =>
      match state.truncates[index]? with
      | none => state
      | some size => state.truncateCache index size fails
  | .write size offset => state.write size offset
  | .writeOpen index =>
      match state.writes[index]? with
      | some ⟨size, offset, .waiting⟩ => state.writeOpen index ⟨size, offset, .waiting⟩
      | _ => state
  | .writeOut index written =>
      match state.writes[index]? with
      | some ⟨size, offset, .opened inode⟩ =>
          state.writeOut index written ⟨size, offset, .opened inode⟩ inode
      | _ => state
  | .writeUpdate index =>
      match state.writes[index]? with
      | some ⟨size, offset, .landed⟩ => state.writeUpdate index ⟨size, offset, .landed⟩
      | _ => state
  | .openMfile caches => state.openMfile caches
  | .take =>
      match state.stage with
      | .queued =>
          { state with
            cache_status := if state.cache_status = .asked then .inProgress else state.cache_status
            stage := .taken }
      | _ => state
  | .abandon =>
      match state.stage with
      | .taken | .sampled _ | .checked _ => { state with stage := .idle }
      | _ => state
  | .sample =>
      match state.stage with
      | .taken => { state with stage := .sampled state.st_size }
      | _ => state
  | .check =>
      match state.stage with
      | .sampled total_size =>
          { state with stage := if state.cache.isSome then .idle else .checked total_size }
      | _ => state
  | .create =>
      match state.stage with
      | .checked total_size => state.create total_size
      | _ => state
  | .openTarget =>
      match state.stage with
      | .created total_size => state.openTarget total_size
      | _ => state
  | .copyWindow global_rate =>
      match state.stage with
      | .copying target size offset window_size =>
          state.copyWindow global_rate target size offset window_size
      | _ => state
  | .finish =>
      match state.stage with
      | .copying _ size offset _ =>
          if offset = size then { state with cache_status := .done, stage := .idle } else state
      | _ => state
  | .fail =>
      match state.stage with
      | .created _ | .copying .. => state.failed
      | _ => state
  | .unlinkFailed =>
      match state.stage with
      | .failed => { state with cache := none, stage := .idle }
      | _ => state

/-- No write and no truncation is under way, and the backup is complete. -/
def Quiet (state : LengthState) : Prop :=
  state.writes = [] ∧ state.truncates = [] ∧ state.stage = .idle ∧ state.cache_status = .done

/-- Whenever nothing is under way, the cache file has the length that the
metadata says. -/
def AgreesWhenQuiet (state : LengthState) : Prop :=
  state.Quiet -> state.cache.map state.length = some state.st_size

/-- The size to come: that of the metadata once the writes under way that have
put their bytes into the cache file have updated it. -/
def wanted (state : LengthState) : Nat :=
  max state.st_size (reached state.writes)

/-- A cache file of this length is brought to no other length by the backup. -/
def Settles (state : LengthState) (length : Nat) : Prop :=
  match state.stage with
  | .created total_size => min total_size state.source ≤ length
  | .copying _ size offset _ => offset < size -> size ≤ length
  | _ => True

/-- The length after the truncation of a cache file. -/
def truncated (state : LengthState) (inode : Inode) (size : Nat) (fails : Bool) : Nat :=
  if fails then state.length inode else size

/-- What a step has to meet for the cache file to get the size of the metadata. -/
def KeepsLength (state : LengthState) : LengthEvent -> Prop
  | .truncateCache index fails => forall size, state.truncates[index]? = some size ->
      state.truncates.eraseIdx index = [] ->
        match state.cache with
        | none => forall total_size, state.stage = .sampled total_size ∨
            state.stage = .checked total_size -> min total_size state.source = state.st_size
        | some inode => state.stage ≠ .failed ->
            state.truncated inode size fails = state.wanted ∧
              state.Settles (state.truncated inode size fails)
  | .writeOut index written => state.truncates = [] -> forall size offset inode,
      state.writes[index]? = some ⟨size, offset, .opened inode⟩ -> 0 < written ->
      written < size -> offset + written ≤ state.length inode
  | .openMfile caches => caches = true -> state.stage ≠ .failed
  | .sample => state.stage = .taken -> state.truncates = [] -> state.st_size ≤ state.source
  | .openTarget => forall total_size inode, state.stage = .created total_size ->
      state.backing = some inode -> state.cache = some inode
  | _ => True

end LengthState

/-! ## The steps -/

open LengthState

/-- Where the backup is, what the status says, and what is in the cache. -/
inductive Placed : CacheStatus -> CopyStage -> Option Inode -> Option Inode -> Prop
  | untouched {cache : Option Inode} : Placed .none .idle cache none
  | asked {backing : Option Inode} : Placed .asked .queued none backing
  | taken {backing : Option Inode} : Placed .inProgress .taken none backing
  | sampled {backing : Option Inode} {total_size : Nat} :
      Placed .inProgress (.sampled total_size) none backing
  | checked {backing : Option Inode} {total_size : Nat} :
      Placed .inProgress (.checked total_size) none backing
  | abandoned {backing : Option Inode} : Placed .inProgress .idle none backing
  | created {backing : Option Inode} {inode : Inode} {total_size : Nat} :
      Placed .inProgress (.created total_size) (some inode) backing
  | copying {inode : Inode} {size offset window_size : Nat} :
      Placed .inProgress (.copying inode size offset window_size) (some inode) (some inode)
  | done {backing : Option Inode} {inode : Inode}
      (same : forall other, backing = some other -> other = inode) :
      Placed .done .idle (some inode) backing
  | failing {cache backing : Option Inode} : Placed .error .failed cache backing
  | failed {backing : Option Inode} : Placed .error .idle none backing

/-- The cache file has or gets the length that is wanted. -/
def Arrives (state : LengthState) : Prop :=
  match state.stage with
  | .idle => forall inode, state.cache = some inode -> state.length inode = state.wanted
  | .sampled total_size | .checked total_size => min total_size state.source = state.wanted
  | .created total_size => forall inode, state.cache = some inode ->
      max (state.length inode) (min total_size state.source) = state.wanted
  | .copying target size offset _ =>
      (if offset < size then max (state.length target) size else state.length target) =
        state.wanted
  | .queued | .taken | .failed => True

/-- A write has bytes, and they go to the cache file of a finished backup. -/
def WriteCall.Follows (state : LengthState) (call : WriteCall) : Prop :=
  0 < call.size ∧
    match call.stage with
    | .waiting => True
    | .opened inode => state.cache_status = .done ∧ state.cache = some inode
    | .landed => state.cache_status = .done

structure Sound (state : LengthState) : Prop where
  placed : Placed state.cache_status state.stage state.cache state.backing
  follows : forall call, call ∈ state.writes -> call.Follows state
  arrives : state.truncates = [] -> Arrives state

section Steps

variable {state : LengthState}

theorem reached_append (calls more : List WriteCall) :
    reached (calls ++ more) = max (reached calls) (reached more) := by
  induction calls with
  | nil => exact (Nat.zero_max _).symm
  | cons call calls inductionHypothesis =>
      simp only [List.cons_append, reached, inductionHypothesis, Nat.max_assoc]

/-- What a call on its way contributes to the furthest end, and what another in
its place would. -/
theorem reached_around {calls : List WriteCall} {index : Nat} {call : WriteCall}
    (found : calls[index]? = some call) :
    Exists fun others => reached calls = max call.reach others ∧
      reached (calls.eraseIdx index) = others ∧
      forall other, reached (calls.set index other) = max other.reach others := by
  obtain ⟨before, after, rfl, without, put⟩ := exists_around found
  refine ⟨max (reached before) (reached after), ?_, ?_, fun other => ?_⟩
  · simp only [reached_append, reached, Nat.max_left_comm]
  · rw [without, reached_append]
  · simp only [put, reached_append, reached, Nat.max_left_comm]

theorem pwrite_length (length : Inode -> Nat) (inode : Inode) (offset bytes : Nat) :
    pwrite length inode offset bytes inode =
      if bytes = 0 then length inode else max (length inode) (offset + bytes) := by
  unfold pwrite
  split
  · rfl
  · exact Function.update_self _ _ _

/-- A window that ends within the copy leaves alone what the copy comes to. -/
theorem window_settles (length : Inode -> Nat) (inode : Inode) {size offset tocopy : Nat}
    (within : tocopy ≤ size - offset) :
    (if offset + tocopy < size then max (pwrite length inode offset tocopy inode) size
      else pwrite length inode offset tocopy inode) =
      if offset < size then max (length inode) size else length inode := by
  rw [pwrite_length]
  split <;> split <;> split <;> omega

/-- The truncation of the cache file gives it the length that the condition speaks of. -/
theorem truncated_length {inode : Inode} (cached : state.cache = some inode)
    (index size : Nat) (fails : Bool) :
    (state.truncateCache index size fails).length inode = state.truncated inode size fails := by
  unfold LengthState.truncateCache LengthState.truncated
  simp only [cached]
  split
  · rfl
  · exact Function.update_self _ _ _

theorem reached_zero {calls : List WriteCall} (none : forall call, call ∈ calls -> call.reach = 0) :
    reached calls = 0 := by
  induction calls with
  | nil => rfl
  | cons call calls inductionHypothesis =>
      have here := none call List.mem_cons_self
      have later := inductionHypothesis fun other inside => none other (List.mem_cons_of_mem _ inside)
      simp only [reached, here, later, Nat.max_self]

theorem Arrives.congr (arrives : Arrives state) {next : LengthState}
    (stage : next.stage = state.stage) (cache : next.cache = state.cache)
    (length : next.length = state.length) (source : next.source = state.source)
    (wanted : next.wanted = state.wanted) : Arrives next := by
  unfold Arrives
  rw [stage, cache, length, source, wanted]
  exact arrives

namespace Sound

/-- Before the backup is complete, no write has put bytes into the cache file. -/
theorem wanted_undone (sound : Sound state) (undone : state.cache_status ≠ .done) :
    state.wanted = state.st_size := by
  have none : reached state.writes = 0 := by
    refine reached_zero fun call inside => ?_
    have follows := sound.follows call inside
    unfold WriteCall.Follows at follows
    unfold WriteCall.reach
    split
    · next landed =>
        rw [landed] at follows
        exact absurd follows.2 undone
    · rfl
  rw [LengthState.wanted, none, Nat.max_zero]

/-- A descriptor for writing leads to the cache file once the backup is complete. -/
theorem doOpen_done (sound : Sound state) (done : state.cache_status = .done) :
    Exists fun inode => state.stage = .idle ∧ state.cache = some inode ∧
      state.doOpen = some inode := by
  have placed := sound.placed
  rw [done] at placed
  generalize stage : state.stage = at_stage at placed
  generalize cache : state.cache = at_cache at placed
  generalize backing : state.backing = at_backing at placed
  cases placed with
  | done same =>
      refine ⟨_, rfl, rfl, ?_⟩
      unfold LengthState.doOpen
      rw [backing, cache]
      cases at_backing with
      | none => rfl
      | some other => exact congrArg some (same other rfl)

/-- A step that changes neither the status nor the cache keeps the writes on their way. -/
theorem follows_same (sound : Sound state) {next : LengthState}
    (status : next.cache_status = state.cache_status) (cache : next.cache = state.cache)
    {call : WriteCall} (inside : call ∈ state.writes) : call.Follows next := by
  have follows := sound.follows call inside
  unfold WriteCall.Follows at follows ⊢
  rw [status, cache]
  exact follows

/-- As long as a backup is not complete, all writes wait. -/
theorem follows_undone (sound : Sound state) (undone : state.cache_status ≠ .done)
    (next : LengthState) {call : WriteCall} (inside : call ∈ state.writes) :
    call.Follows next := by
  obtain ⟨bytes, follows⟩ := sound.follows call inside
  refine ⟨bytes, ?_⟩
  cases stage : call.stage with
  | waiting => trivial
  | opened inode =>
      rw [stage] at follows
      exact absurd follows.1 undone
  | landed =>
      rw [stage] at follows
      exact absurd follows undone

/-- The truncation of the cache file. -/
theorem truncateCache (sound : Sound state) {index size : Nat} {fails : Bool}
    (found : state.truncates[index]? = some size)
    (keeps : state.KeepsLength (.truncateCache index fails)) :
    Sound (state.truncateCache index size fails) := by
  refine ⟨sound.placed, fun call => sound.follows_same rfl rfl, fun alone => ?_⟩
  have last := keeps size found alone
  have undone : state.cache_status ≠ .done -> state.wanted = state.st_size := sound.wanted_undone
  have placed := sound.placed
  obtain ⟨source, st_size, cache_status, cache, length, inodes, backing, stage, truncates, writes⟩ :=
    state
  cases placed with
  | untouched =>
      intro inode cached
      obtain rfl : cache = some inode := cached
      exact (truncated_length rfl ..).trans (last (nomatch ·)).1
  | done =>
      intro inode cached
      obtain rfl := Option.some.inj cached
      exact (truncated_length rfl ..).trans (last (nomatch ·)).1
  | sampled => exact (last _ (Or.inl rfl)).trans (undone (nomatch ·)).symm
  | checked => exact (last _ (Or.inr rfl)).trans (undone (nomatch ·)).symm
  | created =>
      intro inode cached
      obtain rfl := Option.some.inj cached
      obtain ⟨same, settles⟩ := last (nomatch ·)
      rw [truncated_length rfl]
      exact (max_eq_left settles).trans same
  | @copying inode limit offset =>
      obtain ⟨same, settles⟩ := last (nomatch ·)
      change (if offset < limit then max ((LengthState.truncateCache ..).length inode) limit
        else (LengthState.truncateCache ..).length inode) = _
      rw [truncated_length rfl]
      split
      · next going => exact (max_eq_left (settles going)).trans same
      · exact same
  | abandoned => exact fun inode impossible => nomatch impossible
  | failed => exact fun inode impossible => nomatch impossible
  | asked => trivial
  | taken => trivial
  | failing => trivial

/-- A step that only concerns the writes under way and the size in the metadata. -/
theorem updateWrites (sound : Sound state) {st_size : Nat} {calls : List WriteCall}
    (follows : forall call, call ∈ calls -> call.Follows state)
    (wanted : max st_size (reached calls) = state.wanted) :
    Sound { state with st_size := st_size, writes := calls } where
  placed := sound.placed
  follows := follows
  arrives := fun none => (sound.arrives none).congr rfl rfl rfl rfl wanted

/-- A new write waits. -/
theorem write (sound : Sound state) (size offset : Nat) : Sound (state.write size offset) := by
  unfold LengthState.write
  split
  · exact sound
  · next bytes =>
      refine sound.updateWrites (fun call inside => ?_) ?_
      · rcases List.mem_append.mp inside with inside | inside
        · exact sound.follows call inside
        · obtain rfl := List.mem_singleton.mp inside
          exact ⟨Nat.pos_of_ne_zero bytes, trivial⟩
      · rw [reached_append, reached, reached, WriteCall.reach, Nat.max_self, Nat.max_zero]
        rfl

/-- A write under way is over, or goes on with another stage. -/
theorem follows_around (sound : Sound state) {index : Nat} {call : WriteCall} :
    (call ∈ state.writes.eraseIdx index -> call.Follows state) ∧
      forall other, call ∈ state.writes.set index other -> call = other ∨ call.Follows state := by
  refine ⟨fun inside => sound.follows call (List.mem_of_mem_eraseIdx inside), fun other inside => ?_⟩
  rcases List.mem_or_eq_of_mem_set inside with inside | same
  · exact Or.inr (sound.follows call inside)
  · exact Or.inl same

/-- A write that waits gets the cache file of the finished backup. -/
theorem writeOpen (sound : Sound state) {index size offset : Nat}
    (found : state.writes[index]? = some ⟨size, offset, .waiting⟩) :
    Sound (state.writeOpen index ⟨size, offset, .waiting⟩) := by
  obtain ⟨bytes, -⟩ := sound.follows _ (List.mem_of_getElem? found)
  obtain ⟨others, now, without, put⟩ := reached_around found
  have nothing : reached state.writes = others := now.trans (Nat.zero_max _)
  unfold LengthState.writeOpen
  split
  · next done =>
      obtain ⟨inode, idle, cached, opened⟩ := sound.doOpen_done done
      rw [opened]
      refine ⟨?_, fun call inside => ?_, fun none => ?_⟩
      · simp only [done, idle, cached]
        exact .done fun other same => (Option.some.inj same).symm
      · rcases sound.follows_around.2 _ inside with rfl | follows
        · exact ⟨bytes, done, cached⟩
        · exact follows
      · refine (sound.arrives none).congr rfl rfl rfl rfl ?_
        refine congrArg (max state.st_size) ?_
        exact (put _).trans ((Nat.zero_max _).trans nothing.symm)
  · exact sound.updateWrites (fun _ inside => sound.follows_around.1 inside)
      (congrArg (max state.st_size) (without.trans nothing.symm))
  · exact sound

/-- The bytes of a write get into the cache file, and all of them are counted. -/
theorem writeOut (sound : Sound state) {index written size offset : Nat} {inode : Inode}
    (found : state.writes[index]? = some ⟨size, offset, .opened inode⟩)
    (keeps : state.KeepsLength (.writeOut index written)) :
    Sound (state.writeOut index written ⟨size, offset, .opened inode⟩ inode) := by
  obtain ⟨bytes, done, cached⟩ := sound.follows _ (List.mem_of_getElem? found)
  obtain ⟨-, idle, -⟩ := sound.doOpen_done done
  obtain ⟨others, now, without, put⟩ := reached_around found
  refine ⟨sound.placed, fun call inside => ?_, fun none => ?_⟩
  · simp only [LengthState.writeOut] at inside
    split at inside
    · rcases sound.follows_around.2 _ inside with rfl | follows
      · exact ⟨bytes, done⟩
      · exact follows
    · exact sound.follows_around.1 inside
  · have before : state.length inode = max state.st_size (max 0 others) := by
      have arrived := sound.arrives none
      simp only [Arrives, idle] at arrived
      rw [arrived inode cached, LengthState.wanted, now]
      rfl
    have within := keeps none size offset inode found
    have length := pwrite_length state.length inode offset (min written size)
    simp only [Arrives, LengthState.writeOut, idle]
    intro other same
    obtain rfl : inode = other := Option.some.inj (cached.symm.trans same)
    rw [length]
    change _ = max state.st_size (reached (if min written size = size then _ else _))
    by_cases all : min written size = size
    · have landed : reached (state.writes.set index ⟨size, offset, .landed⟩) =
          max (offset + size) others := put _
      have some_bytes : 0 < size := bytes
      rw [if_pos all, if_neg (by omega), landed, all, before]
      omega
    · rw [if_neg all, without, before]
      split
      · omega
      · have short := within (by omega) (by omega)
        omega

/-- The size in the metadata takes over what the write has reached. -/
theorem writeUpdate (sound : Sound state) {index size offset : Nat}
    (found : state.writes[index]? = some ⟨size, offset, .landed⟩) :
    Sound (state.writeUpdate index ⟨size, offset, .landed⟩) := by
  obtain ⟨others, now, without, -⟩ := reached_around found
  refine sound.updateWrites (fun _ inside => sound.follows_around.1 inside) ?_
  rw [LengthState.wanted, now, without, WriteCall.reach]
  simp only
  split <;> omega

/-- Opening the file finds the cache file of a finished backup, or asks for a backup. -/
theorem openMfile (sound : Sound state) {caches : Bool}
    (keeps : state.KeepsLength (.openMfile caches)) : Sound (state.openMfile caches) := by
  have placed := sound.placed
  have waiting : state.cache_status ≠ .done -> forall next call, call ∈ state.writes ->
      call.Follows next := fun undone next call => sound.follows_undone undone next
  obtain ⟨source, st_size, cache_status, cache, length, inodes, backing, stage, truncates, writes⟩ :=
    state
  cases placed with
  | untouched =>
      cases cache with
      | none =>
          cases caches with
          | false => exact sound
          | true => exact ⟨.asked, waiting (nomatch ·) _, fun _ => trivial⟩
      | some inode =>
          cases caches <;>
            exact ⟨.done (fun _ impossible => nomatch impossible), waiting (nomatch ·) _,
              sound.arrives⟩
  | failed =>
      cases caches with
      | false => exact sound
      | true => exact ⟨.asked, waiting (nomatch ·) _, fun _ => trivial⟩
  | failing =>
      cases caches with
      | false => exact sound
      | true => exact absurd rfl (keeps rfl)
  | _ => cases caches <;> exact sound

/-- A thread takes the request. -/
theorem take (sound : Sound state) : Sound (state.step .take) := by
  have placed := sound.placed
  obtain ⟨source, st_size, cache_status, cache, length, inodes, backing, stage, truncates, writes⟩ :=
    state
  cases placed with
  | asked => exact ⟨.taken, fun _ => sound.follows_undone (nomatch ·) _, fun _ => trivial⟩
  | _ => exact sound

theorem abandon (sound : Sound state) : Sound (state.step .abandon) := by
  have placed := sound.placed
  obtain ⟨source, st_size, cache_status, cache, length, inodes, backing, stage, truncates, writes⟩ :=
    state
  cases placed with
  | taken | sampled | checked =>
      exact ⟨.abandoned, fun _ => sound.follows_undone (nomatch ·) _,
        fun _ inode impossible => nomatch impossible⟩
  | _ => exact sound

/-- The backup takes a size that the source file can give. -/
theorem sample (sound : Sound state) (keeps : state.KeepsLength .sample) :
    Sound (state.step .sample) := by
  have placed := sound.placed
  have undone : state.cache_status ≠ .done -> state.wanted = state.st_size := sound.wanted_undone
  obtain ⟨source, st_size, cache_status, cache, length, inodes, backing, stage, truncates, writes⟩ :=
    state
  cases placed with
  | taken =>
      refine ⟨.sampled, fun _ => sound.follows_undone (nomatch ·) _, fun none => ?_⟩
      exact (min_eq_left (keeps rfl none)).trans (undone (nomatch ·)).symm
  | _ => exact sound

theorem check (sound : Sound state) : Sound (state.step .check) := by
  have placed := sound.placed
  obtain ⟨source, st_size, cache_status, cache, length, inodes, backing, stage, truncates, writes⟩ :=
    state
  cases placed with
  | sampled => exact ⟨.checked, fun _ => sound.follows_undone (nomatch ·) _, sound.arrives⟩
  | _ => exact sound

/-- The cache file is created empty. -/
theorem create (sound : Sound state) : Sound (state.step .create) := by
  have placed := sound.placed
  obtain ⟨source, st_size, cache_status, cache, length, inodes, backing, stage, truncates, writes⟩ :=
    state
  cases placed with
  | checked =>
      refine ⟨.created, fun _ => sound.follows_undone (nomatch ·) _, fun none inode cached => ?_⟩
      obtain rfl := Option.some.inj cached
      have empty : Function.update length inodes 0 inodes = 0 := Function.update_self _ _ _
      refine (congrArg (max · _) empty).trans ?_
      exact (Nat.zero_max _).trans (sound.arrives none)
  | _ => exact sound

/-- The copy goes to the cache file that the backup has created. -/
theorem openTarget (sound : Sound state) (keeps : state.KeepsLength .openTarget) :
    Sound (state.step .openTarget) := by
  have placed := sound.placed
  obtain ⟨source, st_size, cache_status, cache, length, inodes, backing, stage, truncates, writes⟩ :=
    state
  cases placed with
  | @created backing inode total_size =>
      have opened : Sound ⟨source, st_size, .inProgress, some inode, length, inodes, some inode,
          .copying inode (min total_size source) 0 windowSizeMin.toNat, truncates, writes⟩ := by
        refine ⟨.copying, fun _ => sound.follows_undone (nomatch ·) _, fun none => ?_⟩
        have arrives := sound.arrives none inode rfl
        refine Eq.trans ?_ arrives
        simp only
        split <;> omega
      cases backing with
      | none => exact opened
      | some other =>
          obtain rfl := Option.some.inj (keeps total_size other rfl rfl)
          exact opened
  | _ => exact sound

/-- A window of the copy does not change the length that the cache file is to have. -/
theorem copyWindow (sound : Sound state) (global_rate : Int) :
    Sound (state.step (.copyWindow global_rate)) := by
  have placed := sound.placed
  obtain ⟨source, st_size, cache_status, cache, length, inodes, backing, stage, truncates, writes⟩ :=
    state
  cases placed with
  | @copying inode size offset window_size =>
      refine ⟨.copying, fun _ => sound.follows_undone (nomatch ·) _, fun none => ?_⟩
      have within : (tocopy (size - offset : Nat) window_size).toNat ≤ size - offset :=
        Int.toNat_le.mpr tocopy_le.1
      exact (window_settles length inode within).trans (sound.arrives none)
  | _ => exact sound

/-- The copy is complete once it has reached its size. -/
theorem finish (sound : Sound state) : Sound (state.step .finish) := by
  have placed := sound.placed
  obtain ⟨source, st_size, cache_status, cache, length, inodes, backing, stage, truncates, writes⟩ :=
    state
  cases placed with
  | @copying inode size offset window_size =>
      simp only [LengthState.step]
      split
      · next all =>
          refine ⟨.done fun other same => (Option.some.inj same).symm,
            fun _ => sound.follows_undone (nomatch ·) _, fun none other cached => ?_⟩
          obtain rfl := Option.some.inj cached
          have arrives := sound.arrives none
          simp only [Arrives, if_neg (Nat.not_lt.mpr all.ge)] at arrives
          exact arrives
      · exact sound
  | _ => exact sound

theorem fail (sound : Sound state) : Sound (state.step .fail) := by
  have placed := sound.placed
  obtain ⟨source, st_size, cache_status, cache, length, inodes, backing, stage, truncates, writes⟩ :=
    state
  cases placed with
  | created | copying =>
      exact ⟨.failing, fun _ => sound.follows_undone (nomatch ·) _, fun _ => trivial⟩
  | _ => exact sound

theorem unlinkFailed (sound : Sound state) : Sound (state.step .unlinkFailed) := by
  have placed := sound.placed
  obtain ⟨source, st_size, cache_status, cache, length, inodes, backing, stage, truncates, writes⟩ :=
    state
  cases placed with
  | failing =>
      exact ⟨.failed, fun _ => sound.follows_undone (nomatch ·) _,
        fun _ inode impossible => nomatch impossible⟩
  | _ => exact sound

/-- What the condition keeps. -/
theorem step (sound : Sound state) {event : LengthEvent} (keeps : state.KeepsLength event) :
    Sound (state.step event) := by
  cases event with
  | truncate size =>
      exact ⟨sound.placed, fun _ => sound.follows_same rfl rfl,
        fun none => absurd none (List.append_ne_nil_of_right_ne_nil _ (List.cons_ne_nil _ _))⟩
  | truncateCache index fails =>
      simp only [LengthState.step]
      split
      · exact sound
      · next found => exact sound.truncateCache found keeps
  | write size offset => exact sound.write size offset
  | writeOpen index =>
      simp only [LengthState.step]
      split
      · next found => exact sound.writeOpen found
      · exact sound
  | writeOut index written =>
      simp only [LengthState.step]
      split
      · next found => exact sound.writeOut found keeps
      · exact sound
  | writeUpdate index =>
      simp only [LengthState.step]
      split
      · next found => exact sound.writeUpdate found
      · exact sound
  | openMfile caches => exact sound.openMfile keeps
  | take => exact sound.take
  | abandon => exact sound.abandon
  | sample => exact sound.sample keeps
  | check => exact sound.check
  | create => exact sound.create
  | openTarget => exact sound.openTarget keeps
  | copyWindow global_rate => exact sound.copyWindow global_rate
  | finish => exact sound.finish
  | fail => exact sound.fail
  | unlinkFailed => exact sound.unlinkFailed

theorem start (source : Nat) (cached : Option Nat) : Sound (LengthState.start source cached) where
  placed := .untouched
  follows := fun call impossible => nomatch impossible
  arrives := fun _ inode found => by
    cases cached with
    | none => cases found
    | some size => exact (Nat.max_zero _).symm

/-- Once nothing is under way, the length that is wanted is the size in the metadata. -/
theorem agrees (sound : Sound state) : state.AgreesWhenQuiet := by
  rintro ⟨writes, truncates, idle, done⟩
  obtain ⟨inode, -, cached, -⟩ := sound.doOpen_done done
  have arrives := sound.arrives truncates
  simp only [Arrives, idle] at arrives
  rw [cached, Option.map_some, arrives inode cached, LengthState.wanted, writes, reached,
    Nat.max_zero]

end Sound

end Steps

/-! ## Runs -/

namespace LengthState

/-- The steps, none of which fails. -/
def taking (state : LengthState) (event : LengthEvent) : Except Empty LengthState :=
  .ok (state.step event)

/-- In every run in which the steps that matter meet the condition, the cache
file has the length of the metadata whenever nothing is under way. -/
theorem agrees_throughout (source : Nat) (cached : Option Nat) (events : List LengthEvent)
    (conditions : EachStep taking KeepsLength (start source cached) events) :
    Throughout taking AgreesWhenQuiet (fun _ => False) (start source cached) events := by
  refine Throughout.ofInvariant (fun _ sound => Sound.agrees sound) ?_ ?_
    (Sound.start source cached) conditions
  · intro state event next sound keeps taken
    obtain rfl := Except.ok.inj taken
    exact Sound.step sound keeps
  · intro state event fault
    exact fault.elim

/-- The backup of a file, and a truncation of the cached copy afterwards. -/
theorem agrees_throughout_truncated :
    Throughout taking AgreesWhenQuiet (fun _ => False) (start 3 none)
      [.openMfile true, .take, .sample, .check, .create, .openTarget, .copyWindow 0, .finish,
        .truncate 10, .truncateCache 0 false] := by
  refine agrees_throughout 3 none _ ⟨?_, trivial, ?_, trivial, trivial, ?_, trivial, trivial,
    trivial, ?_, trivial⟩
  · exact fun _ => nofun
  · exact fun _ _ => Nat.le_refl 3
  · exact fun _ _ _ impossible => nomatch impossible
  · intro size found _
    obtain rfl : 10 = size := Option.some.inj found
    exact fun _ => ⟨rfl, trivial⟩

/-- A file of 3 bytes is truncated to 10 bytes before it is opened: the backup cuts the
size down to that of the source file. -/
theorem truncated_before_backup :
    ¬ Throughout taking AgreesWhenQuiet (fun _ => False) (start 3 none)
      [.truncate 10, .truncateCache 0 false, .openMfile true, .take, .sample, .check, .create,
        .openTarget, .copyWindow 0, .finish] := by
  intro throughout
  have quiet := throughout.final rfl
  exact absurd (quiet ⟨rfl, rfl, rfl, rfl⟩) (by decide)

end LengthState

end CachedLength
end Mcachefs
