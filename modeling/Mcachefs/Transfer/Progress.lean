import Mcachefs.Transfer.Backing

namespace Mcachefs
namespace Progress

open Library Backing Transfer

/-!
# Reads during a backup

A read may use the cached copy before its backup has come to an end: the
transfer thread publishes in `transfer.transfered_size` how much it has copied,
and `mcachefs_read_wait_accessible` compares that with the end of the read.

This is one regular file with its backups and its reads.  A backup is asked
for, queued, taken and copied in separate steps, may fail at each of them, and
may then be asked for again; windows are written and published in separate
steps.  Every byte of a cache file knows which backup has written it, and a
byte that none has written reads as zero.
-/

/-- How far a backup is. -/
inductive Stage where
  /-- The status is `MCACHEFS_FILE_BACKING_ASKED`. -/
  | asked
  | queued
  | taken
  /-- `mcachefs_transfer_do_transfer` has set `transfer.total_size`. -/
  | prepared (size : Nat)
  /-- `mcachefs_transfer_do_backing` has found no cache file. -/
  | checked (size : Nat)
  /-- `mcachefs_createfile_cache` has returned. -/
  | created (size : Nat)
  /-- The next window of the copy goes to `offset`. -/
  | copying (target : Inode) (size offset : Nat)
  /-- The window before `offset` has been written. -/
  | copied (target : Inode) (size offset : Nat)
  /-- `mcachefs_transfer_file` has failed. -/
  | stopped
  /-- The status is `MCACHEFS_FILE_BACKING_ERROR`; the cache file is still there. -/
  | failed
  deriving DecidableEq, Repr

structure Backup where
  number : Nat
  stage : Stage
  deriving DecidableEq, Repr

structure ProgressState where
  file : BackedFile
  /-- `transfer.transfered_size`. -/
  transfered_size : Nat
  /-- The cache file at the path. -/
  cache : Option Inode
  /-- The number of inodes so far. -/
  inodes : Nat
  /-- The number of the backup that has written a byte last. -/
  writer : Inode -> Nat -> Option Nat
  /-- The number of backups so far; the last one is the current one. -/
  attempts : Nat
  backups : List Backup
  /-- Reads that use the cached copy and have not opened it yet. -/
  readers : Nat

/-- The steps of a backup. -/
inductive BackupStep where
  /-- `mcachefs_transfer_queue_file`. -/
  | enqueue
  /-- A transfer thread takes the file from the queue. -/
  | take
  /-- Hands up, no metadata, or `mcachefs_createfile_cache` fails. -/
  | abandon
  /-- `mcachefs_transfer_do_transfer`, with the size in the metadata. -/
  | prepare (size : Nat)
  | check
  | create
  /-- `mcachefs_transfer_file` gets its descriptors and the size of the source file. -/
  | openTarget (source_size : Nat)
  | window (window_size : Nat)
  /-- `pwrite` comes short. -/
  | shortWrite (copied : Nat)
  /-- The update of `transfered_size`, unless nothing remains. -/
  | publish
  /-- `copyerr`: a descriptor is missing, a read comes short, or mcachefs quits. -/
  | stop
  | finish
  | fail
  /-- The `unlink` after a copy that failed. -/
  | unlinkFailed (removed : Bool)
  deriving DecidableEq, Repr

inductive Event where
  /-- `mcachefs_transfer_backfile`, up to the unlock. -/
  | backfile
  /-- `mcachefs_open_mfile` in the state `MCACHEFS_STATE_NOCACHE`. -/
  | openNoCache
  | backup (index : Nat) (kind : BackupStep)
  /-- A turn of the loop of `mcachefs_read_wait_accessible`. -/
  | read (nocache : Bool) (waited size offset : Nat)
  /-- `mcachefs_file_getfd` of a read that uses the cached copy. -/
  | openBacking
  /-- `mcachefs_file_cleanup_file`, when nobody uses the descriptor. -/
  | cleanup
  /-- The last use is released, and the file is opened anew. -/
  | reopen
  deriving DecidableEq, Repr

namespace ProgressState

/-- The file is not open yet and may be in the cache. -/
def start (path : Path) (cached : Bool) : ProgressState where
  file := ⟨path, .none, none⟩
  transfered_size := 0
  cache := if cached then some 0 else none
  inodes := if cached then 1 else 0
  writer := fun _ _ => none
  attempts := 0
  backups := []
  readers := 0

def setStatus (state : ProgressState) (cache_status : CacheStatus) : ProgressState :=
  { state with file := { state.file with cache_status := cache_status } }

def setStage (state : ProgressState) (index : Nat) (backup : Backup) (stage : Stage) :
    ProgressState :=
  { state with backups := state.backups.set index { backup with stage := stage } }

/-- The backup is at its end. -/
def drop (state : ProgressState) (index : Nat) : ProgressState :=
  { state with backups := state.backups.eraseIdx index }

/-- `pwrite` of `count` bytes. -/
def pwrite (state : ProgressState) (number : Nat) (target : Inode) (offset count : Nat) :
    ProgressState :=
  { state with
    writer := fun inode byte =>
      if inode = target ∧ offset ≤ byte ∧ byte < offset + count then some number
      else state.writer inode byte }

/-- A turn of the loop of `mcachefs_read_wait_accessible`: the value of
`use_real`, or nothing if it waits. -/
def readTurn (state : ProgressState) (nocache : Bool) (waited size offset : Nat) : Option Int :=
  if state.file.cache_status = .done then some 0
  else if nocache then some 1
  else if state.file.cache_status = .none ∨ state.file.cache_status = .asked ∨
      state.file.cache_status = .error then some 1
  else if state.file.cache_status = .inProgress ∧ state.transfered_size ≥ offset + size then some 0
  else if waited = 10 then some 1
  else none

/-- `mcachefs_transfer_backfile`. -/
def backfile (state : ProgressState) : ProgressState :=
  if state.file.cache_status = .asked ∨ state.file.cache_status = .inProgress ∨
      state.file.cache_status = .done then state
  else if state.cache.isSome then state.setStatus .done
  else
    { state.setStatus .asked with
      attempts := state.attempts + 1
      backups := state.backups ++ [⟨state.attempts + 1, .asked⟩] }

/-- `mcachefs_createfile_cache`: a file that is there is truncated. -/
def create (state : ProgressState) : ProgressState :=
  match state.cache with
  | some inode =>
      { state with writer := Function.update state.writer inode fun _ => none }
  | none => { state with cache := some state.inodes, inodes := state.inodes + 1 }

/-- The target of the copy: a descriptor that is open for writing is used again. -/
def openTarget (state : ProgressState) (index : Nat) (backup : Backup) (size source_size : Nat) :
    ProgressState :=
  let file := state.file.doOpen (fun _ => state.cache) true
  let state := { state with file := file }
  match file.backing with
  | none => state.setStage index backup .stopped
  | some (target, _) =>
      state.setStage index backup (.copying target (min size source_size) 0)

/-- A step of a backup. -/
def backupStep (state : ProgressState) (index : Nat) (backup : Backup) :
    BackupStep -> ProgressState
  | .enqueue =>
      if backup.stage = .asked then
        if state.backups.any (·.stage = .queued) then state.drop index
        else state.setStage index backup .queued
      else state
  | .take =>
      if backup.stage = .queued then
        (if state.file.cache_status = .asked then state.setStatus .inProgress
          else state).setStage index backup .taken
      else state
  | .abandon =>
      match backup.stage with
      | .taken => state.drop index
      | .checked _ => state.drop index
      | _ => state
  | .prepare size =>
      if backup.stage = .taken then
        { state with transfered_size := 0 }.setStage index backup (.prepared size)
      else state
  | .check =>
      match backup.stage with
      | .prepared size =>
          if state.cache.isSome then state.drop index
          else state.setStage index backup (.checked size)
      | _ => state
  | .create =>
      match backup.stage with
      | .checked size => state.create.setStage index backup (.created size)
      | _ => state
  | .openTarget source_size =>
      match backup.stage with
      | .created size => state.openTarget index backup size source_size
      | _ => state
  | .window window_size =>
      match backup.stage with
      | .copying target size offset =>
          if window_size = 0 then state
          else
            let remains := size - offset
            let tocopy := if remains > window_size then window_size else remains
            (state.pwrite backup.number target offset tocopy).setStage index backup
              (.copied target size (offset + tocopy))
      | _ => state
  | .shortWrite copied =>
      match backup.stage with
      | .copying target size offset =>
          if copied < size - offset then
            (state.pwrite backup.number target offset copied).setStage index backup .stopped
          else state
      | _ => state
  | .publish =>
      match backup.stage with
      | .copied target size offset =>
          if offset < size then
            { state with transfered_size := offset }.setStage index backup
              (.copying target size offset)
          else state
      | _ => state
  | .stop =>
      match backup.stage with
      | .created _ => state.setStage index backup .stopped
      | .copying _ _ _ => state.setStage index backup .stopped
      | .copied _ _ _ => state.setStage index backup .stopped
      | _ => state
  | .finish =>
      match backup.stage with
      | .copied _ size offset =>
          if offset < size then state else (state.setStatus .done).drop index
      | _ => state
  | .fail =>
      if backup.stage = .stopped then
        { state.setStatus .error with transfered_size := 0 }.setStage index backup .failed
      else state
  | .unlinkFailed removed =>
      if backup.stage = .failed then
        { state with cache := if removed then none else state.cache }.drop index
      else state

def step (state : ProgressState) : Event -> ProgressState
  | .backfile => state.backfile
  | .openNoCache =>
      if state.file.cache_status = .none ∧ state.cache.isSome then state.setStatus .done
      else state
  | .backup index kind =>
      match state.backups[index]? with
      | none => state
      | some backup => state.backupStep index backup kind
  | .read nocache waited size offset =>
      if state.readTurn nocache waited size offset = some 0 then
        { state with readers := state.readers + 1 }
      else state
  | .openBacking =>
      if state.readers = 0 then state
      else
        { state with
          file := state.file.doOpen (fun _ => state.cache) false
          readers := state.readers - 1 }
  | .cleanup =>
      if state.file.cache_status = .done then
        { state with file := { state.file with backing := none } }
      else state
  | .reopen =>
      if state.backups = [] ∧ state.readers = 0 then
        { state with file := ⟨state.file.path, .none, none⟩, transfered_size := 0 }
      else state

/-- The step of a run. -/
def take (state : ProgressState) (event : Event) : Except Empty ProgressState :=
  .ok (state.step event)

/-- The byte is in the cache file, and the current backup has written it. -/
def Copied (state : ProgressState) (byte : Nat) : Prop :=
  Exists fun inode => state.cache = some inode ∧ state.writer inode byte = some state.attempts

/-- A read that uses the cached copy during a backup finds what the backup has copied. -/
def SeesCopied (state : ProgressState) : Prop :=
  forall nocache waited size offset, state.file.cache_status = .inProgress ->
    state.readTurn nocache waited size offset = some 0 ->
      forall byte, offset ≤ byte -> byte < offset + size -> state.Copied byte

/-- The descriptor of the file leads to what is published. -/
def Served (state : ProgressState) : Prop :=
  state.file.cache_status = .inProgress -> forall byte, byte < state.transfered_size ->
    Exists fun inode => state.file.backing = some (inode, true) ∧
      state.writer inode byte = some state.attempts

/-- A backup that publishes how far it is has copied to the file at the path. -/
def PublishesCached (state : ProgressState) : Event -> Prop
  | .backup index .publish => forall backup target size offset,
      state.backups[index]? = some backup -> backup.stage = .copied target size offset ->
      offset < size -> state.cache = some target
  | _ => True

/-! ## What holds while a backup is on its way -/

/-- The current backup has written nothing. -/
def Unwritten (state : ProgressState) : Prop :=
  forall inode byte, state.writer inode byte ≠ some state.attempts

/-- The current backup has written the target up to `offset`, and nothing else; the file is open
there for writing. -/
structure Writing (state : ProgressState) (target : Inode) (offset : Nat) : Prop where
  inProgress : state.file.cache_status = .inProgress
  backing : state.file.backing = some (target, true)
  cached : state.cache ≠ none
  written : forall byte, byte < offset -> state.writer target byte = some state.attempts
  only : forall inode byte, state.writer inode byte = some state.attempts -> inode = target

/-- What the stage of the backup says of the state. -/
def Fits (state : ProgressState) : Stage -> Prop
  | .asked => state.file.cache_status = .asked ∧ state.Unwritten
  | .queued => state.file.cache_status = .asked ∧ state.Unwritten
  | .taken => state.file.cache_status = .inProgress ∧ state.Unwritten
  | .prepared _ => state.file.cache_status = .inProgress ∧ state.Unwritten
  | .checked _ =>
      state.file.cache_status = .inProgress ∧ state.Unwritten ∧ state.cache = none
  | .created _ =>
      state.file.cache_status = .inProgress ∧ state.Unwritten ∧ state.cache ≠ none
  | .copying target _ offset => state.Writing target offset
  | .copied target size offset => state.Writing target offset ∧ (offset < size -> 0 < offset)
  | .stopped => state.file.cache_status = .inProgress ∧ state.cache ≠ none
  | .failed =>
      (state.file.cache_status = .error ∨ state.file.cache_status = .done) ∧ state.cache ≠ none

/-- There is one backup at most, and it has written what is published. -/
structure Sound (state : ProgressState) : Prop where
  backups : state.backups = [] ∨ Exists fun stage =>
    state.backups = [⟨state.attempts, stage⟩] ∧ state.Fits stage
  bounded : forall inode byte number, state.writer inode byte = some number ->
    number ≤ state.attempts
  quiet : state.file.cache_status = .none ∨ state.file.cache_status = .asked ∨
    state.file.cache_status = .error -> state.transfered_size = 0
  served : state.Served

section Steps

variable {state : ProgressState} {index : Nat} {backup : Backup}

theorem Sound.start (path : Path) (cached : Bool) : Sound (start path cached) where
  backups := Or.inl rfl
  bounded _ _ _ written := by cases written
  quiet _ := rfl
  served inProgress := by cases inProgress

theorem Served.of_status (status : state.file.cache_status ≠ .inProgress) : state.Served :=
  fun inProgress => absurd inProgress status

/-- The backup that takes a step is the only one. -/
theorem Sound.single (sound : Sound state) (found : state.backups[index]? = some backup) :
    index = 0 ∧ state.backups = [⟨state.attempts, backup.stage⟩] ∧
      backup = ⟨state.attempts, backup.stage⟩ ∧ state.Fits backup.stage := by
  rcases sound.backups with none | ⟨stage, one, fits⟩
  · rw [none] at found
    cases found
  · rw [one] at found
    cases index with
    | zero =>
        obtain rfl := Option.some.inj found
        exact ⟨rfl, one, rfl, fits⟩
    | succ index => cases found

/-- Nothing is published before something has been written. -/
theorem Sound.transfered_zero (sound : Sound state)
    (inProgress : state.file.cache_status = .inProgress) (unwritten : state.Unwritten) :
    state.transfered_size = 0 := by
  by_contra some
  obtain ⟨inode, -, written⟩ := sound.served inProgress 0 (Nat.pos_of_ne_zero some)
  exact unwritten inode 0 written

/-- The stage says nothing of the readers, and of the descriptor only when it is for writing. -/
theorem Fits.frame {next : ProgressState} {stage : Stage} (fits : state.Fits stage)
    (status : next.file.cache_status = state.file.cache_status)
    (backing : forall target, state.file.backing = some (target, true) ->
      next.file.backing = some (target, true))
    (cache : next.cache = state.cache) (writer : next.writer = state.writer)
    (attempts : next.attempts = state.attempts) : next.Fits stage := by
  have writing : forall {target offset}, state.Writing target offset ->
      next.Writing target offset := by
    intro target offset writing
    exact {
      inProgress := status.trans writing.inProgress
      backing := backing target writing.backing
      cached := cache ▸ writing.cached
      written := by rw [writer, attempts]; exact writing.written
      only := by rw [writer, attempts]; exact writing.only }
  cases stage with
  | copying target size offset => exact writing fits
  | copied target size offset => exact ⟨writing fits.1, fits.2⟩
  | _ =>
      simp only [Fits, Unwritten, status, cache, writer, attempts] at fits ⊢
      exact fits

theorem Sound.frame {next : ProgressState} (sound : Sound state)
    (status : next.file.cache_status = state.file.cache_status)
    (backing : forall target, state.file.backing = some (target, true) ->
      next.file.backing = some (target, true))
    (cache : next.cache = state.cache) (writer : next.writer = state.writer)
    (attempts : next.attempts = state.attempts) (backups : next.backups = state.backups)
    (transfered : next.transfered_size = state.transfered_size) : Sound next where
  backups := by
    rw [backups, attempts]
    exact sound.backups.imp_right fun ⟨stage, only, fits⟩ =>
      ⟨stage, only, Fits.frame fits status backing cache writer attempts⟩
  bounded := by
    rw [writer, attempts]
    exact sound.bounded
  quiet := by
    rw [status, transfered]
    exact sound.quiet
  served := by
    intro inProgress byte less
    rw [status] at inProgress
    rw [transfered] at less
    rw [writer, attempts]
    obtain ⟨inode, opened, written⟩ := sound.served inProgress byte less
    exact ⟨inode, backing inode opened, written⟩

/-- The status or the published size changes along with the stage. -/
theorem Sound.moveFile (sound : Sound state)
    (only : state.backups = [⟨state.attempts, backup.stage⟩])
    (same : backup = ⟨state.attempts, backup.stage⟩) {stage : Stage} {file : BackedFile}
    {transfered : Nat} (fits : { state with file := file }.Fits stage)
    (quiet : file.cache_status = .none ∨ file.cache_status = .asked ∨ file.cache_status = .error ->
      transfered = 0)
    (served : file.cache_status = .inProgress -> forall byte, byte < transfered ->
      Exists fun inode => file.backing = some (inode, true) ∧
        state.writer inode byte = some state.attempts) :
    Sound ({ state with file := file, transfered_size := transfered }.setStage 0 backup stage) where
  backups := by
    refine Or.inr ⟨stage, ?_, Fits.frame fits rfl (fun _ => id) rfl rfl rfl⟩
    rw [setStage]
    simp only [only]
    rw [same]
    rfl
  bounded := sound.bounded
  quiet := quiet
  served := served

/-- A backup without a write in this step. -/
theorem Sound.move (sound : Sound state) (only : state.backups = [⟨state.attempts, backup.stage⟩])
    (same : backup = ⟨state.attempts, backup.stage⟩) {stage : Stage} (fits : state.Fits stage) :
    Sound (state.setStage 0 backup stage) :=
  sound.moveFile only same fits sound.quiet sound.served

theorem Sound.drop (sound : Sound state) (only : state.backups = [⟨state.attempts, backup.stage⟩]) :
    Sound (state.drop 0) where
  backups := Or.inl (by rw [ProgressState.drop, only]; rfl)
  bounded := sound.bounded
  quiet := sound.quiet
  served := sound.served

/-- A window is written by the current backup and nowhere but in the target. -/
theorem Writing.pwrite {target : Inode} {offset : Nat} (writing : state.Writing target offset)
    (count : Nat) : (state.pwrite state.attempts target offset count).Writing target
      (offset + count) where
  inProgress := writing.inProgress
  backing := writing.backing
  cached := writing.cached
  written := by
    intro byte less
    by_cases inside : offset ≤ byte
    · exact if_pos ⟨rfl, inside, less⟩
    · exact (if_neg fun window => inside window.2.1).trans
        (writing.written byte (Nat.lt_of_not_le inside))
  only := by
    intro inode byte written
    by_cases inside : inode = target ∧ offset ≤ byte ∧ byte < offset + count
    · exact inside.1
    · exact writing.only inode byte ((if_neg inside).symm.trans written)

/-- What the current backup has written stays so. -/
theorem pwrite_stays {inode target : Inode} {byte offset count : Nat}
    (written : state.writer inode byte = some state.attempts) :
    (state.pwrite state.attempts target offset count).writer inode byte = some state.attempts := by
  by_cases inside : inode = target ∧ offset ≤ byte ∧ byte < offset + count
  · exact if_pos inside
  · exact (if_neg inside).trans written

theorem Writing.mono {target : Inode} {offset less : Nat} (writing : state.Writing target offset)
    (le : less ≤ offset) : state.Writing target less where
  inProgress := writing.inProgress
  backing := writing.backing
  cached := writing.cached
  written byte before := writing.written byte (before.trans_le le)
  only := writing.only

theorem Sound.pwrite (sound : Sound state) {target : Inode} {size offset : Nat}
    (only : state.backups = [⟨state.attempts, .copying target size offset⟩])
    (writing : state.Writing target offset) (count : Nat) :
    Sound (state.pwrite state.attempts target offset count) where
  backups := Or.inr ⟨_, only, (writing.pwrite count).mono (Nat.le_add_right offset count)⟩
  bounded := by
    intro inode byte number written
    by_cases inside : inode = target ∧ offset ≤ byte ∧ byte < offset + count
    · exact (Option.some.inj ((if_pos inside).symm.trans written)).ge
    · exact sound.bounded inode byte number ((if_neg inside).symm.trans written)
  quiet := sound.quiet
  served := by
    intro inProgress byte less
    obtain ⟨inode, backing, written⟩ := sound.served inProgress byte less
    exact ⟨inode, backing, pwrite_stays written⟩

/-- A descriptor for writing comes from `do_open`. -/
theorem doOpen_writes {file : BackedFile} {cache : Path -> Option Inode} {target : Inode}
    {wr : Bool} (opened : (file.doOpen cache true).backing = some (target, wr)) : wr = true := by
  unfold BackedFile.doOpen at opened
  split at opened
  · obtain ⟨inode, -, same⟩ := Option.map_eq_some_iff.mp opened
    exact (congrArg Prod.snd same).symm
  · next inode old backing =>
      split at opened
      · next reuse =>
          rw [backing] at opened
          cases opened
          exact Bool.le_antisymm (Bool.le_true _) reuse
      · obtain ⟨inode, -, same⟩ := Option.map_eq_some_iff.mp opened
        exact (congrArg Prod.snd same).symm

theorem doOpen_status (file : BackedFile) (cache : Path -> Option Inode) (asked_wr : Bool) :
    (file.doOpen cache asked_wr).cache_status = file.cache_status := by
  unfold BackedFile.doOpen
  split
  · rfl
  · split
    · rfl
    · rfl

/-- A descriptor for writing is used by every reader. -/
theorem doOpen_of_writes {file : BackedFile} {cache : Path -> Option Inode} {target : Inode}
    (opened : file.backing = some (target, true)) (asked_wr : Bool) :
    file.doOpen cache asked_wr = file := by
  unfold BackedFile.doOpen
  rw [opened]
  exact if_pos (Bool.le_true asked_wr)

section Backup

variable (sound : Sound state) (found : state.backups[index]? = some backup)
include sound found

theorem Sound.enqueue : Sound (state.backupStep index backup .enqueue) := by
  obtain ⟨rfl, only, same, fits⟩ := sound.single found
  simp only [backupStep]
  split
  · next stage =>
      rw [stage] at fits
      have free : state.backups.any (·.stage = .queued) = false := by
        simp [only, stage]
      rw [if_neg (by simp [free])]
      exact sound.move only same fits
  · exact sound

theorem Sound.take : Sound (state.backupStep index backup .take) := by
  obtain ⟨rfl, only, same, fits⟩ := sound.single found
  simp only [backupStep]
  split
  · next stage =>
      rw [stage] at fits
      have none := sound.quiet (Or.inr (Or.inl fits.1))
      rw [if_pos fits.1]
      refine sound.moveFile only same ⟨rfl, fits.2⟩ (by simp) fun _ byte less => ?_
      rw [none] at less
      cases less
  · exact sound

theorem Sound.abandon : Sound (state.backupStep index backup .abandon) := by
  obtain ⟨rfl, only, -, -⟩ := sound.single found
  simp only [backupStep]
  split
  · exact sound.drop only
  · exact sound.drop only
  · exact sound

theorem Sound.prepare (size : Nat) : Sound (state.backupStep index backup (.prepare size)) := by
  obtain ⟨rfl, only, same, fits⟩ := sound.single found
  simp only [backupStep]
  split
  · next stage =>
      rw [stage] at fits
      exact sound.moveFile only same fits (fun _ => rfl) fun _ byte less => by cases less
  · exact sound

theorem Sound.check : Sound (state.backupStep index backup .check) := by
  obtain ⟨rfl, only, same, fits⟩ := sound.single found
  simp only [backupStep]
  split
  · next size stage =>
      rw [stage] at fits
      split
      · exact sound.drop only
      · next missing =>
          exact sound.move only same ⟨fits.1, fits.2, Option.not_isSome_iff_eq_none.mp missing⟩
  · exact sound

theorem Sound.create : Sound (state.backupStep index backup .create) := by
  obtain ⟨rfl, only, same, fits⟩ := sound.single found
  simp only [backupStep]
  split
  · next size stage =>
      rw [stage] at fits
      obtain ⟨inProgress, unwritten, missing⟩ := fits
      simp only [ProgressState.create, missing]
      have one : state.backups.set 0 { backup with stage := .created size } =
          [⟨state.attempts, .created size⟩] := by
        rw [only, same]
        rfl
      exact ⟨Or.inr ⟨_, one, inProgress, unwritten, Option.some_ne_none _⟩, sound.bounded,
        sound.quiet, sound.served⟩
  · exact sound

theorem Sound.openTarget (source_size : Nat) :
    Sound (state.backupStep index backup (.openTarget source_size)) := by
  obtain ⟨rfl, only, same, fits⟩ := sound.single found
  simp only [backupStep]
  split
  · next size stage =>
      rw [stage] at fits
      obtain ⟨inProgress, unwritten, present⟩ := fits
      have none := sound.transfered_zero inProgress unwritten
      have still : (state.file.doOpen (fun _ => state.cache) true).cache_status = .inProgress :=
        (doOpen_status ..).trans inProgress
      simp only [ProgressState.openTarget]
      split
      · refine sound.moveFile only same ⟨still, present⟩ (fun _ => none) fun _ byte less => ?_
        rw [none] at less
        cases less
      · next target wr opened =>
          obtain rfl := doOpen_writes opened
          refine sound.moveFile only same ?_ (fun _ => none) fun _ byte less => ?_
          · exact ⟨still, opened, present, fun byte less => absurd less (Nat.not_lt_zero byte),
              fun inode byte written => absurd written (unwritten inode byte)⟩
          · rw [none] at less
            cases less
  · exact sound

theorem Sound.window (window_size : Nat) :
    Sound (state.backupStep index backup (.window window_size)) := by
  obtain ⟨rfl, only, same, fits⟩ := sound.single found
  simp only [backupStep]
  split
  · next target size offset stage =>
      rw [stage] at fits
      split
      · exact sound
      · next some =>
          have number : backup.number = state.attempts := by rw [same]
          have only' := only
          rw [stage] at only'
          rw [number]
          refine (sound.pwrite only' fits _).move only same ⟨fits.pwrite _, ?_⟩
          split
          · omega
          · omega
  · exact sound

theorem Sound.shortWrite (copied : Nat) :
    Sound (state.backupStep index backup (.shortWrite copied)) := by
  obtain ⟨rfl, only, same, fits⟩ := sound.single found
  simp only [backupStep]
  split
  · next target size offset stage =>
      rw [stage] at fits
      split
      · have number : backup.number = state.attempts := by rw [same]
        have only' := only
        rw [stage] at only'
        rw [number]
        exact (sound.pwrite only' fits copied).move only same ⟨fits.inProgress, fits.cached⟩
      · exact sound
  · exact sound

theorem Sound.publish : Sound (state.backupStep index backup .publish) := by
  obtain ⟨rfl, only, same, fits⟩ := sound.single found
  simp only [backupStep]
  split
  · next target size offset stage =>
      rw [stage] at fits
      split
      · have quiet := fits.1.inProgress
        refine sound.moveFile only same fits.1 (by simp [quiet]) fun _ byte less => ?_
        exact ⟨target, fits.1.backing, fits.1.written byte less⟩
      · exact sound
  · exact sound

theorem Sound.stop : Sound (state.backupStep index backup .stop) := by
  obtain ⟨rfl, only, same, fits⟩ := sound.single found
  simp only [backupStep]
  split
  · next size stage =>
      rw [stage] at fits
      exact sound.move only same ⟨fits.1, fits.2.2⟩
  · next target size offset stage =>
      rw [stage] at fits
      exact sound.move only same ⟨fits.inProgress, fits.cached⟩
  · next target size offset stage =>
      rw [stage] at fits
      exact sound.move only same ⟨fits.1.inProgress, fits.1.cached⟩
  · exact sound

theorem Sound.finish : Sound (state.backupStep index backup .finish) := by
  obtain ⟨rfl, only, -, -⟩ := sound.single found
  simp only [backupStep]
  split
  · split
    · exact sound
    · refine ⟨Or.inl ?_, sound.bounded, by simp [ProgressState.drop, setStatus],
        .of_status (by simp [ProgressState.drop, setStatus])⟩
      rw [ProgressState.drop, setStatus, only]
      rfl
  · exact sound

theorem Sound.fail : Sound (state.backupStep index backup .fail) := by
  obtain ⟨rfl, only, same, fits⟩ := sound.single found
  simp only [backupStep]
  split
  · next stage =>
      rw [stage] at fits
      exact sound.moveFile only same ⟨Or.inl rfl, fits.2⟩ (fun _ => rfl) fun inProgress => by
        cases inProgress
  · exact sound

theorem Sound.unlinkFailed (removed : Bool) :
    Sound (state.backupStep index backup (.unlinkFailed removed)) := by
  obtain ⟨rfl, only, -, fits⟩ := sound.single found
  simp only [backupStep]
  split
  · refine ⟨Or.inl ?_, sound.bounded, sound.quiet, sound.served⟩
    rw [ProgressState.drop, only]
    rfl
  · exact sound

end Backup

/-- A step keeps what holds of the only backup. -/
theorem Sound.backupStep (sound : Sound state) (found : state.backups[index]? = some backup)
    (kind : BackupStep) : Sound (state.backupStep index backup kind) := by
  cases kind with
  | enqueue => exact sound.enqueue found
  | take => exact sound.take found
  | abandon => exact sound.abandon found
  | prepare size => exact sound.prepare found size
  | check => exact sound.check found
  | create => exact sound.create found
  | openTarget source_size => exact sound.openTarget found source_size
  | window window_size => exact sound.window found window_size
  | shortWrite copied => exact sound.shortWrite found copied
  | publish => exact sound.publish found
  | stop => exact sound.stop found
  | finish => exact sound.finish found
  | fail => exact sound.fail found
  | unlinkFailed removed => exact sound.unlinkFailed found removed

/-- A backup of a file that is neither asked for nor in progress has failed. -/
theorem Fits.failed {stage : Stage} (fits : state.Fits stage)
    (asked : state.file.cache_status ≠ .asked)
    (inProgress : state.file.cache_status ≠ .inProgress) : stage = .failed := by
  cases stage with
  | failed => rfl
  | asked => exact absurd fits.1 asked
  | queued => exact absurd fits.1 asked
  | taken => exact absurd fits.1 inProgress
  | prepared size => exact absurd fits.1 inProgress
  | checked size => exact absurd fits.1 inProgress
  | created size => exact absurd fits.1 inProgress
  | copying target size offset => exact absurd fits.inProgress inProgress
  | copied target size offset => exact absurd fits.1.inProgress inProgress
  | stopped => exact absurd fits.1 inProgress

/-- A file that is neither asked for nor in progress may be found complete. -/
theorem Sound.setDone (sound : Sound state) (asked : state.file.cache_status ≠ .asked)
    (inProgress : state.file.cache_status ≠ .inProgress) : Sound (state.setStatus .done) where
  backups := by
    rcases sound.backups with none | ⟨stage, only, fits⟩
    · exact Or.inl none
    · obtain rfl := Fits.failed fits asked inProgress
      exact Or.inr ⟨.failed, only, Or.inr rfl, fits.2⟩
  bounded := sound.bounded
  quiet := by simp [setStatus]
  served := .of_status (by simp [setStatus])

/-- A backup is only asked for when there is none. -/
theorem Sound.backfile (sound : Sound state) : Sound state.backfile := by
  unfold ProgressState.backfile
  split
  · exact sound
  · next idle =>
      push Not at idle
      split
      · exact sound.setDone idle.1 idle.2.1
      · next missing =>
          have empty : state.backups = [] := by
            rcases sound.backups with none | ⟨stage, only, fits⟩
            · exact none
            · obtain rfl := Fits.failed fits idle.1 idle.2.1
              exact absurd (Option.not_isSome_iff_eq_none.mp missing) fits.2
          have none : state.transfered_size = 0 := by
            apply sound.quiet
            cases status : state.file.cache_status with
            | none => exact Or.inl rfl
            | error => exact Or.inr (Or.inr rfl)
            | asked => exact absurd status idle.1
            | inProgress => exact absurd status idle.2.1
            | done => exact absurd status idle.2.2
          refine ⟨Or.inr ⟨.asked, by simp [empty], rfl, fun inode byte written => ?_⟩,
            fun inode byte number written => ?_, fun _ => none, .of_status (by simp [setStatus])⟩
          · exact absurd (sound.bounded inode byte _ written) (Nat.not_succ_le_self _)
          · exact (sound.bounded inode byte number written).trans (Nat.le_succ _)

/-- A step keeps what holds while a backup is on its way. -/
theorem Sound.step (sound : Sound state) (event : Event) : Sound (state.step event) := by
  cases event with
  | backfile => exact sound.backfile
  | openNoCache =>
      simp only [ProgressState.step]
      split
      · next none => exact sound.setDone (by simp [none.1]) (by simp [none.1])
      · exact sound
  | backup index kind =>
      simp only [ProgressState.step]
      split
      · exact sound
      · next backup found => exact sound.backupStep found kind
  | read nocache waited size offset =>
      simp only [ProgressState.step]
      split
      · exact sound.frame rfl (fun _ => id) rfl rfl rfl rfl rfl
      · exact sound
  | openBacking =>
      simp only [ProgressState.step]
      split
      · exact sound
      · refine sound.frame (doOpen_status ..) (fun target opened => ?_) rfl rfl rfl rfl rfl
        simp only [doOpen_of_writes opened]
        exact opened
  | cleanup =>
      simp only [ProgressState.step]
      split
      · next done =>
          refine ⟨?_, sound.bounded, by simp [done], .of_status (by simp [done])⟩
          rcases sound.backups with none | ⟨stage, only, fits⟩
          · exact Or.inl none
          · obtain rfl := Fits.failed fits (by simp [done]) (by simp [done])
            exact Or.inr ⟨.failed, only, Or.inr done, fits.2⟩
      · exact sound
  | reopen =>
      simp only [ProgressState.step]
      split
      · next idle => exact ⟨Or.inl idle.1, sound.bounded, fun _ => rfl, .of_status (by simp)⟩
      · exact sound

end Steps

/-! ## What a read sees -/

section Reads

variable {state : ProgressState} {index : Nat} {backup : Backup}

/-- What is published has been copied. -/
def Shown (state : ProgressState) : Prop :=
  state.file.cache_status = .inProgress -> forall byte, byte < state.transfered_size ->
    state.Copied byte

/-- A read of one byte tells whether it is published. -/
theorem seesCopied_iff : state.SeesCopied ↔ state.Shown := by
  constructor
  · intro sees inProgress byte less
    refine sees false 0 1 byte inProgress ?_ byte (Nat.le_refl _) (Nat.lt_succ_self _)
    simp [readTurn, inProgress, Nat.succ_le_of_lt less]
  · intro shown nocache waited size offset inProgress cached byte _ less
    apply shown inProgress
    simp only [readTurn, inProgress] at cached
    split at cached
    · next done => cases done
    · split at cached
      · cases cached
      · split at cached
        · next other => simp at other
        · split at cached
          · next published => exact less.trans_le published.2
          · split at cached
            · cases cached
            · cases cached

theorem Shown.frame {next : ProgressState} (shown : Shown state)
    (status : next.file.cache_status = state.file.cache_status)
    (cache : next.cache = state.cache) (writer : next.writer = state.writer)
    (attempts : next.attempts = state.attempts)
    (transfered : next.transfered_size = state.transfered_size) : Shown next := by
  unfold Shown Copied
  rw [status, cache, writer, attempts, transfered]
  exact shown

/-- Outside a backup nothing is asked of the cache file. -/
theorem Shown.of_status (status : state.file.cache_status ≠ .inProgress) : Shown state :=
  fun inProgress => absurd inProgress status

theorem Shown.of_zero (none : state.transfered_size = 0) : Shown state := by
  intro _ byte less
  rw [none] at less
  cases less

theorem Shown.pwrite (shown : Shown state) (target : Inode) (offset count : Nat) :
    Shown (state.pwrite state.attempts target offset count) := by
  intro inProgress byte less
  obtain ⟨inode, cached, written⟩ := shown inProgress byte less
  exact ⟨inode, cached, pwrite_stays written⟩

/-- A step of a backup keeps what is published copied, if it publishes the cache file. -/
theorem Shown.backupStep (sound : Sound state) (shown : Shown state)
    (found : state.backups[index]? = some backup) (kind : BackupStep)
    (publishes : state.PublishesCached (.backup index kind)) :
    Shown (state.backupStep index backup kind) := by
  obtain ⟨rfl, only, same, fits⟩ := sound.single found
  have number : backup.number = state.attempts := by rw [same]
  cases kind with
  | enqueue =>
      simp only [ProgressState.backupStep]
      split
      · split
        · exact shown
        · exact shown
      · exact shown
  | take =>
      simp only [ProgressState.backupStep]
      split
      · next stage =>
          rw [stage] at fits
          rw [if_pos fits.1]
          exact .of_zero (sound.quiet (Or.inr (Or.inl fits.1)))
      · exact shown
  | abandon =>
      simp only [ProgressState.backupStep]
      split
      · exact shown
      · exact shown
      · exact shown
  | prepare size =>
      simp only [ProgressState.backupStep]
      split
      · exact .of_zero rfl
      · exact shown
  | check =>
      simp only [ProgressState.backupStep]
      split
      · split
        · exact shown
        · exact shown
      · exact shown
  | create =>
      simp only [ProgressState.backupStep]
      split
      · next size stage =>
          rw [stage] at fits
          simp only [ProgressState.create, fits.2.2]
          exact .of_zero (sound.transfered_zero fits.1 fits.2.1)
      · exact shown
  | openTarget source_size =>
      simp only [ProgressState.backupStep]
      split
      · simp only [ProgressState.openTarget]
        split
        · exact Shown.frame shown (doOpen_status ..) rfl rfl rfl rfl
        · exact Shown.frame shown (doOpen_status ..) rfl rfl rfl rfl
      · exact shown
  | window window_size =>
      simp only [ProgressState.backupStep, number]
      split
      · split
        · exact shown
        · exact Shown.pwrite shown _ _ _
      · exact shown
  | shortWrite copied =>
      simp only [ProgressState.backupStep, number]
      split
      · split
        · exact Shown.pwrite shown _ _ _
        · exact shown
      · exact shown
  | publish =>
      simp only [ProgressState.backupStep]
      split
      · next target size offset stage =>
          rw [stage] at fits
          split
          · next remains =>
              have cached := publishes backup target size offset found stage remains
              exact fun _ byte less => ⟨target, cached, fits.1.written byte less⟩
          · exact shown
      · exact shown
  | stop =>
      simp only [ProgressState.backupStep]
      split
      · exact shown
      · exact shown
      · exact shown
      · exact shown
  | finish =>
      simp only [ProgressState.backupStep]
      split
      · split
        · exact shown
        · exact .of_status (by simp [ProgressState.drop, setStatus])
      · exact shown
  | fail =>
      simp only [ProgressState.backupStep]
      split
      · exact .of_zero rfl
      · exact shown
  | unlinkFailed removed =>
      simp only [ProgressState.backupStep]
      split
      · next stage =>
          rw [stage] at fits
          refine .of_status ?_
          rcases fits.1 with status | status
          · simp [ProgressState.drop, status]
          · simp [ProgressState.drop, status]
      · exact shown

theorem Shown.step (sound : Sound state) (shown : Shown state) (event : Event)
    (publishes : state.PublishesCached event) : Shown (state.step event) := by
  cases event with
  | backfile =>
      simp only [ProgressState.step, ProgressState.backfile]
      split
      · exact shown
      · split
        · exact .of_status (by simp [setStatus])
        · exact .of_status (by simp [setStatus])
  | openNoCache =>
      simp only [ProgressState.step]
      split
      · exact .of_status (by simp [setStatus])
      · exact shown
  | backup index kind =>
      simp only [ProgressState.step]
      split
      · exact shown
      · next backup found => exact Shown.backupStep sound shown found kind publishes
  | read nocache waited size offset =>
      simp only [ProgressState.step]
      split
      · exact shown
      · exact shown
  | openBacking =>
      simp only [ProgressState.step]
      split
      · exact shown
      · exact Shown.frame shown (doOpen_status ..) rfl rfl rfl rfl
  | cleanup =>
      simp only [ProgressState.step]
      split
      · exact shown
      · exact shown
  | reopen =>
      simp only [ProgressState.step]
      split
      · exact .of_zero rfl
      · exact shown

/-- After a backup has published what it has not written to the cache file, a read of the first
byte uses the cached copy. -/
theorem publishes_of_sees (sound : Sound state) (event : Event)
    (sees : SeesCopied (state.step event)) : state.PublishesCached event := by
  cases event with
  | backup index kind =>
      cases kind with
      | publish =>
          intro backup target size offset found stage remains
          obtain ⟨rfl, only, same, fits⟩ := sound.single found
          rw [stage] at fits
          have shown := seesCopied_iff.mp sees
          simp only [ProgressState.step, found, ProgressState.backupStep, stage, if_pos remains]
            at shown
          obtain ⟨inode, cached, written⟩ :=
            shown fits.1.inProgress 0 (fits.2 remains)
          exact cached.trans (congrArg some (fits.1.only inode 0 written))
      | _ => trivial
  | _ => trivial

end Reads

/-- In every run the descriptor that a read gets leads to what the current backup has written. -/
theorem reads_served (path : Path) (cached : Bool) (events : List Event) :
    Throughout take Served (fun _ => False) (start path cached) events := by
  have enough : forall state, Sound state -> Served state := fun _ sound => sound.served
  have always : EachStep take (fun _ _ => True) (start path cached) events :=
    EachStep.ofAll (fun _ _ _ => trivial) _
  refine Throughout.ofInvariant enough ?_ ?_ (Sound.start path cached) always
  · rintro state event next sound - taken
    obtain rfl := Except.ok.inj taken
    exact sound.step event
  · rintro state event fault
    exact fault.elim

/-- In every run of the backups and the reads of a file, a read that uses the cached copy during a
backup finds all its bytes copied to the cache file by that backup exactly when every progress
that is published is one of a copy to the file at the path. -/
theorem reads_see_copied_iff (path : Path) (cached : Bool) (events : List Event) :
    Throughout take SeesCopied (fun _ => False) (start path cached) events ↔
      EachStep take PublishesCached (start path cached) events := by
  have enough : forall state, Sound state ∧ SeesCopied state -> SeesCopied state :=
    fun _ holds => holds.2
  refine throughout_iff_eachStep enough ?_ ?_ ?_ events
    ⟨Sound.start path cached, seesCopied_iff.mpr (.of_zero rfl)⟩
  · rintro state event next ⟨sound, sees⟩ publishes taken
    obtain rfl := Except.ok.inj taken
    have shown := Shown.step sound (seesCopied_iff.mp sees) event publishes
    exact ⟨sound.step event, seesCopied_iff.mpr shown⟩
  · rintro state event fault
    exact fault.elim
  · rintro state event ⟨sound, -⟩ unpublished
    exact ⟨_, rfl, fun sees => unpublished (publishes_of_sees sound event sees)⟩

/-- A backup whose first read fails leaves its descriptor open on the file that it unlinks.  The
next backup copies to that descriptor, and the cache file that it has created stays empty. -/
theorem retried_backup_copies_elsewhere :
    ¬ Throughout take SeesCopied (fun _ => False) (start (ascii "/f") false)
      [.backfile, .backup 0 .enqueue, .backup 0 .take, .backup 0 (.prepare 8192),
        .backup 0 .check, .backup 0 .create, .backup 0 (.openTarget 8192), .backup 0 .stop,
        .backup 0 .fail, .backup 0 (.unlinkFailed true), .backfile, .backup 0 .enqueue,
        .backup 0 .take, .backup 0 (.prepare 8192), .backup 0 .check, .backup 0 .create,
        .backup 0 (.openTarget 8192), .backup 0 (.window 4096), .backup 0 .publish] := by
  intro throughout
  have sees := Throughout.final throughout rfl
  obtain ⟨inode, cached, written⟩ := sees false 0 4096 0 rfl rfl 0 (Nat.le_refl _) (by decide)
  obtain rfl := Option.some.inj cached
  cases written

end ProgressState

end Progress
end Mcachefs
