import Mcachefs.File.Mfile
import Mcachefs.Library.Runs
import Mathlib.Logic.Function.Basic

namespace Mcachefs
namespace Backing

open Library Transfer

/-!
# Cached copies and their status

A backup creates the cache file of an open file, copies the source file into
it, and sets the status of the open file to `MCACHEFS_FILE_BACKING_DONE`.  Its
steps are interleaved here with opens, with unlinks and renames, and with the
write-backs that the journal asks for.

Paths of the cache lead to inodes.  `broken` says of which inodes the content
is what is left of a copy that did not come to its end, and a backup that is
on its way knows the inode that it has created or emptied.  What the backups
have done so far is in the history.
-/

abbrev Inode := Nat

/-- The fields of `struct mcachefs_file_t` that concern the cached copy. -/
structure BackedFile where
  path : Path
  cache_status : CacheStatus
  /-- The inode on which `sources[MCACHEFS_FILE_SOURCE_BACKING].fd` is open, and its `wr`. -/
  backing : Option (Inode × Bool)
  deriving DecidableEq, Repr

/-- `mcachefs_file_do_open` for the cached copy: the descriptor is reused unless
it has to be opened for writing. -/
def BackedFile.doOpen (file : BackedFile) (cache : Path -> Option Inode) (asked_wr : Bool) :
    BackedFile :=
  let reopened := { file with backing := (cache file.path).map fun inode => (inode, asked_wr) }
  match file.backing with
  | none => reopened
  | some (_, wr) => if asked_wr ≤ wr then file else reopened

/-- How far a backup is. -/
inductive Stage
  | queued
  | taken
  /-- `mcachefs_transfer_do_backing` has found no cache file. -/
  | checked
  /-- `mcachefs_createfile_cache` has returned. -/
  | created
  /-- The copy goes to this inode. -/
  | copying (target : Inode)
  /-- The status is `MCACHEFS_FILE_BACKING_ERROR`; the cache file is still there. -/
  | failed
  deriving DecidableEq, Repr

structure Backup where
  /-- The number of its request. -/
  request : Nat
  fh : Fh
  stage : Stage
  /-- The inode that it has created or emptied. -/
  made : Option Inode
  deriving DecidableEq, Repr

/-- What a backup has done. -/
inductive Record
  /-- The queue has taken a request for an open file. -/
  | queued (request : Nat) (fh : Fh)
  /-- `mcachefs_createfile_cache` has made an inode, or emptied it. -/
  | created (request : Nat) (inode : Inode)
  /-- The backup has ended, with a whole copy in this inode if there is one. -/
  | ended (request : Nat) (copied : Option Inode)
  deriving DecidableEq, Repr

structure BackingState where
  files : Fh -> Option BackedFile
  cache : Path -> Option Inode
  /-- The number of inodes so far. -/
  inodes : Nat
  broken : Inode -> Bool
  backups : List Backup
  /-- The number of requests so far. -/
  requests : Nat
  /-- The last record comes first. -/
  history : List Record
  /-- Paths of fsync entries that were found in the cache. -/
  asked : List Path
  /-- Open files that `mcachefs_transfer_writeback` has got for them. -/
  got : List Fh

/-- The steps of a transfer thread that serves a backup. -/
inductive BackupStep
  /-- It takes the request. -/
  | take
  /-- It ends before it has a cache file: hands up, no metadata, or
  `mcachefs_createfile_cache` fails. -/
  | abandon
  | check
  | create
  /-- `mcachefs_file_getfd` for the target of the copy. -/
  | openTarget
  | finish
  | fail
  /-- The unlink after a copy that failed. -/
  | unlinkFailed
  deriving DecidableEq, Repr

inductive Event
  /-- `mcachefs_fileid_get` for a file that is not open yet. -/
  | openFile (fh : Fh) (path : Path)
  /-- `mcachefs_transfer_backfile`; the queue takes the request if it has none
  of this file. -/
  | backfile (fh : Fh) (accepted : Bool)
  /-- `mcachefs_open_mfile` in the state `MCACHEFS_STATE_NOCACHE`. -/
  | openNoCache (fh : Fh)
  /-- A step of one of the backups. -/
  | backup (index : Nat) (kind : BackupStep)
  /-- `mcachefs_transfer_writeback` looks for the cache file of an fsync entry. -/
  | askWriteback (path : Path)
  /-- It gets the open file of the metadata of that path. -/
  | getWriteback (index : Nat) (fh : Fh)
  /-- It sets the status of the open file. -/
  | writeback (index : Nat)
  /-- A read, a write or a truncation opens the cached copy. -/
  | openBacking (fh : Fh) (asked_wr : Bool)
  /-- The unlink callback removes the cache file. -/
  | unlinkCache (path : Path)
  /-- A rename gives an open file another path. -/
  | repath (fh : Fh) (path : Path)
  /-- The rename callback renames the cache file. -/
  | renameCache (path toPath : Path)
  /-- An open file without a use is removed. -/
  | remove (fh : Fh)
  deriving DecidableEq, Repr

namespace BackingState

/-- No file is open, and these paths have complete cache files. -/
def start (cached : List Path) : BackingState where
  files := fun _ => none
  cache := fun path => if path ∈ cached then some (cached.idxOf path) else none
  inodes := cached.length
  broken := fun _ => false
  backups := []
  requests := 0
  history := []
  asked := []
  got := []

def setFile (state : BackingState) (fh : Fh) (file : BackedFile) : BackingState :=
  { state with files := Function.update state.files fh (some file) }

def setStage (state : BackingState) (index : Nat) (backup : Backup) (stage : Stage) :
    BackingState :=
  { state with backups := state.backups.set index { backup with stage := stage } }

def setStatus (state : BackingState) (fh : Fh) (cache_status : CacheStatus) : BackingState :=
  match state.files fh with
  | none => state
  | some file => state.setFile fh { file with cache_status := cache_status }

/-- `mcachefs_fileincache`. -/
def fileincache (state : BackingState) (path : Path) : Bool :=
  (state.cache path).isSome

/-- `mcachefs_transfer_backfile`. -/
def backfile (fh : Fh) (accepted : Bool) (state : BackingState) : BackingState :=
  match state.files fh with
  | none => state
  | some file =>
      if file.cache_status = .asked ∨ file.cache_status = .inProgress ∨
          file.cache_status = .done then state
      else if state.fileincache file.path then state.setStatus fh .done
      else
        let state := state.setStatus fh .asked
        if accepted then
          { state with
            backups := state.backups ++ [⟨state.requests, fh, .queued, none⟩]
            requests := state.requests + 1
            history := .queued state.requests fh :: state.history }
        else state

/-- `mcachefs_open_mfile`, which does not ask for a backup in this state. -/
def openNoCache (fh : Fh) (state : BackingState) : BackingState :=
  match state.files fh with
  | none => state
  | some file =>
      if file.cache_status = .none ∧ state.fileincache file.path then state.setStatus fh .done
      else state

/-- `mcachefs_createfile_cache`: a cache file that has appeared meanwhile is
truncated. -/
def create (index : Nat) (backup : Backup) (path : Path) (state : BackingState) : BackingState :=
  match state.cache path with
  | some inode =>
      { state with
        backups := state.backups.set index { backup with stage := .created, made := some inode }
        history := .created backup.request inode :: state.history }
  | none =>
      { state with
        cache := Function.update state.cache path (some state.inodes)
        inodes := state.inodes + 1
        backups := state.backups.set index
          { backup with stage := .created, made := some state.inodes }
        history := .created backup.request state.inodes :: state.history }

/-- The copy goes to the descriptor that the open file has already, if it has
one for writing; without a target the copy fails. -/
def openTarget (index : Nat) (backup : Backup) (file : BackedFile) (state : BackingState) :
    BackingState :=
  let file := file.doOpen state.cache true
  match file.backing with
  | none =>
      (state.setFile backup.fh { file with cache_status := .error }).setStage index backup .failed
  | some (target, _) => (state.setFile backup.fh file).setStage index backup (.copying target)

/-- The end of a copy: what the backup has created is left as it is, unless it
is the target. -/
def brokenAfter (state : BackingState) (backup : Backup) (target : Option Inode) : Inode -> Bool :=
  fun inode =>
    if some inode = target then false
    else state.broken inode || decide (backup.made = some inode)

def finish (index : Nat) (backup : Backup) (target : Inode) (state : BackingState) :
    BackingState :=
  { state.setStatus backup.fh .done with
    broken := state.brokenAfter backup (some target)
    backups := state.backups.eraseIdx index
    history := .ended backup.request (some target) :: state.history }

/-- The last step of a backup that failed. -/
def unlinkFailed (index : Nat) (backup : Backup) (file : BackedFile) (state : BackingState) :
    BackingState :=
  { state with
    cache := Function.update state.cache file.path none
    broken := state.brokenAfter backup none
    backups := state.backups.eraseIdx index
    history := .ended backup.request none :: state.history }

/-- A backup ends that has not created its cache file. -/
def endBackup (index : Nat) (backup : Backup) (state : BackingState) : BackingState :=
  { state with
    backups := state.backups.eraseIdx index
    history := .ended backup.request none :: state.history }

/-- `mcachefs_fileid_get` of `mcachefs_transfer_writeback`: a file that is not
open is opened. -/
def getWriteback (index : Nat) (path : Path) (fh : Fh) (state : BackingState) : BackingState :=
  let got := { state with asked := state.asked.eraseIdx index, got := state.got ++ [fh] }
  match state.files fh with
  | none => got.setFile fh ⟨path, .none, none⟩
  | some file => if file.path = path then got else state

def renameCache (path toPath : Path) (state : BackingState) : BackingState :=
  match state.cache path with
  | none => state
  | some inode =>
      { state with
        cache := Function.update (Function.update state.cache path none) toPath (some inode) }

/-- A step of a backup whose open file is `file`. -/
def backupStep (index : Nat) (backup : Backup) (file : BackedFile) (state : BackingState) :
    BackupStep -> BackingState
  | .take =>
      if backup.stage = .queued then
        (if file.cache_status = .asked then state.setStatus backup.fh .inProgress
          else state).setStage index backup .taken
      else state
  | .abandon =>
      if backup.stage = .taken ∨ backup.stage = .checked then state.endBackup index backup
      else state
  | .check =>
      if backup.stage = .taken then
        if state.fileincache file.path then state.endBackup index backup
        else state.setStage index backup .checked
      else state
  | .create =>
      if backup.stage = .checked then state.create index backup file.path else state
  | .openTarget =>
      if backup.stage = .created then state.openTarget index backup file else state
  | .finish =>
      match backup.stage with
      | .copying target => state.finish index backup target
      | _ => state
  | .fail =>
      match backup.stage with
      | .created => (state.setStatus backup.fh .error).setStage index backup .failed
      | .copying _ => (state.setStatus backup.fh .error).setStage index backup .failed
      | _ => state
  | .unlinkFailed =>
      if backup.stage = .failed then state.unlinkFailed index backup file else state

def step (state : BackingState) : Event -> BackingState
  | .openFile fh path =>
      match state.files fh with
      | some _ => state
      | none => state.setFile fh ⟨path, .none, none⟩
  | .backfile fh accepted => state.backfile fh accepted
  | .openNoCache fh => state.openNoCache fh
  | .backup index kind =>
      match state.backups[index]? with
      | none => state
      | some backup =>
          match state.files backup.fh with
          | none => state
          | some file => state.backupStep index backup file kind
  | .askWriteback path =>
      if state.fileincache path then { state with asked := state.asked ++ [path] } else state
  | .getWriteback index fh =>
      match state.asked[index]? with
      | none => state
      | some path => state.getWriteback index path fh
  | .writeback index =>
      match state.got[index]? with
      | none => state
      | some fh => { state.setStatus fh .done with got := state.got.eraseIdx index }
  | .openBacking fh asked_wr =>
      match state.files fh with
      | none => state
      | some file => state.setFile fh (file.doOpen state.cache asked_wr)
  | .unlinkCache path => { state with cache := Function.update state.cache path none }
  | .repath fh path =>
      match state.files fh with
      | none => state
      | some file => state.setFile fh { file with path := path }
  | .renameCache path toPath => state.renameCache path toPath
  | .remove fh =>
      if (state.backups.any fun backup => backup.fh = fh) ∨ fh ∈ state.got then state
      else { state with files := Function.update state.files fh none }

/-- The inode holds a part of a copy: a backup has created or emptied it and is
not at its end, or has not come to its end. -/
def Partial (state : BackingState) (inode : Inode) : Prop :=
  state.broken inode = true ∨
    Exists fun backup => backup ∈ state.backups ∧ backup.made = some inode

/-- No backup of the file is queued or running, and the cache file at the path,
if there is one, is not a part of a copy. -/
def Finished (state : BackingState) (fh : Fh) (path : Path) : Prop :=
  (forall backup, backup ∈ state.backups -> backup.fh ≠ fh) ∧
    forall inode, state.cache path = some inode -> ¬ state.Partial inode

/-- `MCACHEFS_FILE_BACKING_DONE` means that the cached copy is complete. -/
def DoneIsComplete (state : BackingState) : Prop :=
  forall fh file, state.files fh = some file -> file.cache_status = .done ->
    state.Finished fh file.path

/-- What the steps that set the status to `MCACHEFS_FILE_BACKING_DONE`, or put
a cache file where a file with that status expects its own, take for granted. -/
def TrustsFinished (state : BackingState) : Event -> Prop
  | .backfile fh _ => forall file, state.files fh = some file ->
      file.cache_status = .none ∨ file.cache_status = .error ->
      state.fileincache file.path = true -> state.Finished fh file.path
  | .openNoCache fh => forall file, state.files fh = some file -> file.cache_status = .none ->
      state.fileincache file.path = true -> state.Finished fh file.path
  | .writeback index => forall fh file, state.got[index]? = some fh ->
      state.files fh = some file -> state.Finished fh file.path
  | .backup index .create => forall backup file, state.backups[index]? = some backup ->
      backup.stage = .checked -> state.files backup.fh = some file ->
      forall fh other, state.files fh = some other -> other.cache_status = .done ->
        other.path ≠ file.path
  | .backup index .finish => forall backup target file, state.backups[index]? = some backup ->
      backup.stage = .copying target -> state.files backup.fh = some file ->
      (forall other, other ∈ state.backups.eraseIdx index -> other.fh ≠ backup.fh) ∧
        forall inode, state.cache file.path = some inode ->
          state.brokenAfter backup (some target) inode = false ∧
            forall other, other ∈ state.backups.eraseIdx index -> other.made ≠ some inode
  | .repath fh path => forall file, state.files fh = some file -> file.cache_status = .done ->
      forall inode, state.cache path = some inode -> ¬ state.Partial inode
  | .renameCache path toPath => path ≠ toPath -> forall inode, state.cache path = some inode ->
      state.Partial inode -> forall fh file, state.files fh = some file ->
        file.cache_status = .done -> file.path ≠ toPath
  | _ => True

end BackingState

/-! ## The steps -/

open BackingState

/-- Inodes have one path and are numbered, and the finished copies are complete. -/
structure Sound (state : BackingState) : Prop where
  numbered : forall path inode, state.cache path = some inode -> inode < state.inodes
  distinct : forall one two inode, state.cache one = some inode -> state.cache two = some inode ->
    one = two
  complete : state.DoneIsComplete

section Steps

variable {state next : BackingState}

/-- A finished file stays so when no backup of it, no other cache file and no
other part of a copy comes. -/
theorem Finished.keep {fh : Fh} {path : Path} (finished : state.Finished fh path)
    (backups : forall backup, backup ∈ next.backups -> backup.fh = fh ->
      Exists fun old => old ∈ state.backups ∧ old.fh = fh)
    (cache : forall inode, next.cache path = some inode -> state.cache path = some inode)
    (parts : forall inode, next.cache path = some inode -> next.Partial inode ->
      state.Partial inode) : next.Finished fh path := by
  refine ⟨fun backup inside same => ?_, fun inode found part => ?_⟩
  · obtain ⟨old, inside, same⟩ := backups backup inside same
    exact finished.1 old inside same
  · exact finished.2 inode (cache inode found) (parts inode found part)

namespace Sound

/-- Neither the cache nor the parts of copies change, and a file that has the
status afterwards was found finished. -/
theorem frame (sound : Sound state) (inodes : next.inodes = state.inodes)
    (cache : next.cache = state.cache) (broken : next.broken = state.broken)
    (backups : forall backup, backup ∈ next.backups ->
      (Exists fun old => old ∈ state.backups ∧ old.fh = backup.fh ∧ old.made = backup.made) ∨
        backup.made = none ∧ forall file, next.files backup.fh = some file ->
          file.cache_status ≠ .done)
    (files : forall fh file, next.files fh = some file -> file.cache_status = .done ->
      state.Finished fh file.path) : Sound next := by
  refine ⟨?_, ?_, fun fh file held status => ?_⟩
  · rw [cache, inodes]
    exact sound.numbered
  · rw [cache]
    exact sound.distinct
  · refine Finished.keep (files fh file held status) (fun backup inside same => ?_) ?_ ?_
    · rcases backups backup inside with ⟨old, inside, equal, -⟩ | ⟨-, other⟩
      · exact ⟨old, inside, equal.trans same⟩
      · exact absurd status (other file (same ▸ held))
    · intro inode found
      exact cache ▸ found
    · rintro inode - (part | ⟨backup, inside, made⟩)
      · exact Or.inl (broken ▸ part)
      · rcases backups backup inside with ⟨old, inside, -, same⟩ | ⟨none, -⟩
        · exact Or.inr ⟨old, inside, same.trans made⟩
        · rw [none] at made
          cases made

/-- One file changes, and is found finished if it has the status then. -/
theorem setFile (sound : Sound state) {fh : Fh} {file : BackedFile}
    (files : next.files = Function.update state.files fh (some file))
    (finished : file.cache_status = .done -> state.Finished fh file.path)
    (inodes : next.inodes = state.inodes) (cache : next.cache = state.cache)
    (broken : next.broken = state.broken)
    (backups : forall backup, backup ∈ next.backups ->
      (Exists fun old => old ∈ state.backups ∧ old.fh = backup.fh ∧ old.made = backup.made) ∨
        backup.made = none ∧ forall file, next.files backup.fh = some file ->
          file.cache_status ≠ .done) : Sound next := by
  refine sound.frame inodes cache broken backups fun other after held status => ?_
  rw [files] at held
  by_cases same : other = fh
  · rw [same, Function.update_self] at held
    obtain rfl := Option.some.inj held
    exact same ▸ finished status
  · rw [Function.update_of_ne same] at held
    exact sound.complete other after held status

end Sound

theorem setStatus_eq {fh : Fh} {file : BackedFile} (held : state.files fh = some file)
    (cache_status : CacheStatus) :
    state.setStatus fh cache_status =
      state.setFile fh { file with cache_status := cache_status } := by
  simp only [BackingState.setStatus, held]

@[simp] theorem doOpen_path (file : BackedFile) (cache : Path -> Option Inode) (asked_wr : Bool) :
    (file.doOpen cache asked_wr).path = file.path := by
  unfold BackedFile.doOpen
  split
  · rfl
  · split <;> rfl

@[simp] theorem doOpen_cache_status (file : BackedFile) (cache : Path -> Option Inode)
    (asked_wr : Bool) : (file.doOpen cache asked_wr).cache_status = file.cache_status := by
  unfold BackedFile.doOpen
  split
  · rfl
  · split <;> rfl

theorem setFile_self {fh : Fh} {file : BackedFile} :
    (state.setFile fh file).files fh = some file :=
  Function.update_self fh _ state.files

theorem mem_self {backups : List Backup} {backup : Backup} (inside : backup ∈ backups) :
    Exists fun old => old ∈ backups ∧ old.fh = backup.fh ∧ old.made = backup.made :=
  ⟨backup, inside, rfl, rfl⟩

/-- A backup that goes on is still about its file and its inode. -/
theorem mem_set {backups : List Backup} {index : Nat} {backup other : Backup} {stage : Stage}
    (found : backups[index]? = some backup)
    (inside : other ∈ backups.set index { backup with stage := stage }) :
    Exists fun old => old ∈ backups ∧ old.fh = other.fh ∧ old.made = other.made := by
  rcases List.mem_or_eq_of_mem_set inside with inside | rfl
  · exact mem_self inside
  · exact ⟨backup, List.mem_of_getElem? found, rfl, rfl⟩

namespace Sound

theorem backfile (sound : Sound state) {fh : Fh} {accepted : Bool}
    (trusts : state.TrustsFinished (.backfile fh accepted)) :
    Sound (state.backfile fh accepted) := by
  unfold BackingState.backfile
  cases held : state.files fh with
  | none => exact sound
  | some file =>
      simp only
      split
      · exact sound
      · next idle =>
          have status : file.cache_status = .none ∨ file.cache_status = .error := by
            cases equal : file.cache_status <;> simp_all
          split
          · next present =>
              rw [setStatus_eq held]
              exact sound.setFile rfl (fun _ => trusts file held status present) rfl rfl rfl
                fun _ inside => Or.inl (mem_self inside)
          · rw [setStatus_eq held]
            split
            · refine sound.setFile rfl (fun done => nomatch done) rfl rfl rfl fun backup inside => ?_
              rcases List.mem_append.mp inside with inside | inside
              · exact Or.inl (mem_self inside)
              · obtain rfl := List.mem_singleton.mp inside
                refine Or.inr ⟨rfl, fun after held => ?_⟩
                have same := (Function.update_self fh _ state.files).symm.trans held
                obtain rfl := Option.some.inj same
                exact fun done => nomatch done
            · exact sound.setFile rfl (fun done => nomatch done) rfl rfl rfl
                fun _ inside => Or.inl (mem_self inside)

theorem openNoCache (sound : Sound state) {fh : Fh}
    (trusts : state.TrustsFinished (.openNoCache fh)) : Sound (state.openNoCache fh) := by
  unfold BackingState.openNoCache
  cases held : state.files fh with
  | none => exact sound
  | some file =>
      simp only
      split
      · next found =>
          rw [setStatus_eq held]
          exact sound.setFile rfl (fun _ => trusts file held found.1 found.2) rfl rfl rfl
            fun _ inside => Or.inl (mem_self inside)
      · exact sound

theorem getWriteback (sound : Sound state) {index : Nat} {fh : Fh} {path : Path} :
    Sound (state.getWriteback index path fh) := by
  unfold BackingState.getWriteback
  cases held : state.files fh with
  | none =>
      exact sound.setFile rfl (fun done => nomatch done) rfl rfl rfl
        fun _ inside => Or.inl (mem_self inside)
  | some file =>
      simp only
      split
      · exact sound.frame rfl rfl rfl (fun _ inside => Or.inl (mem_self inside))
          fun fh file held status => sound.complete fh file held status
      · exact sound

theorem writeback (sound : Sound state) {index : Nat} {fh : Fh}
    (found : state.got[index]? = some fh) (trusts : state.TrustsFinished (.writeback index)) :
    Sound { state.setStatus fh .done with got := state.got.eraseIdx index } := by
  cases held : state.files fh with
  | none =>
      simp only [setStatus, held]
      exact sound.frame rfl rfl rfl (fun _ inside => Or.inl (mem_self inside))
        fun fh file held status => sound.complete fh file held status
  | some file =>
      rw [setStatus_eq held]
      exact sound.setFile rfl (fun _ => trusts fh file found held) rfl rfl rfl
        fun _ inside => Or.inl (mem_self inside)

/-- A cache file goes. -/
theorem unlinkCache (sound : Sound state) (path : Path) {next : BackingState}
    (cache : next.cache = Function.update state.cache path none)
    (inodes : next.inodes = state.inodes) (files : next.files = state.files)
    (parts : forall inode, next.Partial inode -> state.Partial inode)
    (backups : forall backup, backup ∈ next.backups -> backup ∈ state.backups) : Sound next := by
  have kept : forall other inode, next.cache other = some inode ->
      state.cache other = some inode := by
    intro other inode found
    rw [cache] at found
    by_cases same : other = path
    · rw [same, Function.update_self] at found
      cases found
    · rwa [Function.update_of_ne same] at found
  refine ⟨fun other inode found => ?_, fun one two inode first second => ?_, ?_⟩
  · rw [inodes]
    exact sound.numbered other inode (kept other inode found)
  · exact sound.distinct one two inode (kept one inode first) (kept two inode second)
  · intro fh file held status
    rw [files] at held
    exact Finished.keep (sound.complete fh file held status)
      (fun backup inside same => ⟨backup, backups backup inside, same⟩) (kept file.path)
      fun inode _ => parts inode

theorem repath (sound : Sound state) {fh : Fh} {path : Path} {file : BackedFile}
    (held : state.files fh = some file) (trusts : state.TrustsFinished (.repath fh path)) :
    Sound (state.setFile fh { file with path := path }) :=
  sound.setFile rfl (fun done => ⟨(sound.complete fh file held done).1, trusts file held done⟩)
    rfl rfl rfl fun _ inside => Or.inl (mem_self inside)

theorem renameCache (sound : Sound state) {path toPath : Path}
    (trusts : state.TrustsFinished (.renameCache path toPath)) :
    Sound (state.renameCache path toPath) := by
  unfold BackingState.renameCache
  cases found : state.cache path with
  | none => exact sound
  | some inode =>
      simp only
      -- What a path leads to afterwards is what it led to, or the inode that has moved.
      have leads : forall other after,
          Function.update (Function.update state.cache path none) toPath (some inode) other =
            some after -> (other = toPath ∧ after = inode) ∨
              (other ≠ toPath ∧ other ≠ path ∧ state.cache other = some after) := by
        intro other after lead
        by_cases target : other = toPath
        · rw [target, Function.update_self] at lead
          exact Or.inl ⟨target, (Option.some.inj lead).symm⟩
        · rw [Function.update_of_ne target] at lead
          by_cases source : other = path
          · rw [source, Function.update_self] at lead
            cases lead
          · rw [Function.update_of_ne source] at lead
            exact Or.inr ⟨target, source, lead⟩
      refine ⟨fun other after lead => ?_, fun one two after first second => ?_, ?_⟩
      · rcases leads other after lead with ⟨-, rfl⟩ | ⟨-, -, kept⟩
        · exact sound.numbered path after found
        · exact sound.numbered other after kept
      · rcases leads one after first with ⟨rfl, same⟩ | ⟨-, away, kept⟩
        · rcases leads two after second with ⟨rfl, -⟩ | ⟨-, away, kept⟩
          · rfl
          · exact absurd (sound.distinct two path after kept (same ▸ found)) away
        · rcases leads two after second with ⟨-, same⟩ | ⟨-, -, other⟩
          · exact absurd (sound.distinct one path after kept (same ▸ found)) away
          · exact sound.distinct one two after kept other
      · intro fh file held status
        have finished := sound.complete fh file held status
        refine ⟨finished.1, fun after lead part => ?_⟩
        rcases leads file.path after lead with ⟨target, rfl⟩ | ⟨-, -, kept⟩
        · by_cases same : path = toPath
          · exact finished.2 after (target.trans same.symm ▸ found) part
          · exact trusts same after found part fh file held status target
        · exact finished.2 after kept part

theorem create (sound : Sound state) {index : Nat} {backup : Backup} {file : BackedFile}
    (inside : state.backups[index]? = some backup) (stage : backup.stage = .checked)
    (held : state.files backup.fh = some file)
    (trusts : state.TrustsFinished (.backup index .create)) :
    Sound (state.create index backup file.path) := by
  have away := trusts backup file inside stage held
  have known := List.mem_of_getElem? inside
  unfold BackingState.create
  cases found : state.cache file.path with
  | some inode =>
      simp only
      refine ⟨sound.numbered, sound.distinct, fun fh other held status => ?_⟩
      have finished := sound.complete fh other held status
      refine ⟨fun after member same => ?_, fun after lead part => ?_⟩
      · rcases List.mem_or_eq_of_mem_set member with member | rfl
        · exact finished.1 after member same
        · exact finished.1 backup known same
      · rcases part with part | ⟨after', member, made⟩
        · exact finished.2 after lead (Or.inl part)
        · rcases List.mem_or_eq_of_mem_set member with member | rfl
          · exact finished.2 after lead (Or.inr ⟨after', member, made⟩)
          · obtain rfl := Option.some.inj made
            exact away fh other held status (sound.distinct _ _ inode lead found)
  | none =>
      simp only
      have leads : forall other after,
          Function.update state.cache file.path (some state.inodes) other = some after ->
            (other = file.path ∧ after = state.inodes) ∨
              (other ≠ file.path ∧ state.cache other = some after) := by
        intro other after lead
        by_cases same : other = file.path
        · rw [same, Function.update_self] at lead
          exact Or.inl ⟨same, (Option.some.inj lead).symm⟩
        · rw [Function.update_of_ne same] at lead
          exact Or.inr ⟨same, lead⟩
      refine ⟨fun other after lead => ?_, fun one two after first second => ?_, ?_⟩
      · rcases leads other after lead with ⟨-, rfl⟩ | ⟨-, kept⟩
        · exact Nat.lt_succ_self _
        · exact (sound.numbered other after kept).trans (Nat.lt_succ_self _)
      · rcases leads one after first with ⟨rfl, same⟩ | ⟨-, kept⟩
        · rcases leads two after second with ⟨rfl, -⟩ | ⟨-, kept⟩
          · rfl
          · exact absurd (same ▸ sound.numbered two after kept) (Nat.lt_irrefl _)
        · rcases leads two after second with ⟨-, same⟩ | ⟨-, other⟩
          · exact absurd (same ▸ sound.numbered one after kept) (Nat.lt_irrefl _)
          · exact sound.distinct one two after kept other
      · intro fh other held status
        have finished := sound.complete fh other held status
        refine ⟨fun after member same => ?_, fun after lead part => ?_⟩
        · rcases List.mem_or_eq_of_mem_set member with member | rfl
          · exact finished.1 after member same
          · exact finished.1 backup known same
        · rcases leads other.path after lead with ⟨same, -⟩ | ⟨-, kept⟩
          · exact away fh other held status same
          · rcases part with part | ⟨after', member, made⟩
            · exact finished.2 after kept (Or.inl part)
            · rcases List.mem_or_eq_of_mem_set member with member | rfl
              · exact finished.2 after kept (Or.inr ⟨after', member, made⟩)
              · obtain rfl := Option.some.inj made
                exact absurd (sound.numbered _ _ kept) (Nat.lt_irrefl _)

/-- What is broken when a backup ends was a part of a copy before. -/
theorem part_of_brokenAfter {backup : Backup} (known : backup ∈ state.backups)
    {target : Option Inode} {inode : Inode}
    (broken : state.brokenAfter backup target inode = true) : state.Partial inode := by
  unfold brokenAfter at broken
  split at broken
  · cases broken
  · simp only [Bool.or_eq_true, decide_eq_true_eq] at broken
    rcases broken with broken | made
    · exact Or.inl broken
    · exact Or.inr ⟨backup, known, made⟩

theorem part_of_erased {index : Nat} {backup : Backup}
    (inside : state.backups[index]? = some backup) (target : Option Inode) {inode : Inode}
    (part : state.brokenAfter backup target inode = true ∨ Exists fun other =>
      other ∈ state.backups.eraseIdx index ∧ other.made = some inode) : state.Partial inode := by
  rcases part with broken | ⟨other, member, made⟩
  · exact part_of_brokenAfter (List.mem_of_getElem? inside) broken
  · exact Or.inr ⟨other, List.mem_of_mem_eraseIdx member, made⟩

theorem finish (sound : Sound state) {index : Nat} {backup : Backup} {file : BackedFile}
    {target : Inode} (inside : state.backups[index]? = some backup)
    (stage : backup.stage = .copying target) (held : state.files backup.fh = some file)
    (trusts : state.TrustsFinished (.backup index .finish)) :
    Sound (state.finish index backup target) := by
  obtain ⟨alone, whole⟩ := trusts backup target file inside stage held
  unfold BackingState.finish
  rw [setStatus_eq held]
  refine ⟨sound.numbered, sound.distinct, fun fh after heldAfter status => ?_⟩
  by_cases same : fh = backup.fh
  · subst same
    obtain rfl := Option.some.inj ((Function.update_self backup.fh _ state.files).symm.trans heldAfter)
    refine ⟨alone, fun inode lead part => ?_⟩
    obtain ⟨kept, others⟩ := whole inode lead
    rcases part with broken | ⟨other, member, made⟩
    · exact absurd (kept.symm.trans broken) (by decide)
    · exact others other member made
  · have old : state.files fh = some after :=
      (Function.update_of_ne same _ state.files).symm.trans heldAfter
    refine Finished.keep (sound.complete fh after old status) ?_ (fun _ lead => lead)
      fun inode _ part => part_of_erased inside (some target) part
    exact fun other member equal => ⟨other, List.mem_of_mem_eraseIdx member, equal⟩

theorem openTarget (sound : Sound state) {index : Nat} {backup : Backup} {file : BackedFile}
    (inside : state.backups[index]? = some backup) (held : state.files backup.fh = some file) :
    Sound (state.openTarget index backup file) := by
  have known := List.mem_of_getElem? inside
  have notDone : file.cache_status ≠ .done := fun done =>
    (sound.complete backup.fh file held done).1 backup known rfl
  unfold BackingState.openTarget
  simp only
  split
  · exact sound.setFile rfl (fun done => nomatch done) rfl rfl rfl
      fun other member => Or.inl (mem_set inside member)
  · refine sound.setFile rfl (fun done => absurd ?_ notDone) rfl rfl rfl
      fun other member => Or.inl (mem_set inside member)
    rwa [doOpen_cache_status] at done

theorem backupStep (sound : Sound state) {index : Nat} {backup : Backup} {file : BackedFile}
    {kind : BackupStep} (inside : state.backups[index]? = some backup)
    (held : state.files backup.fh = some file)
    (trusts : state.TrustsFinished (.backup index kind)) :
    Sound (state.backupStep index backup file kind) := by
  have failed : Sound ((state.setStatus backup.fh .error).setStage index backup .failed) := by
    rw [setStatus_eq held]
    exact sound.setFile rfl (fun done => nomatch done) rfl rfl rfl
      fun other member => Or.inl (mem_set inside member)
  have ended : Sound (state.endBackup index backup) :=
    sound.frame rfl rfl rfl
      (fun other member => Or.inl (mem_self (List.mem_of_mem_eraseIdx member)))
      fun fh other held status => sound.complete fh other held status
  have goesOn : forall stage, Sound (state.setStage index backup stage) := fun stage =>
    sound.frame rfl rfl rfl (fun other member => Or.inl (mem_set inside member))
      fun fh other held status => sound.complete fh other held status
  cases kind with
  | take =>
      simp only [BackingState.backupStep]
      split
      · split
        · rw [setStatus_eq held]
          exact sound.setFile rfl (fun done => nomatch done) rfl rfl rfl
            fun other member => Or.inl (mem_set inside member)
        · exact goesOn .taken
      · exact sound
  | abandon =>
      simp only [BackingState.backupStep]
      split
      · exact ended
      · exact sound
  | check =>
      simp only [BackingState.backupStep]
      split
      · split
        · exact ended
        · exact goesOn .checked
      · exact sound
  | create =>
      simp only [BackingState.backupStep]
      split
      · next stage => exact sound.create inside stage held trusts
      · exact sound
  | openTarget =>
      simp only [BackingState.backupStep]
      split
      · exact sound.openTarget inside held
      · exact sound
  | finish =>
      simp only [BackingState.backupStep]
      split
      · next target stage => exact sound.finish inside stage held trusts
      · exact sound
  | fail =>
      simp only [BackingState.backupStep]
      split
      · exact failed
      · exact failed
      · exact sound
  | unlinkFailed =>
      simp only [BackingState.backupStep]
      split
      · exact sound.unlinkCache file.path rfl rfl rfl
          (fun inode part => part_of_erased inside none part)
          fun other member => List.mem_of_mem_eraseIdx member
      · exact sound

/-- A step that trusts only what is finished keeps the invariant. -/
theorem step (sound : Sound state) {event : Event} (trusts : state.TrustsFinished event) :
    Sound (state.step event) := by
  cases event with
  | openFile fh path =>
      simp only [BackingState.step]
      split
      · exact sound
      · exact sound.setFile rfl (fun done => nomatch done) rfl rfl rfl
          fun _ inside => Or.inl (mem_self inside)
  | backfile fh accepted => exact sound.backfile trusts
  | openNoCache fh => exact sound.openNoCache trusts
  | backup index kind =>
      simp only [BackingState.step]
      cases inside : state.backups[index]? with
      | none => exact sound
      | some backup =>
          simp only
          cases held : state.files backup.fh with
          | none => exact sound
          | some file => exact sound.backupStep inside held trusts
  | askWriteback path =>
      simp only [BackingState.step]
      split
      · exact sound.frame rfl rfl rfl (fun _ inside => Or.inl (mem_self inside))
          fun fh file held status => sound.complete fh file held status
      · exact sound
  | getWriteback index fh =>
      simp only [BackingState.step]
      cases state.asked[index]? with
      | none => exact sound
      | some path => exact sound.getWriteback
  | writeback index =>
      simp only [BackingState.step]
      cases found : state.got[index]? with
      | none => exact sound
      | some fh => exact sound.writeback found trusts
  | openBacking fh asked_wr =>
      simp only [BackingState.step]
      cases held : state.files fh with
      | none => exact sound
      | some file =>
          refine sound.setFile rfl (fun done => ?_) rfl rfl rfl
            fun _ inside => Or.inl (mem_self inside)
          rw [doOpen_cache_status] at done
          exact (doOpen_path file state.cache asked_wr).symm ▸ sound.complete fh file held done
  | unlinkCache path =>
      exact sound.unlinkCache path rfl rfl rfl (fun _ part => part) fun _ inside => inside
  | repath fh path =>
      simp only [BackingState.step]
      cases held : state.files fh with
      | none => exact sound
      | some file => exact sound.repath held trusts
  | renameCache path toPath => exact sound.renameCache trusts
  | remove fh =>
      simp only [BackingState.step]
      split
      · exact sound
      · refine sound.frame rfl rfl rfl (fun _ inside => Or.inl (mem_self inside))
          fun other file held status => ?_
        by_cases same : other = fh
        · subst same
          simp at held
        · exact sound.complete other file
            ((Function.update_of_ne same _ state.files).symm.trans held) status

end Sound

/-- What a step trusts is necessary: it is read off from the files that are
complete afterwards. -/
theorem trusts_of_done {event : Event} (good : (state.step event).DoneIsComplete) :
    state.TrustsFinished event := by
  cases event with
  | backfile fh accepted =>
      intro file held idle present
      have busy : ¬ (file.cache_status = .asked ∨ file.cache_status = .inProgress ∨
          file.cache_status = .done) := by
        rcases idle with idle | idle <;> simp [idle]
      simp only [BackingState.step, BackingState.backfile, held, if_neg busy, present, if_true,
        setStatus_eq held] at good
      exact good fh { file with cache_status := .done } setFile_self rfl
  | openNoCache fh =>
      intro file held idle present
      simp only [BackingState.step, BackingState.openNoCache, held, idle, present, and_self,
        if_true, setStatus_eq held] at good
      exact good fh { file with cache_status := .done } setFile_self rfl
  | writeback index =>
      intro fh file found held
      simp only [BackingState.step, found, setStatus_eq held] at good
      exact good fh { file with cache_status := .done } setFile_self rfl
  | backup index kind =>
      cases kind with
      | create =>
          intro backup file inside stage held fh other heldOther status same
          simp only [BackingState.step, inside, held, BackingState.backupStep, stage, if_true,
            BackingState.create] at good
          have bound := (List.getElem?_eq_some_iff.mp inside).1
          cases found : state.cache file.path with
          | some inode =>
              simp only [found] at good
              exact (good fh other heldOther status).2 inode (same ▸ found)
                (Or.inr ⟨_, List.mem_set bound _, rfl⟩)
          | none =>
              simp only [found] at good
              refine (good fh other heldOther status).2 state.inodes ?_
                (Or.inr ⟨_, List.mem_set bound _, rfl⟩)
              exact same ▸ Function.update_self file.path _ state.cache
      | finish =>
          intro backup target file inside stage held
          simp only [BackingState.step, inside, held, BackingState.backupStep, stage,
            BackingState.finish, setStatus_eq held] at good
          obtain ⟨alone, whole⟩ :=
            good backup.fh _ setFile_self rfl
          refine ⟨alone, fun inode lead => ?_⟩
          have kept := whole inode lead
          refine ⟨Bool.eq_false_iff.mpr fun broken => kept (Or.inl broken), ?_⟩
          exact fun other member made => kept (Or.inr ⟨other, member, made⟩)
      | _ => trivial
  | repath fh path =>
      intro file held status inode found part
      simp only [BackingState.step, held] at good
      exact (good fh _ setFile_self status).2 inode found part
  | renameCache path toPath =>
      intro different inode found part fh file held status same
      simp only [BackingState.step, BackingState.renameCache, found] at good
      subst same
      exact (good fh file held status).2 inode (Function.update_self file.path _ _) part
  | _ => trivial

end Steps

/-! ## The start -/

namespace Sound

theorem start (cached : List Path) : Sound (BackingState.start cached) := by
  have leads : forall path inode, (BackingState.start cached).cache path = some inode ->
      path ∈ cached ∧ cached.idxOf path = inode := by
    intro path inode found
    simp only [BackingState.start] at found
    split at found
    · next inside => exact ⟨inside, Option.some.inj found⟩
    · cases found
  refine ⟨fun path inode found => ?_, fun one two inode first second => ?_, fun fh file held => ?_⟩
  · obtain ⟨inside, rfl⟩ := leads path inode found
    exact List.idxOf_lt_length_of_mem inside
  · obtain ⟨inside, first⟩ := leads one inode first
    obtain ⟨-, second⟩ := leads two inode second
    exact (List.idxOf_inj inside).mp (first.trans second.symm)
  · cases held

end Sound

end Backing
end Mcachefs
