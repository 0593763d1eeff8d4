import Mcachefs.File.Mfile
import Mcachefs.Journal.Pending
import Mcachefs.Library.Runs

namespace Mcachefs
namespace Writes

open Library Journal Transfer

/-!
# The writes of one file and their write-backs

This module follows one regular file through opens, writes, renames, journal
applies, transfers and releases.  Only one thing makes a write durable: the
fsync entry that `mcachefs_write_file` appends when it sets the `dirty` flag
of the open file.  The flag is cleared when the structure is freed, and at no
other time.

Other files are present through the entries they append, the requests they
have in the queue, and the reports of their write-backs.  Two fields of the
state are history and belong to no variable of the program: `changed` says
whether the cached content has changed since a write-back of the file last
started to copy, and `phase` what has happened to the write that set `dirty`.
-/

/-- The handle of the open file this module follows. -/
def self : Fh := 0

/-- What has happened since the open file was first written. -/
inductive WritePhase
  /-- It has not been written. -/
  | clean
  /-- No journal has been applied since. -/
  | written
  /-- A journal apply has taken the fsync entry. -/
  | applied
  /-- After that apply, a write-back has started to copy. -/
  | copied
  deriving DecidableEq, Repr

/-- The end of the process. -/
inductive Fault
  | journal (fault : Journal.Fault)
  | zeroUse
  | noFileToBack
  deriving DecidableEq, Repr

structure FileState where
  /-- The full path of the metadata entry. -/
  path : Path
  /-- `mcachefs_fileincache(path)`. -/
  inCache : Bool
  /-- The open file, if the entry has one. -/
  mfile : Option Mfile
  /-- The handles the kernel holds. -/
  handles : Nat
  queue : Queue
  /-- Transfers of this file in progress, to the cache and to the source. -/
  backing : Nat
  copying : Nat
  journal : JournalState
  /-- Write-backs of other files that have yet to report. -/
  others : Nat
  changed : Bool
  phase : WritePhase
  deriving DecidableEq, Repr

/-- The atomic events: a callback, or one end of a transfer. -/
inductive FileEvent
  /-- `open`; `caches` unless it is for reading in the state `NOCACHE`. -/
  | openFile (caches : Bool)
  | write
  | release
  /-- A rename anywhere in the file system. -/
  | rename (renamePath renameTo : Path) (readable : (renameRecord renamePath renameTo).Readable)
  /-- Another callback appends an entry. -/
  | append (record : JournalRecord) (readable : record.Readable)
      (other : record.op ≠ JournalOp.rename.code)
  /-- A journal apply, with what it finds at the paths of other files. -/
  | apply (lookup : Lookup) (others : forall path fh, lookup path = .ok fh -> fh ≠ self)
  /-- Another file asks for a transfer into the cache. -/
  | queueOther (mfile : Fh) (type : TransferType) (other : mfile ≠ self)
  /-- A thread takes a request of its kind and starts to copy. -/
  | start (type : TransferType)
  /-- A transfer of this file into the cache is complete. -/
  | backed
  /-- A write-back of this file is complete; `utime` may have failed. -/
  | copied (success : Bool)
  /-- The write-back of another file reports. -/
  | notifyOther (success : Bool)

namespace FileState

/-- `mcachefs_fileid_get` on the entry of the file. -/
def fileidGet (path : Path) : Option Mfile -> Mfile
  | some mfile => { mfile with use := mfile.use + 1 }
  | none => .init path .file

/-- `mcachefs_transfer_backfile`. -/
def backfile (inCache : Bool) (mfile : Mfile) (queue : Queue) : Mfile × Queue :=
  if mfile.cache_status = .asked ∨ mfile.cache_status = .inProgress ∨
      mfile.cache_status = .done then (mfile, queue)
  else if inCache then ({ mfile with cache_status := .done }, queue)
  else
    ({ mfile with cache_status := .asked, use := mfile.use + 1 },
      (queueFile self .backup queue).2)

/-- `mcachefs_open_mfile` for a regular file. -/
def openMfile (caches inCache : Bool) (mfile : Mfile) (queue : Queue) : Mfile × Queue :=
  if caches then backfile inCache mfile queue
  else if mfile.cache_status = .none ∧ inCache then
    ({ mfile with cache_status := .done }, queue)
  else (mfile, queue)

/-- `mcachefs_file_release`: the last use frees the structure. -/
def fileRelease (state : FileState) : Except Fault FileState :=
  match state.mfile with
  | none => .error .zeroUse
  | some mfile =>
      if mfile.use = 0 then .error .zeroUse
      else if mfile.use = 1 then .ok { state with mfile := none, phase := .clean }
      else .ok { state with mfile := some { mfile with use := mfile.use - 1 } }

/-- `mcachefs_journal_append` on the state. -/
def journalAppend (errno : Nat) (record : JournalRecord) (state : FileState) :
    Except Fault FileState :=
  match Journal.append (.succeed errno) state.journal.journal record with
  | .returned _ journal => .ok { state with journal := { state.journal with journal := journal } }
  | .exited => .error (.journal .exited)
  | .overflow => .error (.journal .overflow)

/-- `mcachefs_notify_sync_end` on the state. -/
def notify (success : Bool) (state : FileState) : Except Fault FileState :=
  match notifySyncEnd success state.journal with
  | .ok journal => .ok { state with journal := journal }
  | .error fault => .error (.journal fault)

/-- What an apply changes besides the journal. -/
structure Applying where
  mfile : Option Mfile
  queue : Queue
  others : Nat

/-- `mcachefs_transfer_writeback` for an fsync entry with the path `entry`. -/
def writeback (path : Path) (inCache : Bool) (lookup : Lookup) (entry : Path)
    (applying : Applying) : Int × Applying :=
  if entry = path then
    if inCache = false then (- Journal.EIO, applying)
    else
      let mfile := fileidGet path applying.mfile
      let (res, queue) := queueFile self .writeback applying.queue
      (res, { applying with mfile := some { mfile with cache_status := .done }, queue := queue })
  else
    match lookup entry with
    | .error res => (res, applying)
    | .ok mfile =>
        let (res, queue) := queueFile mfile .writeback applying.queue
        (res, { applying with
          queue := queue
          others := applying.others + if res = 0 then 1 else 0 })

/-- The path after a rename of `renamePath` to `renameTo`. -/
def moved (renamePath renameTo path : Path) : Path :=
  if Below renamePath path then renameTo ++ path.drop renamePath.length else path

/-- The history of the first write when an apply takes the journal. -/
def WritePhase.afterApply : WritePhase -> WritePhase
  | .written => .applied
  | phase => phase

/-- The same when a write-back of the file starts to copy. -/
def WritePhase.afterCopy : WritePhase -> WritePhase
  | .applied => .copied
  | phase => phase

/-- A thread starts on a request of this file. -/
def startSelf (type : TransferType) (state : FileState) : Except Fault FileState :=
  match state.mfile, type with
  | some mfile, .backup =>
      let mfile :=
        if mfile.cache_status = .asked then { mfile with cache_status := .inProgress } else mfile
      let state := { state with mfile := some mfile }
      -- `mcachefs_transfer_do_backing` gives up on a file that is in the cache.
      if state.inCache then state.fileRelease
      else .ok { state with inCache := true, backing := state.backing + 1 }
  | _, .writeback =>
      .ok { state with
        copying := state.copying + 1
        changed := false
        phase := WritePhase.afterCopy state.phase }
  | _, _ => .ok state

def step (errno : Nat) (state : FileState) (event : FileEvent) : Except Fault FileState :=
  match event with
  | .openFile caches =>
      let (mfile, queue) := openMfile caches state.inCache (fileidGet state.path state.mfile)
        state.queue
      .ok { state with mfile := some mfile, queue := queue, handles := state.handles + 1 }
  | .write =>
      match state.mfile with
      | some mfile =>
          -- Without a handle there is no call; until the cache is ready it waits.
          if state.handles = 0 ∨ mfile.cache_status ≠ .done then .ok state
          else if mfile.dirty then .ok { state with changed := true }
          else
            journalAppend errno (fsyncRecord mfile.path) { state with
              changed := true
              phase := .written
              mfile := some { mfile with dirty := true } }
      | none => .ok state
  | .release =>
      if state.handles = 0 then .ok state
      else fileRelease { state with handles := state.handles - 1 }
  | .rename renamePath renameTo _ =>
      -- `mcachefs_metadata_rename_entry` returns `-EEXIST` for a target that exists.
      if Below renameTo state.path then .ok state
      else
        let path := moved renamePath renameTo state.path
        journalAppend errno (renameRecord renamePath renameTo) { state with
          path := path
          mfile := state.mfile.map fun mfile =>
            if Below renamePath state.path then { mfile with path := path } else mfile }
  | .append record _ _ => journalAppend errno record state
  | .apply lookup _ =>
      match Journal.apply (.onlyWriteback (writeback state.path state.inCache lookup)) errno
          state.journal ⟨state.mfile, state.queue, state.others⟩ with
      | .error fault => .error (.journal fault)
      | .ok (journal, applying) =>
          .ok { state with
            journal := journal
            mfile := applying.mfile
            queue := applying.queue
            others := applying.others
            phase := if state.journal.action = .none ∧ state.journal.journal ≠ none then
              WritePhase.afterApply state.phase else state.phase }
  | .queueOther mfile type _ => .ok { state with queue := (queueFile mfile type state.queue).2 }
  | .start type =>
      match getNextFileToBack type state.queue with
      | none => .error .noFileToBack
      | some (request, queue) =>
          if request.mfile = self then startSelf type { state with queue := queue }
          else .ok { state with queue := queue }
  | .backed =>
      match state.mfile with
      | some mfile =>
          if state.backing = 0 then .ok state
          else fileRelease { state with
            backing := state.backing - 1
            mfile := some { mfile with cache_status := .done } }
      | none => .ok state
  | .copied success =>
      if state.copying = 0 then .ok state
      else
        match notify success state with
        | .error fault => .error fault
        | .ok state => fileRelease { state with copying := state.copying - 1 }
  | .notifyOther success =>
      if state.others = 0 then .ok state
      else notify success { state with others := state.others - 1 }

/-! ## The invariant -/

/-- The requests of this file in the queue. -/
def requests (queue : Queue) : Nat :=
  queue.countP fun request => request.mfile = self

/-- No write is lost: changed content still has its fsync entry, under the
current path, or a write-back that has not started to copy. -/
def NoLostWrite (errno : Nat) (state : FileState) : Prop :=
  state.changed = true ->
    state.path ∈ fsyncPaths errno state.journal.journal ∨ ⟨self, .writeback⟩ ∈ state.queue

/-- The condition under which no write is lost: none goes through an open file
whose first write was applied and has since started to be copied, and no
rename of another path takes the file's fsync entry along.  Paths have to fit
their buffers. -/
def WritesAreTracked (errno : Nat) (state : FileState) : FileEvent -> Prop
  | .write => state.phase ≠ .copied
  | .rename renamePath renameTo _ =>
      (moved renamePath renameTo state.path).length < PATH_MAX ∧
        (renamePath <+: state.path -> Below renamePath state.path ∨
          state.path ∉ fsyncPaths errno state.journal.journal)
  | _ => True

/-- What holds between the events.  `extra` counts the uses of the open file
that the current event has yet to give back. -/
structure Tracked (errno extra : Nat) (state : FileState) : Prop where
  paths : (fsyncRecord state.path).Readable
  written : Written state.journal.journal
  samePath : forall mfile, state.mfile = some mfile -> mfile.path = state.path
  uses : state.handles + requests state.queue + state.backing + state.copying + extra ≤
    (state.mfile.map Mfile.use).getD 0
  dirty : (state.mfile.map Mfile.dirty).getD false = true ↔ state.phase ≠ .clean
  single : requests state.queue ≤ 1
  kinds : forall request, request ∈ state.queue -> request.mfile = self ->
    request.type = .writeback ∨ (request.type = .backup ∧ state.inCache = false)
  uncached : state.inCache = false -> state.changed = false ∧ state.phase = .clean ∧
    state.backing = 0 ∧ forall mfile, state.mfile = some mfile -> mfile.cache_status ≠ .done
  entry : state.phase = .written -> state.path ∈ fsyncPaths errno state.journal.journal
  queued : state.phase = .applied -> ⟨self, .writeback⟩ ∈ state.queue
  kept : state.NoLostWrite errno

end FileState

end Writes
end Mcachefs
