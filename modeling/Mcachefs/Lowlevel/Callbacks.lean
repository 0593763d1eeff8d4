import Mcachefs.Journal.Append
import Mcachefs.Metadata.Fill
import Mcachefs.Vops

namespace Mcachefs
namespace Lowlevel

open Library Metadata Journal
open Transfer (Fh)

/-!
# The callbacks

What `mcachefs-lowlevel.c` does for each call of the kernel that changes a name,
an attribute or a file.  A callback works on the metadata and the open files and
appends to the journal; the files of the cache are outside, and so a callback
gets what the functions that touch them return.
-/

/-- The metadata with the open files, and the records of the journal. -/
structure Mount (Hash : Type) where
  fs : Fs Hash
  journal : List JournalRecord

/-- How a callback ends without returning. -/
inductive Fault
  | metadata (fault : Metadata.Fault)
  /-- A rebuild of the journal writes past the end of a buffer. -/
  | overflow
  /-- `mcachefs_link` does not find what it has just made or looked up. -/
  | noMeta
  /-- `mcachefs_metadata_notify_update` finds no `hardlink`. -/
  | inconsistentHardlink
  /-- An open file that is gone is used, or released once too often. -/
  | deleted
  | zeroUse
  deriving DecidableEq, Repr

/-- What a function returns that returns `0` or a negative code. -/
structure Code where
  value : Int
  nonpositive : value ≤ 0
  deriving DecidableEq, Repr

/-- The `errno` of a system call that has failed. -/
structure Errno where
  value : Nat
  positive : 0 < value
  deriving DecidableEq, Repr

def ENOMEM : Int := 12
def EISDIR : Int := 21
def EBADF : Int := 9

/-- What a write to the file of the action does. -/
inductive VopsAction
  | none
  /-- `mcachefs_journal_apply`, which takes the whole journal or nothing; `inCache`
  is `mcachefs_fileincache`. -/
  | applyJournal (taken : Bool) (inCache : Path -> Bool)
  /-- `mcachefs_metadata_flush`, with the attributes of the root of the source. -/
  | flushMetadata (st : Stat)
  | cleanupCache
  /-- `mcachefs_metadata_fill_meta`, with the place and the prefix of the mount. -/
  | fillCacheMeta (mountpoint : Path) ( cache_prefix : Option Path)

/-- What surrounds one callback. -/
structure Answers (Hash : Type) where
  context : Context
  /-- `mcachefs_makepath_cache` gets its memory. -/
  makepath : Bool
  /-- `mcachefs_createpath_cache` and `mcachefs_createfile_cache`. -/
  createpath : Code
  createfile : Code
  /-- `symlink` and `link` of the cache files. -/
  symlink : Option Errno
  link : Option Errno
  /-- The field `st_dev` of the first path of a link. -/
  st_dev : UInt64
  /-- `mcachefs_file_add`. -/
  file_add : Fs Hash -> Fh
  /-- `mcachefs_config_get_read_state() != MCACHEFS_STATE_NOCACHE || __IS_WRITE(info->flags)`. -/
  caches : Bool
  /-- `mcachefs_fileincache` of the open file. -/
  inCache : Bool
  /-- The code of a write that does not write everything. -/
  pwrite : Option Code
  /-- What a virtual file asks for that is released after writing. -/
  action : VopsAction

/-- The callbacks and their arguments. -/
inductive Callback
  | symlink (path toPath : Path)
  | mknod (path : Path) (mode : UInt32) (rdev : UInt64)
  | mkdir (path : Path) (mode : UInt32)
  | unlink (path : Path)
  | rmdir (path : Path)
  | rename (path toPath : Path)
  | link (fromPath toPath : Path)
  | chmod (path : Path) (mode : UInt32)
  | chown (path : Path) (uid gid : UInt32)
  | truncate (path : Path) (size : Int64)
  | utime (path : Path) (buf : Utimbuf)
  | openFile (path : Path)
  | write (fh : Fh) (size offset : Nat)
  | release (fh : Fh) (isWrite : Bool)
  deriving DecidableEq

/-- A journal record of these paths with all other fields zero. -/
def emptyRecord (op : JournalOp) (path toPath : Path) : JournalRecord where
  op := op.code
  mode := 0
  rdev := 0
  uid := 0
  gid := 0
  size := 0
  utimbuf := .zero
  path := path
  toPath := toPath

/-- A function of the metadata, within a callback. -/
def metadata {Result : Type} (computation : Except Metadata.Fault Result) : Except Fault Result :=
  computation.mapError .metadata

namespace Mount

variable {Hash : Type} [DecidableEq Hash] [Inhabited Hash]

/-- `mcachefs_journal_append`, with files that can be written. -/
def journalAppend (record : JournalRecord) (mount : Mount Hash) : Except Fault (Mount Hash) :=
  match appendRecords mount.journal record with
  | none => .error .overflow
  | some records => .ok { mount with journal := records }

/-- The end of a callback that appends to the journal and succeeds. -/
def succeed (fs : Fs Hash) (record : JournalRecord) (mount : Mount Hash) :
    Except Fault (Int × Mount Hash) := do
  let mount ← { mount with fs := fs }.journalAppend record
  .ok (0, mount)

/-- The loop of `mcachefs_metadata_notify_update`. -/
def notifyLoop (mdata : Id) (st : Stat) : (fuel : Nat) -> (next : Id) -> Fs Hash ->
    Except Fault (Fs Hash)
  | 0, _, _ => .error (.metadata .fuel)
  | fuel + 1, next, fs =>
      if next = 0 then .error (.metadata .nullPointer)
      else
        let fs := fs.modify next fun entry => { entry with st := st }
        if (fs.entries next).hardlink = mdata then .ok fs
        else notifyLoop mdata st fuel (fs.entries next).hardlink fs

/-- `mcachefs_metadata_notify_update`. -/
def notifyUpdate (env : Env Hash) (mdata : Id) (fs : Fs Hash) : Except Fault (Fs Hash) :=
  let st := (fs.entries mdata).st
  if st.isReg = false ∨ st.st_nlink ≤ 1 then .ok fs
  else if (fs.entries mdata).hardlink = 0 then .error .inconsistentHardlink
  else notifyLoop mdata st env.fuel (fs.entries mdata).hardlink fs

variable (env : Env Hash) (answers : Answers Hash) (mount : Mount Hash)

/-! ## Names -/

/-- `mcachefs_symlink`; the link is made at `toPath`. -/
def symlink (path toPath : Path) : Except Fault (Int × Mount Hash) := do
  let (res, fs) ← metadata (mount.fs.makeEntry env answers.context toPath (S_IFLNK ||| 0o777) 0)
  if res ≠ 0 then .ok (-res, { mount with fs := fs })
  else if answers.createpath.value ≠ 0 then .ok (answers.createpath.value, { mount with fs := fs })
  else
    match answers.symlink with
    | some errno => do
        let (_, fs) ← metadata (fs.rmdirUnlink env toPath false)
        .ok (-errno.value, { mount with fs := fs })
    | none => mount.succeed fs (emptyRecord .symlink toPath path)

/-- `mcachefs_mknod`, which makes the cache file last. -/
def mknod (path : Path) (mode : UInt32) (rdev : UInt64) : Except Fault (Int × Mount Hash) := do
  let (res, fs) ← metadata (mount.fs.makeEntry env answers.context path mode rdev)
  if res ≠ 0 then .ok (res, { mount with fs := fs })
  else do
    let (_, mount) ← mount.succeed fs { emptyRecord .mknod path [] with
      mode := mode, rdev := rdev, uid := answers.context.uid, gid := answers.context.gid }
    if mode &&& S_IFMT = S_IFREG then .ok (answers.createfile.value, mount) else .ok (0, mount)

/-- `mcachefs_mkdir`. -/
def mkdir (path : Path) (mode : UInt32) : Except Fault (Int × Mount Hash) := do
  let (res, fs) ← metadata (mount.fs.makeEntry env answers.context path (mode ||| S_IFDIR) 0)
  if res ≠ 0 then .ok (res, { mount with fs := fs })
  else mount.succeed fs { emptyRecord .mkdir path [] with
    mode := mode, uid := answers.context.uid, gid := answers.context.gid }

/-- `mcachefs_unlink` and `mcachefs_rmdir`, without the files of the cache. -/
def remove (path : Path) (isDir : Bool) : Except Fault (Int × Mount Hash) := do
  let (res, fs) ← metadata (mount.fs.rmdirUnlink env path isDir)
  if res ≠ 0 then .ok (res, { mount with fs := fs })
  else mount.succeed fs (emptyRecord (if isDir then .rmdir else .unlink) path [])

def unlink (path : Path) : Except Fault (Int × Mount Hash) :=
  mount.remove env path false

def rmdir (path : Path) : Except Fault (Int × Mount Hash) :=
  mount.remove env path true

/-- `mcachefs_rename`, without the files of the cache. -/
def rename (path toPath : Path) : Except Fault (Int × Mount Hash) := do
  let (res, fs) ← metadata (mount.fs.renameEntry env path toPath)
  if res ≠ 0 then .ok (res, { mount with fs := fs })
  else mount.succeed fs (emptyRecord .rename path toPath)

/-- `mcachefs_link` from where it has made the entry `toid`. -/
def linkJoin (fromPath toPath : Path) (fromst : Stat) (fromid next_hardlink : Id)
    (fs : Fs Hash) : Except Fault (Int × Mount Hash) := do
  let (toid, fs) ← metadata (fs.findLocked env toPath)
  if toid = 0 then .error .noMeta
  else do
    let fs := fs.modify toid fun entry =>
      { entry with
        st := raiseLinks fromst
        hardlink := if next_hardlink ≠ 0 then next_hardlink else fromid }
    let (id, fs) ← metadata (fs.findLocked env fromPath)
    if id = 0 then .error .noMeta
    else
      let fs := fs.modify id fun entry =>
        { entry with st := raiseLinks entry.st, hardlink := toid }
      mount.succeed fs (emptyRecord .link fromPath toPath)

/-- `mcachefs_link`. -/
def link (fromPath toPath : Path) : Except Fault (Int × Mount Hash) := do
  let (fromid, fs) ← metadata (mount.fs.findLocked env fromPath)
  if fromid = 0 then .ok (-ENOENT, { mount with fs := fs })
  else if answers.makepath = false then .ok (-ENOMEM, { mount with fs := fs })
  else
    match answers.link with
    | some errno => .ok (-errno.value, { mount with fs := fs })
    | none => do
        let fromst := (fs.entries fromid).st
        let next_hardlink := (fs.entries fromid).hardlink
        let (res, fs) ← metadata
          (fs.makeEntry env answers.context toPath fromst.st_mode answers.st_dev)
        if res ≠ 0 then .ok (res, { mount with fs := fs })
        else mount.linkJoin env fromPath toPath fromst fromid next_hardlink fs

/-! ## Attributes -/

/-- `mcachefs_chmod`. -/
def chmod (path : Path) (mode : UInt32) : Except Fault (Int × Mount Hash) := do
  let (mdata, fs) ← metadata (mount.fs.findLocked env path)
  if mdata = 0 then .ok (-ENOENT, { mount with fs := fs })
  else do
    let fs ← (fs.modify mdata fun entry => { entry with st := chmodStat mode entry.st })
      |> notifyUpdate env mdata
    mount.succeed fs { emptyRecord .chmod path [] with mode := mode }

/-- `mcachefs_chown`. -/
def chown (path : Path) (uid gid : UInt32) : Except Fault (Int × Mount Hash) :=
  if isVopsFile path then .ok (-ENOSYS, mount)
  else do
    let (mdata, fs) ← metadata (mount.fs.findLocked env path)
    if mdata = 0 then .ok (-ENOENT, { mount with fs := fs })
    else do
      let st := chownStat uid gid (fs.entries mdata).st
      let fs ← (fs.modify mdata fun entry => { entry with st := st }) |> notifyUpdate env mdata
      mount.succeed fs { emptyRecord .chown path [] with uid := st.st_uid, gid := st.st_gid }

/-- `mcachefs_truncate`, without the cache file.  It waits until no one else uses an
open virtual file, and empties that. -/
def truncate (path : Path) (size : Int64) : Except Fault (Int × Mount Hash) := do
  let (mdata, fs) ← metadata (mount.fs.findLocked env path)
  if mdata = 0 then .ok (-ENOENT, { mount with fs := fs })
  else
    let fh := (fs.entries mdata).fh
    let fs := fs.modify mdata fun entry => { entry with st := truncateStat size.toInt entry.st }
    if fh ≠ 0 ∧ fs.mfiles fh = none then .error .deleted
    else if fh ≠ 0 ∧ (fs.mfiles fh).map Mfile.type = some .vops then
      .ok (0, { mount with fs := fs })
    else if isVopsFile path then .ok (0, { mount with fs := fs })
    else mount.succeed fs { emptyRecord .truncate path [] with size := size.toUInt64 }

/-- `mcachefs_utime`. -/
def utime (path : Path) (buf : Utimbuf) : Except Fault (Int × Mount Hash) := do
  let (mdata, fs) ← metadata (mount.fs.findLocked env path)
  if mdata = 0 then .ok (-ENOENT, { mount with fs := fs })
  else
    let fs := fs.modify mdata fun entry => { entry with
      st := utimeStat buf.actime.toInt64.toInt buf.modtime.toInt64.toInt entry.st }
    mount.succeed fs { emptyRecord .utime path [] with utimbuf := buf }

/-! ## Files -/

/-- Change an open file. -/
def setFile (fh : Fh) (mfile : Option Mfile) (mount : Mount Hash) : Mount Hash :=
  { mount with fs := { mount.fs with mfiles := Function.update mount.fs.mfiles fh mfile } }

omit [DecidableEq Hash] [Inhabited Hash] in
/-- `mcachefs_open_mfile`; a virtual file only gets its contents. -/
def openMfile (fh : Fh) : Except Fault (Int × Mount Hash) :=
  match mount.fs.mfiles fh with
  | none => .error .deleted
  | some mfile =>
      if mfile.type ≠ .file then .ok (0, mount)
      else if answers.caches then
        if mfile.cache_status = .asked ∨ mfile.cache_status = .inProgress ∨
            mfile.cache_status = .done then .ok (0, mount)
        else if answers.inCache then
          .ok (0, mount.setFile fh (some { mfile with cache_status := .done }))
        else
          .ok (0, mount.setFile fh
            (some { mfile with cache_status := .asked, use := mfile.use + 1 }))
      else if mfile.cache_status = .none ∧ answers.inCache then
        .ok (0, mount.setFile fh (some { mfile with cache_status := .done }))
      else .ok (0, mount)

/-- `mcachefs_open`. -/
def openFile (path : Path) : Except Fault (Int × Mount Hash) := do
  let (mdata, fs) ← metadata (mount.fs.findLocked env path)
  if mdata = 0 then .ok (-ENOENT, { mount with fs := fs })
  else if (fs.entries mdata).st.isReg = false then .ok (-EISDIR, { mount with fs := fs })
  else
    let type := if isVopsFile path then FileType.vops else .file
    let (fh, fs) ← metadata (fs.fileidGet answers.file_add mdata (some path) type)
    { mount with fs := fs }.openMfile answers fh

/-- `mcachefs_file_get_metadata`. -/
def getMetadata (fh : Fh) (mfile : Mfile) : Except Fault (Id × Mount Hash) :=
  if mfile.metadata_id ≠ 0 then .ok (mfile.metadata_id, mount)
  else do
    let (mdata, fs) ← metadata (mount.fs.findLocked env mfile.path)
    let mount := { mount with fs := fs }
    if mdata = 0 then .ok (0, mount)
    else .ok (mdata, mount.setFile fh (some { mfile with metadata_id := mdata }))

/-- `mcachefs_file_update_metadata`. -/
def updateMetadata (fh : Fh) (mfile : Mfile) (size : Int) (modified : Bool) :
    Except Fault (Mount Hash) := do
  let (mdata, mount) ← mount.getMetadata env fh mfile
  if mdata = 0 then .ok mount
  else do
    let fs ← (mount.fs.modify mdata fun entry =>
      { entry with st := updateStat answers.context.now size modified entry.st })
      |> notifyUpdate env mdata
    .ok { mount with fs := fs }

/-- `mcachefs_write_file`, once the file is in the cache. -/
def writeFile (fh : Fh) (mfile : Mfile) (size offset : Nat) : Except Fault (Int × Mount Hash) :=
  match answers.pwrite with
  | some code => .ok (code.value, mount)
  | none => do
      let written := { mfile with dirty := true }
      let mount := mount.setFile fh (some written)
      let mount ←
        (if mfile.dirty then .ok mount else mount.journalAppend (emptyRecord .fsync mfile.path []))
      let mount ← mount.updateMetadata env answers fh written (offset + size : Nat) true
      .ok (size, mount)

/-- `mcachefs_write`. -/
def write (fh : Fh) (size offset : Nat) : Except Fault (Int × Mount Hash) :=
  if size = 0 then .ok (0, mount)
  else if fh = 0 then .ok (-EBADF, mount)
  else
    match mount.fs.mfiles fh with
    | none => .error .deleted
    | some mfile =>
        match mfile.type with
        | .vops => .ok (size, mount)
        | .file => mount.writeFile env answers fh mfile size offset
        | .dir => .ok (-ENOSYS, mount)

/-- `mcachefs_transfer_writeback`, without the queue. -/
def writeback (inCache : Path -> Bool) (fs : Fs Hash) (record : JournalRecord) :
    Except Metadata.Fault (Fs Hash) :=
  if record.op ≠ JournalOp.fsync.code ∨ inCache record.path = false then .ok fs
  else do
    let (mdata, fs) ← fs.findLocked env record.path
    if mdata = 0 then .ok fs
    else
      let (fh, fs) ← fs.fileidGet answers.file_add mdata (some record.path) .file
      let mfile := (fs.mfiles fh).map fun mfile => { mfile with cache_status := .done }
      .ok { fs with mfiles := Function.update fs.mfiles fh mfile }

/-- `mcachefs_file_timeslices_clear_metadata_id`. -/
def clearMetadataId (mfile : Mfile) : Mfile :=
  if mfile.type = .vops then mfile else { mfile with metadata_id := 0 }

/-- `mcachefs_call_action`. -/
def callAction (action : VopsAction) : Except Fault (Mount Hash) :=
  match action with
  | .none => .ok mount
  | .applyJournal taken inCache =>
      if taken = false then .ok mount
      else do
        let fs ← metadata (mount.journal.foldlM (writeback env answers inCache) mount.fs)
        .ok { mount with fs := fs, journal := [] }
  | .flushMetadata st =>
      if mount.journal ≠ [] then .ok mount
      else do
        let fs := { Fs.format env st with
          mfiles := fun fh => (mount.fs.mfiles fh).map clearMetadataId, reads := mount.fs.reads }
        let fs ← metadata (fs.populateVops env)
        .ok { mount with fs := fs }
  | .cleanupCache => .ok mount
  | .fillCacheMeta _ none => .ok mount
  | .fillCacheMeta mountpoint (some cache_prefix) => do
      let mdata ← metadata (mount.fs.findEntry env mountpoint cache_prefix)
      if mdata = 0 then .ok mount
      else do
        let fs ← metadata (mount.fs.scheduleFillEntry answers.file_add mdata)
        .ok { mount with fs := fs }

omit [DecidableEq Hash] [Inhabited Hash] in
/-- `mcachefs_file_release`. -/
def fileRelease (fh : Fh) : Except Fault (Mount Hash) :=
  match mount.fs.mfiles fh with
  | none => .error .deleted
  | some mfile =>
      if mfile.use = 0 then .error .zeroUse
      else if mfile.use = 1 ∧ mfile.type ≠ .vops then
        let fs :=
          if mfile.metadata_id = 0 then mount.fs
          else mount.fs.modify mfile.metadata_id fun entry => { entry with fh := 0 }
        .ok ({ mount with fs := fs }.setFile fh none)
      else .ok (mount.setFile fh (some { mfile with use := mfile.use - 1 }))

/-- `mcachefs_release`; `isWrite` is `__IS_WRITE(info->flags)`. -/
def release (fh : Fh) (isWrite : Bool) : Except Fault (Int × Mount Hash) :=
  if fh = 0 then .ok (-EBADF, mount)
  else
    match mount.fs.mfiles fh with
    | none => .error .deleted
    | some mfile => do
        let mount ←
          (if mfile.type = .vops ∧ isWrite then mount.callAction env answers answers.action
            else .ok mount)
        let mount ← mount.fileRelease fh
        .ok (0, mount)

end Mount

/-! ## Runs -/

section Runs

variable {Hash : Type} [DecidableEq Hash] [Inhabited Hash] (env : Env Hash)

/-- A callback and its result. -/
def Callback.run (mount : Mount Hash) (answers : Answers Hash) :
    Callback -> Except Fault (Int × Mount Hash)
  | .symlink path toPath => mount.symlink env answers path toPath
  | .mknod path mode rdev => mount.mknod env answers path mode rdev
  | .mkdir path mode => mount.mkdir env answers path mode
  | .unlink path => mount.unlink env path
  | .rmdir path => mount.rmdir env path
  | .rename path toPath => mount.rename env path toPath
  | .link fromPath toPath => mount.link env answers fromPath toPath
  | .chmod path mode => mount.chmod env path mode
  | .chown path uid gid => mount.chown env path uid gid
  | .truncate path size => mount.truncate env path size
  | .utime path buf => mount.utime env path buf
  | .openFile path => mount.openFile env answers path
  | .write fh size offset => mount.write env answers fh size offset
  | .release fh isWrite => mount.release env answers fh isWrite

/-- One callback of a run, with what surrounds it. -/
def step (mount : Mount Hash) (event : Callback × Answers Hash) : Except Fault (Mount Hash) :=
  Prod.snd <$> event.1.run env mount event.2

end Runs

end Lowlevel
end Mcachefs
