import Mcachefs.Stat
import Mcachefs.File.Mfile

namespace Mcachefs
namespace Transfer

open Journal

/-!
# Serving a request

`mcachefs_transfer_do_transfer` looks at the read state and at the metadata of
the file before it starts to copy, and `mcachefs_transfer_do_writeback` reports
the end of a write-back to the journal with `mcachefs_notify_sync_end`.  What
the calls on the way answer is the structure `Serving`; the calls of
`mcachefs_notify_sync_end` are returned as a list.
-/

/-- `MCACHEFS_STATE_*` of the reads. -/
inductive ReadState
  | normal | full | handsup | nocache | quitting
  deriving DecidableEq, Repr

/-- What a request finds while it is served. -/
structure Serving where
  /-- `mcachefs_config_get_read_state()` at the start. -/
  readState : ReadState
  /-- The attributes of `mcachefs_file_get_metadata(mfile)`, if it finds an entry. -/
  metadata : Option Stat
  /-- The `stat` of the file on the source, if there is one. -/
  realstat : Option Stat
  /-- `mcachefs_fileincache(mfile->path)`. -/
  fileincache : Bool
  /-- `mcachefs_createfile_cache(mfile->path, 0644)`. -/
  createfileCache : Int
  /-- `mcachefs_transfer_file`. -/
  transferFile : Int
  /-- `utime` of the file on the source. -/
  utime : Int
  deriving DecidableEq, Repr

/-- A string that is used after it was given back. -/
inductive ServeFault
  | useAfterFree
  deriving DecidableEq, Repr

namespace Serving

/-- `mcachefs_transfer_do_backing`: the open file afterwards.  A copy that
succeeds leaves it with a finished backing. -/
def doBacking (serving : Serving) (mfile : Mfile) : Mfile :=
  if serving.fileincache then mfile
  else if serving.createfileCache ≠ 0 then mfile
  else if serving.transferFile = 0 then { mfile with cache_status := .done }
  else { mfile with cache_status := .error }

/-- The source file is at least as new and has the size of the cached one. -/
def seemsFresher (serving : Serving) (modtime total_size : Int) : Bool :=
  match serving.realstat with
  | none => false
  | some realstat => modtime ≤ realstat.st_mtime ∧ realstat.st_size = total_size

/-- `mcachefs_transfer_do_writeback`, built without
`__MCACHEFS_TRANSFER_SKIP_FRESHER_SAME_SIZE`: the results it reports with
`mcachefs_notify_sync_end`. -/
def doWriteback (serving : Serving) (modtime total_size : Int) : Except ServeFault (List Bool) :=
  -- `realpath` is freed for a fresher file, and used below all the same.
  if serving.seemsFresher modtime total_size then .error .useAfterFree
  else if serving.transferFile = 0 then
    if serving.utime ≠ 0 then .ok [false] else .ok [true]
  else .ok [false]

/-- `mcachefs_transfer_do_transfer`: the open file and the reports. -/
def doTransfer (serving : Serving) (mfile : Mfile) (transfer_type : TransferType) :
    Except ServeFault (Mfile × List Bool) :=
  if serving.readState = .handsup then .ok (mfile, [])
  -- `mcachefs_metadata_fill_entry` reports nothing.
  else if mfile.type = .dir then .ok (mfile, [])
  else
    match serving.metadata with
    | none => .ok (mfile, [])
    | some st =>
        match transfer_type with
        | .backup => .ok (serving.doBacking mfile, [])
        | .writeback => do
            let reports ← serving.doWriteback st.st_mtime st.st_size
            .ok (mfile, reports)
        | .metadata => .ok (mfile, [])

/-! ## Reports of a write-back -/

/-- `mcachefs_transfer_do_transfer` reaches the write-back. -/
def ReachesWriteback (serving : Serving) : Prop :=
  serving.readState ≠ .handsup ∧ serving.metadata ≠ none

/-- The source file is taken for fresher than the cached one. -/
def Fresher (serving : Serving) : Prop :=
  Exists fun st => serving.metadata = some st ∧ serving.seemsFresher st.st_mtime st.st_size = true

theorem doWriteback_reports {serving : Serving} {modtime total_size : Int} {reports : List Bool}
    (result : serving.doWriteback modtime total_size = .ok reports) : reports.length = 1 := by
  unfold doWriteback at result
  split at result
  · cases result
  · split at result
    · split at result <;> cases result <;> rfl
    · cases result
      rfl

theorem doWriteback_ok_iff (serving : Serving) (modtime total_size : Int) :
    (Exists fun reports => serving.doWriteback modtime total_size = .ok reports) ↔
      serving.seemsFresher modtime total_size = false := by
  unfold doWriteback
  cases serving.seemsFresher modtime total_size with
  | true => simp
  | false =>
      simp only [Bool.false_eq_true, if_false, iff_true]
      split
      · split <;> exact ⟨_, rfl⟩
      · exact ⟨_, rfl⟩

/-- Without a hand held up and with metadata, a write-back is what its own
function makes of it. -/
theorem doTransfer_writeback {serving : Serving} {mfile : Mfile} {st : Stat}
    (file : mfile.type = .file) (ready : serving.readState ≠ .handsup)
    (found : serving.metadata = some st) :
    serving.doTransfer mfile .writeback =
      (serving.doWriteback st.st_mtime st.st_size).map fun reports => (mfile, reports) := by
  have notDir : mfile.type ≠ .dir := by simp [file]
  simp only [doTransfer, if_neg ready, if_neg notDir, found]
  cases serving.doWriteback st.st_mtime st.st_size <;> rfl

theorem doTransfer_unreached {serving : Serving} {mfile : Mfile}
    (unreached : ¬ serving.ReachesWriteback) :
    serving.doTransfer mfile .writeback = .ok (mfile, []) := by
  unfold doTransfer
  by_cases handsup : serving.readState = .handsup
  · rw [if_pos handsup]
  · rw [if_neg handsup]
    split
    · rfl
    · have missing : serving.metadata = none := by
        by_contra found
        exact unreached ⟨handsup, found⟩
      rw [missing]

/-- A write-back that is served returns, unless the source file is taken for
fresher and the freed path is used; and it reports exactly once, if it returns,
exactly when the read state lets it start and the file has its metadata. -/
theorem writeback_reports_once_iff (serving : Serving) (mfile : Mfile)
    (file : mfile.type = .file) :
    ((Exists fun result => serving.doTransfer mfile .writeback = .ok result) ↔
        ¬ (serving.ReachesWriteback ∧ serving.Fresher)) ∧
      ((forall after reports, serving.doTransfer mfile .writeback = .ok (after, reports) ->
          reports.length = 1) ↔ serving.ReachesWriteback) := by
  by_cases reaches : serving.ReachesWriteback
  · obtain ⟨ready, some⟩ := reaches
    obtain ⟨st, found⟩ := Option.ne_none_iff_exists'.mp some
    rw [doTransfer_writeback file ready found]
    have returns := serving.doWriteback_ok_iff st.st_mtime st.st_size
    have fresher : serving.Fresher ↔ serving.seemsFresher st.st_mtime st.st_size = true := by
      simp [Fresher, found]
    constructor
    · rw [fresher, and_iff_right ⟨ready, some⟩, Bool.not_eq_true, ← returns]
      cases serving.doWriteback st.st_mtime st.st_size <;> simp [Except.map]
    · refine iff_of_true ?_ ⟨ready, some⟩
      intro after reports result
      cases written : serving.doWriteback st.st_mtime st.st_size with
      | error fault =>
          rw [written] at result
          cases result
      | ok all =>
          rw [written] at result
          cases result
          exact doWriteback_reports written
  · rw [doTransfer_unreached reaches]
    refine ⟨iff_of_true ⟨_, rfl⟩ fun both => reaches both.1, iff_of_false ?_ reaches⟩
    intro once
    exact absurd (once mfile [] rfl) (by decide)

/-- A request that finds its metadata and an older file on the source, and
copies it. -/
def copying : Serving where
  readState := .normal
  metadata := some { Stat.zero with st_size := 3, st_mtime := 2 }
  realstat := some { Stat.zero with st_size := 1, st_mtime := 1 }
  fileincache := true
  createfileCache := 0
  transferFile := 0
  utime := 0

theorem writeback_reports_once_copying :
    copying.ReachesWriteback ∧
      forall after reports, copying.doTransfer (.init (ascii "/a") .file) .writeback =
        .ok (after, reports) -> reports.length = 1 := by
  have reaches : copying.ReachesWriteback := ⟨by decide, by decide⟩
  exact ⟨reaches, (writeback_reports_once_iff copying (.init (ascii "/a") .file) rfl).2.mpr reaches⟩

/-- With the read state set to `HANDSUP` the write-back is dropped without a
report. -/
theorem handsup_reports_nothing :
    ¬ forall after reports,
      { copying with readState := .handsup }.doTransfer (.init (ascii "/a") .file) .writeback =
        .ok (after, reports) -> reports.length = 1 := by
  intro once
  exact absurd (once (.init (ascii "/a") .file) [] rfl) (by decide)

end Serving

end Transfer
end Mcachefs
