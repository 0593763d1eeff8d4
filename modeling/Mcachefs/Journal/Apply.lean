import Mcachefs.Journal.Append

namespace Mcachefs
namespace Journal

open Library

/-!
# Applying the journal

`mcachefs_journal_apply` replays the namespace changes on the source, moves
the journal aside to the fsync file, and asks for one write-back per fsync
entry.  The end of the cycle is detected in two places: in the function
itself, when no write-back is left to wait for, and in
`mcachefs_notify_sync_end`, when the last one reports.

The system calls on the source and the transfer queue belong to other parts of
the program.  They act on a state of type `Rest`, a parameter here.
-/

/-- The calls of `Bug` that these functions contain, the overflow of a path
buffer, and `exit`.  Each of them ends the process. -/
inductive Fault
  | invalidOp
  | couldNotReadEntry
  | alreadyHavePendingFsyncFiles
  | couldNotRename
  | couldNotUnlink
  | overflow
  | exited
  deriving DecidableEq, Repr

/-- `enum mcachefs_journal_action_t`. -/
inductive JournalAction
  | none | update | sync
  deriving DecidableEq, Repr

/-- `struct mcachefs_journal_fsync_t`. -/
structure JournalFsync where
  total_files : Nat
  files_ok : Nat
  files_error : Nat
  deriving DecidableEq, Repr

/-- All three counters reset. -/
def JournalFsync.zero : JournalFsync := ⟨0, 0, 0⟩

/-- The journal, the fsync file next to it, and the two global variables. -/
structure JournalState where
  journal : Option (List Byte)
  fsyncFile : Option (List Byte)
  action : JournalAction
  fsync : JournalFsync
  deriving DecidableEq, Repr

/-- The state at the start of the process: `mcachefs_journal_init` refuses to
run when there is an fsync file. -/
def JournalState.init (journal : Option (List Byte)) : JournalState :=
  ⟨journal, none, .none, .zero⟩

/-- What the journal calls on its way: the system calls on the source, which
report nothing back but a log line, and `mcachefs_transfer_writeback`. -/
structure ApplyCalls (Rest : Type*) where
  mknod : Path -> UInt32 -> UInt64 -> Rest -> Rest
  mkdir : Path -> UInt32 -> Rest -> Rest
  chown : Path -> UInt32 -> UInt32 -> Rest -> Rest
  unlink : Path -> Rest -> Rest
  rmdir : Path -> Rest -> Rest
  rename : Path -> Path -> Rest -> Rest
  symlink : Path -> Path -> Rest -> Rest
  chmod : Path -> UInt32 -> Rest -> Rest
  truncate : Path -> UInt64 -> Rest -> Rest
  utime : Path -> Utimbuf -> Rest -> Rest
  writeback : Path -> Rest -> Int × Rest

/-- The calls of an apply whose source is not part of the state. -/
def ApplyCalls.onlyWriteback {Rest : Type*} (writeback : Path -> Rest -> Int × Rest) :
    ApplyCalls Rest where
  mknod := fun _ _ _ rest => rest
  mkdir := fun _ _ rest => rest
  chown := fun _ _ _ rest => rest
  unlink := fun _ rest => rest
  rmdir := fun _ rest => rest
  rename := fun _ _ rest => rest
  symlink := fun _ _ rest => rest
  chmod := fun _ _ rest => rest
  truncate := fun _ _ rest => rest
  utime := fun _ _ rest => rest
  writeback := writeback

/-- `-EEXIST` of `mcachefs_transfer_queue_file`. -/
def EEXIST : Int := 17

section Calls

variable {Rest : Type*} (calls : ApplyCalls Rest)

/-- `mcachefs_journal_apply_entry`.  Paths are those below the source root. -/
def applyEntry (item : JournalItem) (rest : Rest) : Except Fault Rest :=
  let entry := item.entry
  let path := item.path
  match JournalOp.ofCode entry.op with
  | some .none => .ok rest
  | some .mknod =>
      .ok (calls.chown path entry.uid entry.gid (calls.mknod path entry.mode entry.rdev rest))
  | some .mkdir =>
      .ok (calls.chown path entry.uid entry.gid (calls.mkdir path entry.mode rest))
  | some .unlink => .ok (calls.unlink path rest)
  | some .rmdir => .ok (calls.rmdir path rest)
  | some .rename => .ok (calls.rename path item.toPath rest)
  | some .symlink => .ok (calls.symlink item.toPath path rest)
  | some .link => .ok rest
  | some .chmod => .ok (calls.chmod path entry.mode rest)
  | some .chown => .ok (calls.chown path entry.uid entry.gid rest)
  | some .truncate => .ok (calls.truncate path entry.size rest)
  | some .utime => .ok (calls.utime path entry.utimbuf rest)
  -- A write-back is not an update, and neither is a value without an enumerator.
  | some .fsync => .error .invalidOp
  | none => .error .invalidOp

/-- The loop of `mcachefs_journal_apply_updates` over the entries it reads. -/
def updateLoop : List JournalItem -> Rest -> Except Fault Rest
  | [], rest => .ok rest
  | item :: items, rest =>
      if item.entry.op = JournalOp.fsync.code then updateLoop items rest
      else
        match applyEntry calls item rest with
        | .error fault => .error fault
        | .ok rest => updateLoop items rest

/-- How both loops end once `mcachefs_journal_read_entry` delivers no entry. -/
def endOfLoop {Result : Type*} (last : Option Int) (result : Result) :
    Except Fault (Int × Result) :=
  match last with
  | none => .error .overflow
  | some res => if res < 0 then .error .couldNotReadEntry else .ok (0, result)

/-- `mcachefs_journal_apply_updates`. -/
def applyUpdates (errno : Nat) (journal : Option (List Byte)) (rest : Rest) :
    Except Fault (Int × Rest) :=
  match journal with
  | none => .ok (- EIO, rest)
  | some file =>
      match updateLoop calls (readJournal errno file).1 rest with
      | .error fault => .error fault
      | .ok rest => endOfLoop (readJournal errno file).2 rest

/-- How one fsync entry is counted, by the result of its write-back. -/
def JournalFsync.count (fsync : JournalFsync) (ret : Int) : JournalFsync :=
  let fsync := { fsync with total_files := fsync.total_files + 1 }
  if ret = -EEXIST then { fsync with files_ok := fsync.files_ok + 1 }
  else if ret ≠ 0 then { fsync with files_error := fsync.files_error + 1 }
  else fsync

/-- The loop of `mcachefs_journal_apply_fsync` over the entries it reads. -/
def fsyncLoop : List JournalItem -> JournalFsync × Rest -> JournalFsync × Rest
  | [], result => result
  | item :: items, (fsync, rest) =>
      if item.entry.op ≠ JournalOp.fsync.code then fsyncLoop items (fsync, rest)
      else
        let (ret, rest) := calls.writeback item.path rest
        fsyncLoop items (fsync.count ret, rest)

/-- `mcachefs_journal_apply_fsync`. -/
def applyFsync (errno : Nat) (journal : Option (List Byte)) (fsync : JournalFsync)
    (rest : Rest) : Except Fault (Int × JournalFsync × Rest) :=
  match journal with
  | none => .ok (- EIO, fsync, rest)
  | some file =>
      endOfLoop (readJournal errno file).2 (fsyncLoop calls (readJournal errno file).1 (fsync, rest))

/-- `mcachefs_journal_apply`. -/
def apply (errno : Nat) (state : JournalState) (rest : Rest) :
    Except Fault (JournalState × Rest) :=
  if state.action ≠ .none then .ok (state, rest)
  else if state.fsync.total_files ≠ 0 then .error .alreadyHavePendingFsyncFiles
  else
    let state := { state with fsync := .zero, action := .update }
    match applyUpdates calls errno state.journal rest with
    | .error fault => .error fault
    | .ok (res, rest) =>
        if res ≠ 0 then .ok (state, rest)
        else
          let state := { state with action := .sync }
          if state.journal = none then .error .couldNotRename
          else
            let state := { state with journal := none, fsyncFile := state.journal }
            match applyFsync calls errno state.fsyncFile state.fsync rest with
            | .error fault => .error fault
            | .ok (res, fsync, rest) =>
                let state := { state with fsync := fsync }
                if res ≠ 0 then .ok (state, rest)
                else if fsync.files_ok + fsync.files_error = fsync.total_files then
                  if state.fsyncFile = none then .error .couldNotUnlink
                  -- The counters keep their values on this way out.
                  else .ok ({ state with fsyncFile := none, action := .none }, rest)
                else .ok (state, rest)

/-- What a call of `apply` that returns can have done. -/
inductive Applied (errno : Nat) (state : JournalState) (rest : Rest) :
    JournalState -> Rest -> Prop
  /-- An earlier apply is still at work. -/
  | busy (action : state.action ≠ .none) : Applied errno state rest state rest
  /-- There is no journal file; the action stays at `update`. -/
  | missing (action : state.action = .none) (journal : state.journal = none) :
      Applied errno state rest { state with fsync := .zero, action := .update } rest
  /-- Every fsync entry was settled at once. -/
  | settled (file : List Byte) (updated after : Rest) (fsync : JournalFsync)
      (action : state.action = .none) (journal : state.journal = some file)
      (updates : updateLoop calls (readJournal errno file).1 rest = .ok updated)
      (queues : fsyncLoop calls (readJournal errno file).1 (.zero, updated) = (fsync, after))
      (finished : fsync.files_ok + fsync.files_error = fsync.total_files) :
      Applied errno state rest ⟨none, none, .none, fsync⟩ after
  /-- Some write-back has yet to report. -/
  | waiting (file : List Byte) (updated after : Rest) (fsync : JournalFsync)
      (action : state.action = .none) (journal : state.journal = some file)
      (updates : updateLoop calls (readJournal errno file).1 rest = .ok updated)
      (queues : fsyncLoop calls (readJournal errno file).1 (.zero, updated) = (fsync, after))
      (pending : fsync.files_ok + fsync.files_error ≠ fsync.total_files) :
      Applied errno state rest ⟨none, some file, .sync, fsync⟩ after

theorem endOfLoop_ok {Result : Type*} {last : Option Int} {result after : Result}
    {res : Int} (ended : endOfLoop last result = .ok (res, after)) : res = 0 ∧ after = result := by
  cases last with
  | none => cases ended
  | some last =>
      simp only [endOfLoop] at ended
      split at ended
      · cases ended
      · cases ended
        exact ⟨rfl, rfl⟩

theorem applyUpdates_some {errno : Nat} {file : List Byte} {rest after : Rest} {res : Int}
    (result : applyUpdates calls errno (some file) rest = .ok (res, after)) :
    res = 0 ∧ updateLoop calls (readJournal errno file).1 rest = .ok after := by
  simp only [applyUpdates] at result
  cases updates : updateLoop calls (readJournal errno file).1 rest with
  | error fault => simp [updates] at result
  | ok updated =>
      rw [updates] at result
      obtain ⟨zero, same⟩ := endOfLoop_ok result
      exact ⟨zero, congrArg _ same.symm⟩

/-- Inversion of `apply`. -/
theorem apply_applied {errno : Nat} {state next : JournalState} {rest after : Rest}
    (result : apply calls errno state rest = .ok (next, after)) :
    Applied calls errno state rest next after := by
  unfold apply at result
  by_cases action : state.action = .none
  · rw [if_neg (not_not_intro action)] at result
    by_cases total : state.fsync.total_files = 0
    · rw [if_neg (not_not_intro total)] at result
      cases journal : state.journal with
      | none =>
          simp only [journal, applyUpdates] at result
          have failed : - EIO ≠ 0 := by decide
          rw [if_pos failed] at result
          cases result
          rw [← journal]
          exact .missing action journal
      | some file =>
          simp only [journal] at result
          cases updates : applyUpdates calls errno (some file) rest with
          | error fault => simp [updates] at result
          | ok updated =>
              obtain ⟨res, updated⟩ := updated
              obtain ⟨zero, updateResult⟩ := applyUpdates_some calls updates
              subst zero
              simp only [updates, ne_eq, not_true_eq_false, if_false, reduceCtorEq,
                applyFsync] at result
              cases ended : endOfLoop (readJournal errno file).2
                  (fsyncLoop calls (readJournal errno file).1 (.zero, updated)) with
              | error fault => simp [ended] at result
              | ok looped =>
                  obtain ⟨res, fsync, done⟩ := looped
                  obtain ⟨zero, queues⟩ := endOfLoop_ok ended
                  subst zero
                  simp only [ended, not_true_eq_false, if_false] at result
                  split at result
                  · next finished =>
                      cases result
                      exact .settled file updated _ fsync action journal updateResult
                        queues.symm finished
                  · next pending =>
                      cases result
                      exact .waiting file updated _ fsync action journal updateResult
                        queues.symm pending
    · rw [if_pos total] at result
      cases result
  · rw [if_pos action] at result
    cases result
    exact .busy action

/-! ## Counting write-backs -/

/-- The fsync entries among the items read. -/
def fsyncItems (items : List JournalItem) : List JournalItem :=
  items.filter fun item => item.entry.op = JournalOp.fsync.code

@[simp] theorem JournalFsync.count_total (fsync : JournalFsync) (ret : Int) :
    (fsync.count ret).total_files = fsync.total_files + 1 := by
  unfold count
  split
  · rfl
  · split <;> rfl

/-- Counting an entry settles it at once, unless its write-back is queued. -/
theorem JournalFsync.count_settled (fsync : JournalFsync) (ret : Int) :
    (fsync.count ret).files_ok + (fsync.count ret).files_error + (if ret = 0 then 1 else 0) =
      fsync.files_ok + fsync.files_error + 1 := by
  unfold count
  by_cases already : ret = -EEXIST
  · have nonzero : ret ≠ 0 := by
      rw [already]
      decide
    simp only [if_pos already, if_neg nonzero]
    omega
  · by_cases zero : ret = 0
    · simp only [if_neg already, if_pos zero, if_neg (not_not_intro zero)]
    · simp only [if_neg already, if_pos zero, if_neg zero]
      omega

theorem fsyncLoop_fsync {item : JournalItem} (op : item.entry.op = JournalOp.fsync.code)
    (items : List JournalItem) (fsync : JournalFsync) (rest : Rest) :
    fsyncLoop calls (item :: items) (fsync, rest) =
      fsyncLoop calls items
        (fsync.count (calls.writeback item.path rest).1, (calls.writeback item.path rest).2) := by
  simp only [fsyncLoop, ne_eq, op, not_true_eq_false, if_false]

theorem fsyncLoop_other {item : JournalItem} (op : item.entry.op ≠ JournalOp.fsync.code)
    (items : List JournalItem) (fsync : JournalFsync) (rest : Rest) :
    fsyncLoop calls (item :: items) (fsync, rest) = fsyncLoop calls items (fsync, rest) := by
  simp only [fsyncLoop, ne_eq, op, not_false_eq_true, if_true]

/-- Every fsync entry is counted once. -/
theorem fsyncLoop_total (items : List JournalItem) (fsync : JournalFsync) (rest : Rest) :
    (fsyncLoop calls items (fsync, rest)).1.total_files =
      fsync.total_files + (fsyncItems items).length := by
  induction items generalizing fsync rest with
  | nil => rfl
  | cons item items inductionHypothesis =>
      by_cases op : item.entry.op = JournalOp.fsync.code
      · have split : fsyncItems (item :: items) = item :: fsyncItems items := by
          simp [fsyncItems, op]
        rw [fsyncLoop_fsync calls op, inductionHypothesis, JournalFsync.count_total, split,
          List.length_cons]
        omega
      · have skip : fsyncItems (item :: items) = fsyncItems items := by
          simp [fsyncItems, op]
        rw [fsyncLoop_other calls op, inductionHypothesis, skip]

/-- What the counters miss of the total is what the loop queued, for every
measure of the queue that a write-back raises by one exactly when it
returns `0`. -/
theorem fsyncLoop_outstanding (outstanding : Rest -> Nat)
    (queued : forall path rest, outstanding (calls.writeback path rest).2 =
      outstanding rest + if (calls.writeback path rest).1 = 0 then 1 else 0)
    (items : List JournalItem) (fsync : JournalFsync) (rest : Rest) :
    let result := fsyncLoop calls items (fsync, rest)
    result.1.total_files + (fsync.files_ok + fsync.files_error) + outstanding rest =
      fsync.total_files + (result.1.files_ok + result.1.files_error) + outstanding result.2 := by
  induction items generalizing fsync rest with
  | nil => rfl
  | cons item items inductionHypothesis =>
      by_cases op : item.entry.op = JournalOp.fsync.code
      · have later := inductionHypothesis
          (fsync.count (calls.writeback item.path rest).1) (calls.writeback item.path rest).2
        have settled := fsync.count_settled (calls.writeback item.path rest).1
        rw [queued, JournalFsync.count_total] at later
        simp only [fsyncLoop_fsync calls op] at later ⊢
        omega
      · rw [fsyncLoop_other calls op]
        exact inductionHypothesis fsync rest

/-- What every write-back keeps, the loop keeps. -/
theorem fsyncLoop_preserves (kept : Rest -> Prop)
    (preserved : forall path rest, kept rest -> kept (calls.writeback path rest).2)
    (items : List JournalItem) (fsync : JournalFsync) (rest : Rest) (start : kept rest) :
    kept (fsyncLoop calls items (fsync, rest)).2 := by
  induction items generalizing fsync rest with
  | nil => exact start
  | cons item items inductionHypothesis =>
      by_cases op : item.entry.op = JournalOp.fsync.code
      · rw [fsyncLoop_fsync calls op]
        exact inductionHypothesis _ _ (preserved item.path rest start)
      · rw [fsyncLoop_other calls op]
        exact inductionHypothesis fsync rest start

/-- What the write-back of one entry establishes, the loop establishes. -/
theorem fsyncLoop_reaches (kept reached : Rest -> Prop)
    (preserved : forall path rest, kept rest -> kept (calls.writeback path rest).2)
    (stays : forall path rest, reached rest -> reached (calls.writeback path rest).2)
    {item : JournalItem} (reaches : forall rest, kept rest ->
      reached (calls.writeback item.path rest).2)
    {items : List JournalItem} (member : item ∈ fsyncItems items) (fsync : JournalFsync)
    (rest : Rest) (start : kept rest) : reached (fsyncLoop calls items (fsync, rest)).2 := by
  induction items generalizing fsync rest with
  | nil => exact absurd member List.not_mem_nil
  | cons first items inductionHypothesis =>
      by_cases op : first.entry.op = JournalOp.fsync.code
      · have split : fsyncItems (first :: items) = first :: fsyncItems items := by
          simp [fsyncItems, op]
        rw [split] at member
        rw [fsyncLoop_fsync calls op]
        rcases List.mem_cons.mp member with same | later
        · subst same
          exact fsyncLoop_preserves calls reached stays items _ _ (reaches rest start)
        · exact inductionHypothesis later _ _ (preserved first.path rest start)
      · have skip : fsyncItems (first :: items) = fsyncItems items := by
          simp [fsyncItems, op]
        rw [skip] at member
        rw [fsyncLoop_other calls op]
        exact inductionHypothesis member fsync rest start

end Calls

/-! ## Journals the program writes -/

/-- A journal as appends leave it: readable entries with operations that
`mcachefs_journal_op` has. -/
structure WrittenJournal where
  records : List JournalRecord
  readable : forall record, record ∈ records -> record.Readable
  known : forall record, record ∈ records -> Exists fun op : JournalOp => record.op = op.code

/-- The bytes of the file. -/
def WrittenJournal.file (written : WrittenJournal) : List Byte :=
  encodeJournal written.records

theorem WrittenJournal.readJournal_file (written : WrittenJournal) (errno : Nat) :
    readJournal errno written.file = (written.records.map JournalRecord.item, some 0) :=
  readJournal_encodeJournal errno written.records written.readable

section Calls

variable {Rest : Type*} (calls : ApplyCalls Rest)

theorem applyEntry_known {item : JournalItem} {op : JournalOp} (known : item.entry.op = op.code)
    (other : op ≠ .fsync) (rest : Rest) :
    Exists fun after => applyEntry calls item rest = .ok after := by
  cases op with
  | fsync => exact absurd rfl other
  | _ => exact ⟨_, by simp only [applyEntry, known, JournalOp.ofCode_code]; rfl⟩

/-- The replay of a journal the program wrote runs to its end. -/
theorem updateLoop_written (items : List JournalItem)
    (known : forall item, item ∈ items -> Exists fun op : JournalOp => item.entry.op = op.code)
    (rest : Rest) : Exists fun after => updateLoop calls items rest = .ok after := by
  induction items generalizing rest with
  | nil => exact ⟨rest, rfl⟩
  | cons item items inductionHypothesis =>
      have later := inductionHypothesis
        (fun other member => known other (List.mem_cons_of_mem item member))
      obtain ⟨op, code⟩ := known item List.mem_cons_self
      by_cases fsync : item.entry.op = JournalOp.fsync.code
      · simpa only [updateLoop, fsync, if_true] using later rest
      · have other : op ≠ .fsync := fun same => fsync (same ▸ code)
        obtain ⟨after, applied⟩ := applyEntry_known calls code other rest
        simpa only [updateLoop, fsync, if_false, applied] using later after

/-- Where the source is not part of the state, the replay changes nothing. -/
theorem updateLoop_onlyWriteback (writeback : Path -> Rest -> Int × Rest)
    {items : List JournalItem} {rest after : Rest}
    (updates : updateLoop (.onlyWriteback writeback) items rest = .ok after) : after = rest := by
  induction items with
  | nil =>
      cases updates
      rfl
  | cons item items inductionHypothesis =>
      have applied : applyEntry (.onlyWriteback writeback) item rest = .ok rest ∨
          applyEntry (.onlyWriteback writeback) item rest = .error .invalidOp := by
        simp only [applyEntry, ApplyCalls.onlyWriteback]
        cases JournalOp.ofCode item.entry.op with
        | none => exact Or.inr rfl
        | some op =>
            cases op with
            | fsync => exact Or.inr rfl
            | _ => exact Or.inl rfl
      rw [updateLoop] at updates
      split at updates
      · exact inductionHypothesis updates
      · rcases applied with same | failed
        · rw [same] at updates
          exact inductionHypothesis updates
        · rw [failed] at updates
          cases updates

/-- On a journal the program wrote, `apply` reaches none of its `Bug` calls
when the counters are reset. -/
theorem apply_written (errno : Nat) (state : JournalState) (rest : Rest)
    (written : Option WrittenJournal) (journal : state.journal = written.map WrittenJournal.file)
    (reset : state.action = .none -> state.fsync.total_files = 0) :
    Exists fun next => Exists fun after =>
      apply calls errno state rest = .ok (next, after) := by
  unfold apply
  by_cases action : state.action = .none
  · rw [if_neg (not_not_intro action), if_neg (not_not_intro (reset action))]
    cases written with
    | none =>
        have missing : state.journal = none := journal
        have failed : - EIO ≠ 0 := by decide
        simp only [missing, applyUpdates, if_pos failed]
        exact ⟨_, _, rfl⟩
    | some written =>
        have present : state.journal = some written.file := journal
        have items := written.readJournal_file errno
        obtain ⟨updated, updates⟩ := updateLoop_written calls
          (written.records.map JournalRecord.item)
          (List.forall_mem_map.mpr written.known) rest
        have nonnegative : ¬ (0 : Int) < 0 := by decide
        simp only [present, applyUpdates, applyFsync, items, updates, endOfLoop, nonnegative,
          if_false, ne_eq, not_true_eq_false, reduceCtorEq]
        split
        · exact ⟨_, _, rfl⟩
        · exact ⟨_, _, rfl⟩
  · rw [if_pos action]
    exact ⟨_, _, rfl⟩

end Calls

/-! ## The end of a write-back -/

/-- The counters after one more report. -/
def JournalFsync.report (fsync : JournalFsync) (success : Bool) : JournalFsync :=
  if success then { fsync with files_ok := fsync.files_ok + 1 }
  else { fsync with files_error := fsync.files_error + 1 }

@[simp] theorem JournalFsync.report_total (fsync : JournalFsync) (success : Bool) :
    (fsync.report success).total_files = fsync.total_files := by
  cases success <;> rfl

@[simp] theorem JournalFsync.report_settled (fsync : JournalFsync) (success : Bool) :
    (fsync.report success).files_ok + (fsync.report success).files_error =
      fsync.files_ok + fsync.files_error + 1 := by
  cases success <;> simp only [report, Bool.false_eq_true, if_false, if_true] <;> omega

/-- `mcachefs_notify_sync_end`. -/
def notifySyncEnd (success : Bool) (state : JournalState) : Except Fault JournalState :=
  let fsync := state.fsync.report success
  if fsync.files_ok + fsync.files_error = fsync.total_files then
    if state.fsyncFile = none then .error .couldNotUnlink
    else .ok { state with fsyncFile := none, fsync := .zero, action := .none }
  else .ok { state with fsync := fsync }

/-- A report that settles the last file closes the cycle, and any other one
only counts. -/
theorem notifySyncEnd_of_present (success : Bool) {state : JournalState}
    (present : state.fsyncFile ≠ none) :
    notifySyncEnd success state =
      if state.fsync.files_ok + state.fsync.files_error + 1 = state.fsync.total_files then
        .ok { state with fsyncFile := none, fsync := .zero, action := .none }
      else .ok { state with fsync := state.fsync.report success } := by
  simp only [notifySyncEnd, JournalFsync.report_settled, JournalFsync.report_total, present,
    if_false]

/-- An apply takes the journal file away or leaves it alone. -/
theorem Applied.journal_eq {Rest : Type*} {calls : ApplyCalls Rest} {errno : Nat}
    {state next : JournalState} {rest after : Rest}
    (applied : Applied calls errno state rest next after) :
    next.journal = state.journal ∨ next.journal = none := by
  cases applied with
  | busy action => exact Or.inl rfl
  | missing action journal => exact Or.inl rfl
  | settled => exact Or.inr rfl
  | waiting => exact Or.inr rfl

/-- A notification does not touch the journal file. -/
theorem notifySyncEnd_journal {success : Bool} {state next : JournalState}
    (notified : notifySyncEnd success state = .ok next) : next.journal = state.journal := by
  simp only [notifySyncEnd] at notified
  split at notified
  · split at notified
    · cases notified
    · cases notified
      rfl
  · cases notified
    rfl

/-- `mcachefs_journal_count_entries`: the size of the file over the size of
the fixed part of an entry, whatever the strings take. -/
def countEntries (state : JournalState) : Nat :=
  match state.journal with
  | some file => file.length / entrySize
  | none => 0

/-- On a journal of whole entries a count of zero means that there are none. -/
theorem countEntries_encodeJournal {state : JournalState} {records : List JournalRecord}
    (journal : state.journal = some (encodeJournal records)) :
    countEntries state = 0 ↔ records = [] := by
  simp only [countEntries, journal]
  cases records with
  | nil => simp [encodeJournal]
  | cons record records =>
      have long := record.entrySize_le_encode
      have positive : 0 < (encodeJournal (record :: records)).length / entrySize := by
        apply Nat.div_pos _ (by decide)
        rw [encodeJournal_cons, List.length_append]
        omega
      exact iff_of_false (Nat.ne_of_gt positive) (List.cons_ne_nil record records)

end Journal
end Mcachefs
