import Mcachefs.File.Writes

namespace Mcachefs
namespace Writes

open Library Journal Transfer

/-!
# No write is lost while its handle is not reused too late

Each event of `Mcachefs.File.Writes` keeps the invariant `Tracked` when it
meets the condition `WritesAreTracked`; the lemmas below go through the events
one by one.  The module ends with the run that breaks the condition.
-/

namespace FileState

variable {errno : Nat} {state next : FileState}

/-- Only the journal file matters, not the variables of the apply cycle. -/
theorem Tracked.withJournal {extra : Nat} (tracked : state.Tracked errno extra)
    {journal : JournalState} (same : journal.journal = state.journal.journal) :
    Tracked errno extra { state with journal := journal } where
  paths := tracked.paths
  written := by simpa only [same] using tracked.written
  samePath := tracked.samePath
  uses := tracked.uses
  dirty := tracked.dirty
  single := tracked.single
  kinds := tracked.kinds
  uncached := tracked.uncached
  entry := by simpa only [same] using tracked.entry
  queued := tracked.queued
  kept := by simpa only [NoLostWrite, same] using tracked.kept

/-- Giving back a use keeps the invariant: the last one leaves nothing behind. -/
theorem Tracked.release (tracked : state.Tracked errno 1)
    (released : state.fileRelease = .ok next) : next.Tracked errno 0 := by
  unfold fileRelease at released
  cases present : state.mfile with
  | none => simp [present] at released
  | some mfile =>
      have uses := tracked.uses
      simp only [present, Option.map_some, Option.getD_some] at released uses
      split at released
      · cases released
      · split at released
        · next last =>
            cases released
            exact {
              paths := tracked.paths
              written := tracked.written
              samePath := fun mfile none => by cases none
              uses := by simp only [Option.map_none, Option.getD_none]; omega
              dirty := by simp
              single := tracked.single
              kinds := tracked.kinds
              uncached := fun uncached => by
                obtain ⟨changed, -, backing, -⟩ := tracked.uncached uncached
                exact ⟨changed, rfl, backing, fun mfile none => by cases none⟩
              entry := fun phase => by cases phase
              queued := fun phase => by cases phase
              kept := tracked.kept }
        · cases released
          have dirty := tracked.dirty
          have samePath := tracked.samePath mfile present
          rw [present, Option.map_some, Option.getD_some] at dirty
          exact {
            paths := tracked.paths
            written := tracked.written
            samePath := fun other same => by cases same; exact samePath
            uses := by simp only [Option.map_some, Option.getD_some]; omega
            dirty := dirty
            single := tracked.single
            kinds := tracked.kinds
            uncached := fun uncached => by
              obtain ⟨changed, phase, backing, status⟩ := tracked.uncached uncached
              exact ⟨changed, phase, backing,
                fun other same => by cases same; exact status mfile present⟩
            entry := tracked.entry
            queued := tracked.queued
            kept := tracked.kept }

theorem Tracked.notify_ok {extra : Nat} {success : Bool} (tracked : state.Tracked errno extra)
    (notified : state.notify success = .ok next) :
    next.Tracked errno extra ∧ next.copying = state.copying := by
  unfold notify at notified
  split at notified
  · next journal result =>
      cases notified
      exact ⟨tracked.withJournal (notifySyncEnd_journal result), rfl⟩
  · cases notified

/-! ## Appends -/

/-- What an append to the journal leaves of the state. -/
theorem journalAppend_ok {record : JournalRecord}
    (appended : state.journalAppend errno record = .ok next)
    (written : Written state.journal.journal) (paths : record.Readable) :
    Exists fun journal : JournalState =>
      next = { state with journal := journal } ∧ Written journal.journal ∧
      (forall path, path ∈ fsyncPaths errno state.journal.journal ->
        carried record path ∈ fsyncPaths errno journal.journal) ∧
      (record.op = JournalOp.fsync.code -> record.path ∈ fsyncPaths errno journal.journal) := by
  unfold journalAppend at appended
  cases result : Journal.append (.succeed errno) state.journal.journal record with
  | returned res journal =>
      simp only [result, Except.ok.injEq] at appended
      exact ⟨_, appended.symm, append_written errno written paths result⟩
  | exited => simp [result] at appended
  | overflow => simp [result] at appended

/-- An append that is not a rename takes no pending write away. -/
theorem Tracked.append_ok {extra : Nat} {record : JournalRecord}
    (tracked : state.Tracked errno extra) (paths : record.Readable)
    (other : record.op ≠ JournalOp.rename.code)
    (appended : state.journalAppend errno record = .ok next) : next.Tracked errno extra := by
  obtain ⟨journal, rfl, written, stays, -⟩ := journalAppend_ok appended tracked.written paths
  have same : carried record state.path = state.path := if_neg fun both => other both.1
  exact {
    paths := tracked.paths
    written := written
    samePath := tracked.samePath
    uses := tracked.uses
    dirty := tracked.dirty
    single := tracked.single
    kinds := tracked.kinds
    uncached := tracked.uncached
    entry := fun phase => same ▸ stays state.path (tracked.entry phase)
    queued := tracked.queued
    kept := fun changed => (tracked.kept changed).imp (fun entry => same ▸ stays _ entry) id }

/-- The first write of an open file appends the entry its flag stands for. -/
theorem Tracked.firstWrite {mfile : Mfile} (tracked : state.Tracked errno 0)
    (present : state.mfile = some mfile) (done : mfile.cache_status = .done)
    (appended : journalAppend errno (fsyncRecord mfile.path) { state with
      changed := true, phase := .written, mfile := some { mfile with dirty := true } } =
        .ok next) : next.Tracked errno 0 := by
  have samePath := tracked.samePath mfile present
  obtain ⟨journal, rfl, written, -, own⟩ :=
    journalAppend_ok appended tracked.written (samePath ▸ tracked.paths)
  have entry : state.path ∈ fsyncPaths errno journal.journal := samePath ▸ own rfl
  have uses := tracked.uses
  rw [present, Option.map_some] at uses
  exact {
    paths := tracked.paths
    written := written
    samePath := fun other same => by cases same; exact samePath
    uses := uses
    dirty := by simp
    single := tracked.single
    kinds := tracked.kinds
    uncached := fun uncached => absurd done ((tracked.uncached uncached).2.2.2 mfile present)
    entry := fun _ => entry
    queued := fun phase => by cases phase
    kept := fun _ => Or.inl entry }

/-- A later write relies on what became of the first one. -/
theorem Tracked.laterWrite {mfile : Mfile} (tracked : state.Tracked errno 0)
    (present : state.mfile = some mfile) (done : mfile.cache_status = .done)
    (dirty : mfile.dirty = true) (phase : state.phase ≠ .copied) :
    Tracked errno 0 { state with changed := true } where
  paths := tracked.paths
  written := tracked.written
  samePath := tracked.samePath
  uses := tracked.uses
  dirty := tracked.dirty
  single := tracked.single
  kinds := tracked.kinds
  uncached := fun uncached => absurd done ((tracked.uncached uncached).2.2.2 mfile present)
  entry := tracked.entry
  queued := tracked.queued
  kept := fun _ => by
    have notClean : state.phase ≠ .clean := by
      apply tracked.dirty.mp
      rw [present]
      exact dirty
    cases which : state.phase with
    | clean => exact absurd which notClean
    | written => exact Or.inl (tracked.entry which)
    | applied => exact Or.inr (tracked.queued which)
    | copied => exact absurd which phase

/-- A rename takes the path of the entry along with the path of the file. -/
theorem Tracked.rename_ok {renamePath renameTo : Path} (tracked : state.Tracked errno 0)
    (paths : (renameRecord renamePath renameTo).Readable)
    (short : (moved renamePath renameTo state.path).length < PATH_MAX)
    (condition : renamePath <+: state.path -> Below renamePath state.path ∨
      state.path ∉ fsyncPaths errno state.journal.journal)
    (appended : journalAppend errno (renameRecord renamePath renameTo) { state with
      path := moved renamePath renameTo state.path
      mfile := state.mfile.map fun mfile =>
        if Below renamePath state.path then
          { mfile with path := moved renamePath renameTo state.path } else mfile } =
        .ok next) : next.Tracked errno 0 := by
  obtain ⟨journal, rfl, written, stays, -⟩ := journalAppend_ok appended tracked.written paths
  have entry : state.path ∈ fsyncPaths errno state.journal.journal ->
      moved renamePath renameTo state.path ∈ fsyncPaths errno journal.journal := by
    intro member
    have follows : carried (renameRecord renamePath renameTo) state.path =
        moved renamePath renameTo state.path := by
      simp only [carried, renameRecord, true_and, moved]
      by_cases below : Below renamePath state.path
      · rw [if_pos below.isPrefix, if_pos below]
      · have apart : ¬ renamePath <+: state.path :=
          fun starts => (condition starts).elim below (fun absent => absent member)
        rw [if_neg apart, if_neg below]
    exact follows ▸ stays state.path member
  have fields : forall mfile, state.mfile = some mfile ->
      (if Below renamePath state.path then
        { mfile with path := moved renamePath renameTo state.path } else mfile) =
      { mfile with path := moved renamePath renameTo state.path } := by
    intro mfile present
    by_cases below : Below renamePath state.path
    · rw [if_pos below]
    · rw [if_neg below, moved, if_neg below, ← tracked.samePath mfile present]
  have mfile : (state.mfile.map fun mfile => if Below renamePath state.path then
      { mfile with path := moved renamePath renameTo state.path } else mfile) =
      state.mfile.map fun mfile => { mfile with path := moved renamePath renameTo state.path } :=
    Option.map_congr fun mfile present => fields mfile present
  rw [mfile]
  have noNul : (0 : Byte) ∉ moved renamePath renameTo state.path := by
    unfold moved
    split
    · exact noNul_append_drop _ paths.to_noNul tracked.paths.path_noNul
    · exact tracked.paths.path_noNul
  exact {
    paths := ⟨noNul, tracked.paths.to_noNul, short, tracked.paths.to_short⟩
    written := written
    samePath := fun mfile same => by
      obtain ⟨_, -, rfl⟩ := Option.map_eq_some_iff.mp same
      rfl
    uses := by simpa only [Option.map_map, Function.comp_def] using tracked.uses
    dirty := by simpa only [Option.map_map, Function.comp_def] using tracked.dirty
    single := tracked.single
    kinds := tracked.kinds
    uncached := fun uncached => by
      obtain ⟨changed, phase, backing, status⟩ := tracked.uncached uncached
      refine ⟨changed, phase, backing, fun mfile same => ?_⟩
      obtain ⟨other, present, rfl⟩ := Option.map_eq_some_iff.mp same
      exact status other present
    entry := fun phase => entry (tracked.entry phase)
    queued := tracked.queued
    kept := fun changed => (tracked.kept changed).imp entry id }

/-! ## Requests -/

theorem requests_queueFile_other {mfile : Fh} (other : mfile ≠ self) (type : TransferType)
    (queue : Queue) : requests (queueFile mfile type queue).2 = requests queue := by
  unfold queueFile
  split
  · rfl
  · simp [requests, List.countP_append, other]

theorem requests_queueFile_self (type : TransferType) (queue : Queue) :
    requests (queueFile self type queue).2 = max 1 (requests queue) := by
  unfold queueFile
  split
  · next already =>
      have positive : 0 < requests queue := by
        simpa [requests, List.countP_pos_iff] using already
      rw [Nat.max_eq_right positive]
  · next none =>
      have zero : requests queue = 0 := by
        simpa [requests, List.countP_eq_zero] using none
      simp only [requests] at zero ⊢
      simp [List.countP_append, zero]

theorem requests_taken {type : TransferType} {queue rest : Queue} {request : Request}
    (taken : getNextFileToBack type queue = some (request, rest)) :
    requests queue = requests rest + if request.mfile = self then 1 else 0 := by
  obtain ⟨-, before, after, rfl, rfl⟩ := getNextFileToBack_some taken
  simp only [requests, List.countP_append, List.countP_cons, decide_eq_true_eq]
  omega

theorem mem_taken {type : TransferType} {queue rest : Queue} {request other : Request}
    (taken : getNextFileToBack type queue = some (request, rest)) :
    other ∈ queue ↔ other = request ∨ other ∈ rest := by
  obtain ⟨-, before, after, rfl, rfl⟩ := getNextFileToBack_some taken
  simp only [List.mem_append, List.mem_cons]
  tauto

/-- A request of another file changes nothing for this one. -/
theorem Tracked.queueOther {extra : Nat} {mfile : Fh} (tracked : state.Tracked errno extra)
    (other : mfile ≠ self) (type : TransferType) :
    Tracked errno extra { state with queue := (queueFile mfile type state.queue).2 } where
  paths := tracked.paths
  written := tracked.written
  samePath := tracked.samePath
  uses := by simpa only [requests_queueFile_other other] using tracked.uses
  dirty := tracked.dirty
  single := by simpa only [requests_queueFile_other other] using tracked.single
  kinds := fun request member own => by
    rcases mem_queueFile member with old | new
    · exact tracked.kinds request old own
    · rw [new] at own
      exact absurd own other
  uncached := tracked.uncached
  entry := tracked.entry
  queued := fun phase => subset_queueFile mfile type _ (tracked.queued phase)
  kept := fun changed => (tracked.kept changed).imp id (fun old => subset_queueFile mfile type _ old)

/-! ## Opening -/

theorem fileidGet_fields (path : Path) (mfile : Option Mfile) :
    (fileidGet path mfile).use = (mfile.map Mfile.use).getD 0 + 1 ∧
      (fileidGet path mfile).dirty = (mfile.map Mfile.dirty).getD false := by
  cases mfile <;> exact ⟨rfl, rfl⟩

/-- A file structure for the entry is found or made. -/
theorem Tracked.fileidGet_ok {extra : Nat} (tracked : state.Tracked errno extra) :
    Tracked errno (extra + 1) { state with mfile := some (fileidGet state.path state.mfile) } := by
  obtain ⟨use, dirty⟩ := fileidGet_fields state.path state.mfile
  have uses := tracked.uses
  exact {
    paths := tracked.paths
    written := tracked.written
    samePath := fun mfile same => by
      cases same
      cases present : state.mfile with
      | none => rfl
      | some mfile => exact tracked.samePath mfile present
    uses := by
      rw [Option.map_some, Option.getD_some, use]
      simp only
      omega
    dirty := by simpa only [Option.map_some, Option.getD_some, dirty] using tracked.dirty
    single := tracked.single
    kinds := tracked.kinds
    uncached := fun uncached => by
      obtain ⟨changed, phase, backing, status⟩ := tracked.uncached uncached
      refine ⟨changed, phase, backing, fun mfile same => ?_⟩
      cases same
      cases present : state.mfile with
      | none => exact (by decide : CacheStatus.none ≠ .done)
      | some mfile => exact status mfile present
    entry := tracked.entry
    queued := tracked.queued
    kept := tracked.kept }

/-- The status may be set as long as a file marked as done is in the cache. -/
theorem Tracked.setStatus {extra : Nat} {mfile : Mfile} (tracked : state.Tracked errno extra)
    (present : state.mfile = some mfile) (status : CacheStatus)
    (cached : status = .done -> state.inCache = true) :
    Tracked errno extra { state with mfile := some { mfile with cache_status := status } } := by
  have uses := tracked.uses
  have dirty := tracked.dirty
  rw [present, Option.map_some] at uses dirty
  exact {
    paths := tracked.paths
    written := tracked.written
    samePath := fun other same => by cases same; exact tracked.samePath mfile present
    uses := uses
    dirty := dirty
    single := tracked.single
    kinds := tracked.kinds
    uncached := fun uncached => by
      obtain ⟨changed, phase, backing, -⟩ := tracked.uncached uncached
      refine ⟨changed, phase, backing, fun other same done => ?_⟩
      cases same
      rw [cached done] at uncached
      cases uncached
    entry := tracked.entry
    queued := tracked.queued
    kept := tracked.kept }

/-- A request of this file takes one of its uses. -/
theorem Tracked.queueSelf {extra : Nat} (tracked : state.Tracked errno (extra + 1))
    (type : TransferType)
    (kind : type = .writeback ∨ (type = .backup ∧ state.inCache = false)) :
    Tracked errno extra { state with queue := (queueFile self type state.queue).2 } where
  paths := tracked.paths
  written := tracked.written
  samePath := tracked.samePath
  uses := by
    have uses := tracked.uses
    simp only [requests_queueFile_self]
    omega
  dirty := tracked.dirty
  single := by
    have single := tracked.single
    simp only [requests_queueFile_self]
    omega
  kinds := fun request member own => by
    rcases mem_queueFile member with old | new
    · exact tracked.kinds request old own
    · rw [new]
      exact kind
  uncached := tracked.uncached
  entry := tracked.entry
  queued := fun phase => subset_queueFile self type _ (tracked.queued phase)
  kept := fun changed => (tracked.kept changed).imp id (fun old => subset_queueFile self type _ old)

/-- The new handle takes one of the uses. -/
theorem Tracked.addHandle {extra : Nat} (tracked : state.Tracked errno (extra + 1)) :
    Tracked errno extra { state with handles := state.handles + 1 } :=
  { tracked with uses := Nat.le_trans (by simp only; omega) tracked.uses }

theorem Tracked.backfile_ok {mfile : Mfile} (tracked : state.Tracked errno 1)
    (present : state.mfile = some mfile) :
    Tracked errno 1 { state with
      mfile := some (backfile state.inCache mfile state.queue).1
      queue := (backfile state.inCache mfile state.queue).2 } := by
  unfold backfile
  split
  · rw [← present]
    exact tracked
  · split
    · next cached => exact tracked.setStatus present .done (fun _ => cached)
    · next uncached =>
        have status := tracked.setStatus present .asked (fun done => by cases done)
        have uses := status.uses
        have used : Tracked errno 2 { state with
            mfile := some { mfile with cache_status := .asked, use := mfile.use + 1 } } :=
          { status with
            samePath := fun other same => by cases same; exact tracked.samePath mfile present
            uses := by
              simp only [Option.map_some, Option.getD_some] at uses ⊢
              omega
            uncached := fun uncached => by
              obtain ⟨changed, phase, backing, -⟩ := tracked.uncached uncached
              exact ⟨changed, phase, backing, fun other same done => by cases same; cases done⟩ }
        exact used.queueSelf .backup (Or.inr ⟨rfl, Bool.eq_false_iff.mpr uncached⟩)

theorem Tracked.open_ok (caches : Bool) (tracked : state.Tracked errno 0) :
    Tracked errno 0 { state with
      mfile := some (openMfile caches state.inCache (fileidGet state.path state.mfile)
        state.queue).1
      queue := (openMfile caches state.inCache (fileidGet state.path state.mfile) state.queue).2
      handles := state.handles + 1 } := by
  have found := tracked.fileidGet_ok
  have opened : Tracked errno 1 { state with
      mfile := some (openMfile caches state.inCache (fileidGet state.path state.mfile)
        state.queue).1
      queue := (openMfile caches state.inCache (fileidGet state.path state.mfile)
        state.queue).2 } := by
    unfold openMfile
    split
    · exact found.backfile_ok rfl
    · split
      · next cached => exact found.setStatus rfl .done (fun _ => cached.2)
      · exact found
  exact opened.addHandle

/-! ## Transfers -/

/-- What a thread leaves of the queue when it takes a request. -/
theorem Tracked.taken {type : TransferType} {request : Request} {queue : Queue}
    (tracked : state.Tracked errno 0)
    (took : getNextFileToBack type state.queue = some (request, queue))
    (stays : request.mfile = self -> state.phase ≠ .applied ∧ state.changed = false) :
    Tracked errno (if request.mfile = self then 1 else 0) { state with queue := queue } := by
  have count := requests_taken took
  have survives : ⟨self, .writeback⟩ ∈ state.queue -> request.mfile ≠ self ->
      ⟨self, .writeback⟩ ∈ queue := by
    intro member other
    rcases (mem_taken took).mp member with same | rest
    · exact absurd (congrArg Request.mfile same.symm) other
    · exact rest
  exact {
    paths := tracked.paths
    written := tracked.written
    samePath := tracked.samePath
    uses := by
      have uses := tracked.uses
      rw [count] at uses
      simp only
      omega
    dirty := tracked.dirty
    single := by
      have single := tracked.single
      simp only
      omega
    kinds := fun other member => tracked.kinds other ((mem_taken took).mpr (Or.inr member))
    uncached := tracked.uncached
    entry := tracked.entry
    queued := fun phase => survives (tracked.queued phase) (fun own => (stays own).1 phase)
    kept := fun changed => (tracked.kept changed).imp id fun member =>
      survives member (fun own => by rw [(stays own).2] at changed; cases changed) }

/-- A backup is only ever requested for a file that is not in the cache, so
that nothing about the file's content is pending when it starts. -/
theorem Tracked.startBackup {request : Request} {queue : Queue}
    (tracked : state.Tracked errno 0)
    (took : getNextFileToBack .backup state.queue = some (request, queue))
    (own : request.mfile = self)
    (started : startSelf .backup { state with queue := queue } = .ok next) :
    next.Tracked errno 0 := by
  have member : request ∈ state.queue := (mem_taken took).mpr (Or.inl rfl)
  have kind : request.type = .backup := (getNextFileToBack_some took).1
  have uncached : state.inCache = false := by
    rcases tracked.kinds request member own with writeback | backup
    · rw [kind] at writeback
      cases writeback
    · exact backup.2
  obtain ⟨unchanged, clean, -, -⟩ := tracked.uncached uncached
  have taken := tracked.taken took (fun _ => ⟨by rw [clean]; decide, unchanged⟩)
  rw [if_pos own] at taken
  have none : requests queue = 0 := by
    have count := requests_taken took
    have single := tracked.single
    rw [if_pos own] at count
    omega
  cases present : state.mfile with
  | none =>
      have uses := taken.uses
      simp [present] at uses
  | some mfile =>
      have marked : Tracked errno 1 { state with
          queue := queue
          mfile := some (if mfile.cache_status = .asked then
            { mfile with cache_status := .inProgress } else mfile) } := by
        split
        · exact taken.setStatus present .inProgress (fun done => by cases done)
        · rw [← present]
          exact taken
      simp only [startSelf, present, uncached, Bool.false_eq_true, if_false,
        Except.ok.injEq] at started
      subst started
      exact { marked with
        uses := by
          have uses := marked.uses
          simp only at uses ⊢
          omega
        kinds := fun other inside mine => by
          have positive : 0 < requests queue :=
            List.countP_pos_iff.mpr ⟨other, inside, decide_eq_true mine⟩
          omega
        uncached := fun impossible => by cases impossible }

/-- When a write-back starts to copy, the content counts as unchanged. -/
theorem Tracked.startWriteback {request : Request} {queue : Queue}
    (tracked : state.Tracked errno 0)
    (took : getNextFileToBack .writeback state.queue = some (request, queue))
    (own : request.mfile = self)
    (started : startSelf .writeback { state with queue := queue } = .ok next) :
    next.Tracked errno 0 := by
  have copies : next = { state with
      queue := queue
      copying := state.copying + 1
      changed := false
      phase := WritePhase.afterCopy state.phase } := by
    cases present : state.mfile with
    | none =>
        simp only [startSelf, present, Except.ok.injEq] at started
        exact started.symm
    | some mfile =>
        simp only [startSelf, present, Except.ok.injEq] at started
        exact started.symm
  have count := requests_taken took
  rw [if_pos own] at count
  have phases : WritePhase.afterCopy state.phase ≠ .applied ∧
      (WritePhase.afterCopy state.phase = .written -> state.phase = .written) ∧
      (WritePhase.afterCopy state.phase = .clean ↔ state.phase = .clean) := by
    cases state.phase <;> decide
  subst copies
  exact {
    paths := tracked.paths
    written := tracked.written
    samePath := tracked.samePath
    uses := by
      have uses := tracked.uses
      simp only
      omega
    dirty := tracked.dirty.trans (not_congr phases.2.2.symm)
    single := by
      have single := tracked.single
      simp only
      omega
    kinds := fun other member => tracked.kinds other ((mem_taken took).mpr (Or.inr member))
    uncached := fun uncached => by
      obtain ⟨-, phase, backing, status⟩ := tracked.uncached uncached
      exact ⟨rfl, phases.2.2.mpr phase, backing, status⟩
    entry := fun phase => tracked.entry (phases.2.1 phase)
    queued := fun phase => absurd phase phases.1
    kept := fun changed => by cases changed }

/-! ## Journal applies -/

/-- The state with the variables an apply works on. -/
def withApplying (state : FileState) (applying : Applying) : FileState :=
  { state with mfile := applying.mfile, queue := applying.queue, others := applying.others }

theorem queue_subset_writeback (path : Path) (inCache : Bool) (lookup : Lookup) (entry : Path)
    (applying : Applying) :
    applying.queue ⊆ (writeback path inCache lookup entry applying).2.queue := by
  unfold writeback
  split
  · split
    · exact List.Subset.refl _
    · exact subset_queueFile self .writeback applying.queue
  · split
    · exact List.Subset.refl _
    · exact subset_queueFile _ .writeback applying.queue

/-- The write-back of one fsync entry, of this file or of another. -/
theorem Tracked.writeback_ok {lookup : Lookup}
    (others : forall path fh, lookup path = .ok fh -> fh ≠ self) (entry : Path)
    (applying : Applying) (tracked : Tracked errno 0 (state.withApplying applying)) :
    Tracked errno 0 (state.withApplying
      (writeback state.path state.inCache lookup entry applying).2) := by
  unfold writeback
  split
  · split
    · exact tracked
    · next cached =>
        have done := tracked.fileidGet_ok.setStatus rfl .done
          (fun _ => (Bool.not_eq_false _).mp cached)
        exact done.queueSelf .writeback (Or.inl rfl)
  · split
    · exact tracked
    · next mfile found =>
        have queued := tracked.queueOther (others entry mfile found) .writeback
        exact { queued with }

/-- The entry of this file gets a write-back of this file into the queue. -/
theorem Tracked.writeback_queued {lookup : Lookup}
    (others : forall path fh, lookup path = .ok fh -> fh ≠ self) (applying : Applying)
    (tracked : Tracked errno 0 (state.withApplying applying)) (cached : state.inCache = true) :
    ⟨self, .writeback⟩ ∈
      (writeback state.path state.inCache lookup state.path applying).2.queue := by
  have after := tracked.writeback_ok others state.path
  have queue : (writeback state.path state.inCache lookup state.path applying).2.queue =
      (queueFile self .writeback applying.queue).2 := by
    simp only [writeback, if_true, cached, Bool.true_eq_false, if_false]
  obtain ⟨request, member, own⟩ := queueFile_queued self .writeback applying.queue
  rw [← queue] at member
  rcases after.kinds request member own with kind | ⟨-, uncached⟩
  · cases request
    cases own
    cases kind
    exact member
  · have impossible : state.inCache = false := uncached
    rw [cached] at impossible
    cases impossible

theorem Tracked.apply_ok {lookup : Lookup} {journal : JournalState} {applying : Applying}
    (tracked : state.Tracked errno 0)
    (others : forall path fh, lookup path = .ok fh -> fh ≠ self)
    (applied : Applied (.onlyWriteback (writeback state.path state.inCache lookup)) errno
      state.journal ⟨state.mfile, state.queue, state.others⟩ journal applying) :
    Tracked errno 0 { state with
      journal := journal
      mfile := applying.mfile
      queue := applying.queue
      others := applying.others
      phase := if state.journal.action = .none ∧ state.journal.journal ≠ none then
        WritePhase.afterApply state.phase else state.phase } := by
  -- A cycle that starts takes the journal file and walks through its entries.
  have starts : forall (file : List Byte) (updated : Applying) (fsync : JournalFsync)
      (journal : JournalState), journal.journal = none ->
      state.journal.action = .none -> state.journal.journal = some file ->
      updateLoop (.onlyWriteback (writeback state.path state.inCache lookup))
        (readJournal errno file).1 ⟨state.mfile, state.queue, state.others⟩ = .ok updated ->
      fsyncLoop (.onlyWriteback (writeback state.path state.inCache lookup))
        (readJournal errno file).1 (.zero, updated) = (fsync, applying) ->
      Tracked errno 0 { state with
        journal := journal
        mfile := applying.mfile
        queue := applying.queue
        others := applying.others
        phase := if state.journal.action = .none ∧ state.journal.journal ≠ none then
          WritePhase.afterApply state.phase else state.phase } := by
    intro file updated fsync journal gone action present updates queues
    have same := updateLoop_onlyWriteback _ updates
    subst same
    have looped : Tracked errno 0 (state.withApplying applying) := by
      have all := fsyncLoop_preserves
        (.onlyWriteback (writeback state.path state.inCache lookup))
        (fun applying => Tracked errno 0 (state.withApplying applying))
        (fun entry applying kept => kept.writeback_ok others entry)
        (readJournal errno file).1 .zero ⟨state.mfile, state.queue, state.others⟩ tracked
      rw [queues] at all
      exact all
    have reached : state.path ∈ fsyncPaths errno state.journal.journal ->
        state.inCache = true -> ⟨self, .writeback⟩ ∈ applying.queue := by
      intro entry cached
      rw [present, fsyncPaths, Option.getD_some] at entry
      obtain ⟨item, member, path⟩ := List.mem_map.mp entry
      have all := fsyncLoop_reaches
        (.onlyWriteback (writeback state.path state.inCache lookup))
        (fun applying => Tracked errno 0 (state.withApplying applying))
        (fun applying => ⟨self, .writeback⟩ ∈ applying.queue)
        (fun entry applying kept => kept.writeback_ok others entry)
        (fun entry applying member => queue_subset_writeback _ _ _ _ _ member)
        (fun applying kept => path ▸ kept.writeback_queued others applying cached)
        member .zero ⟨state.mfile, state.queue, state.others⟩ tracked
      rw [queues] at all
      exact all
    have cached : state.changed = true ∨ state.phase ≠ .clean -> state.inCache = true := by
      intro either
      cases uncached : state.inCache with
      | true => rfl
      | false =>
          obtain ⟨unchanged, clean, -, -⟩ := tracked.uncached uncached
          rcases either with changed | phase
          · rw [unchanged] at changed
            cases changed
          · exact absurd clean phase
    have effective : state.journal.action = .none ∧ state.journal.journal ≠ none :=
      ⟨action, by rw [present]; exact Option.some_ne_none file⟩
    rw [if_pos effective]
    have phases : WritePhase.afterApply state.phase ≠ .written ∧
        (WritePhase.afterApply state.phase = .applied ->
          state.phase = .written ∨ state.phase = .applied) ∧
        (WritePhase.afterApply state.phase = .clean ↔ state.phase = .clean) := by
      cases state.phase <;> decide
    exact {
      paths := looped.paths
      written := by rw [gone]; exact written_none
      samePath := looped.samePath
      uses := looped.uses
      dirty := looped.dirty.trans (not_congr phases.2.2.symm)
      single := looped.single
      kinds := looped.kinds
      uncached := fun uncached => by
        obtain ⟨changed, phase, backing, status⟩ := looped.uncached uncached
        exact ⟨changed, phases.2.2.mpr phase, backing, status⟩
      entry := fun phase => absurd phase phases.1
      queued := fun phase => by
        rcases phases.2.1 phase with written | applied
        · exact reached (tracked.entry written) (cached (Or.inr (by rw [written]; decide)))
        · exact looped.queued applied
      kept := fun changed => Or.inr <| by
        rcases tracked.kept changed with entry | request
        · exact reached entry (cached (Or.inl changed))
        · have all := fsyncLoop_preserves
            (.onlyWriteback (writeback state.path state.inCache lookup))
            (fun applying => ⟨self, .writeback⟩ ∈ applying.queue)
            (fun entry applying member => queue_subset_writeback _ _ _ _ _ member)
            (readJournal errno file).1 .zero ⟨state.mfile, state.queue, state.others⟩ request
          rw [queues] at all
          exact all }
  cases applied with
  | busy action =>
      rw [if_neg (fun both => action both.1)]
      exact tracked
  | missing action journal =>
      rw [if_neg (fun both => both.2 journal)]
      exact tracked.withJournal rfl
  | settled file updated _ fsync action present updates queues finished =>
      exact starts file updated fsync _ rfl action present updates queues
  | waiting file updated _ fsync action present updates queues pending =>
      exact starts file updated fsync _ rfl action present updates queues

/-! ## Runs -/

/-- Every event that meets the condition keeps the invariant. -/
theorem Tracked.step_ok {event : FileEvent} (tracked : state.Tracked errno 0)
    (condition : state.WritesAreTracked errno event)
    (result : state.step errno event = .ok next) : next.Tracked errno 0 := by
  cases event with
  | openFile caches =>
      cases result
      exact tracked.open_ok caches
  | write =>
      simp only [step] at result
      split at result
      · next mfile present =>
          split at result
          · cases result
            exact tracked
          · next ready =>
              have done : mfile.cache_status = .done :=
                not_not.mp (fun other => ready (Or.inr other))
              split at result
              · next dirty =>
                  cases result
                  exact tracked.laterWrite present done dirty condition
              · exact tracked.firstWrite present done result
      · cases result
        exact tracked
  | release =>
      simp only [step] at result
      split at result
      · cases result
        exact tracked
      · next some =>
          refine Tracked.release ?_ result
          exact { tracked with
            uses := by
              have uses := tracked.uses
              simp only
              omega }
  | rename renamePath renameTo readable =>
      simp only [step] at result
      split at result
      · cases result
        exact tracked
      · exact tracked.rename_ok readable condition.1 condition.2 result
  | append record readable other => exact tracked.append_ok readable other result
  | apply lookup others =>
      simp only [step] at result
      split at result
      · cases result
      · next journal applying applied =>
          cases result
          exact tracked.apply_ok others (apply_applied _ applied)
  | queueOther mfile type other =>
      cases result
      exact tracked.queueOther other type
  | start type =>
      simp only [step] at result
      split at result
      · cases result
      · next request queue took =>
          split at result
          · next own =>
              cases type with
              | backup => exact tracked.startBackup took own result
              | writeback => exact tracked.startWriteback took own result
              | metadata =>
                  have kind := (getNextFileToBack_some took).1
                  have member := (mem_taken took).mpr (Or.inl rfl)
                  rcases tracked.kinds request member own with writeback | backup
                  · rw [kind] at writeback
                    cases writeback
                  · rw [kind] at backup
                    cases backup.1
          · next other =>
              cases result
              have taken := tracked.taken took (fun own => absurd own other)
              rw [if_neg other] at taken
              exact taken
  | backed =>
      simp only [step] at result
      split at result
      · next mfile present =>
          split at result
          · cases result
            exact tracked
          · next some =>
              have cached : state.inCache = true := by
                by_contra uncached
                exact some (tracked.uncached (Bool.eq_false_iff.mpr uncached)).2.2.1
              have done := tracked.setStatus present .done (fun _ => cached)
              refine Tracked.release ?_ result
              exact { done with
                uses := by
                  have uses := done.uses
                  simp only at uses ⊢
                  omega
                uncached := fun uncached => by rw [cached] at uncached; cases uncached }
      · cases result
        exact tracked
  | copied success =>
      simp only [step] at result
      split at result
      · cases result
        exact tracked
      · next some =>
          split at result
          · cases result
          · next notified done =>
              obtain ⟨kept, same⟩ := tracked.notify_ok done
              refine Tracked.release ?_ result
              exact { kept with
                uses := by
                  have uses := kept.uses
                  simp only at uses ⊢
                  omega }
  | notifyOther success =>
      simp only [step] at result
      split at result
      · cases result
        exact tracked
      · have fewer : Tracked errno 0 { state with others := state.others - 1 } :=
          { tracked with }
        exact (fewer.notify_ok result).1

/-- The file before it is opened, with any journal. -/
def init (path : Path) (inCache : Bool) (journal : Option WrittenJournal) : FileState where
  path := path
  inCache := inCache
  mfile := none
  handles := 0
  queue := []
  backing := 0
  copying := 0
  journal := .init (journal.map WrittenJournal.file)
  others := 0
  changed := false
  phase := .clean

theorem init_tracked (errno : Nat) {path : Path} (paths : (fsyncRecord path).Readable)
    (inCache : Bool) (journal : Option WrittenJournal) :
    (init path inCache journal).Tracked errno 0 where
  paths := paths
  written := WrittenJournal.written journal
  samePath := fun mfile none => by cases none
  uses := Nat.le_refl 0
  dirty := by simp [init]
  single := Nat.zero_le 1
  kinds := fun request member => absurd member List.not_mem_nil
  uncached := fun _ => ⟨rfl, rfl, rfl, fun mfile none => by cases none⟩
  entry := fun phase => by cases phase
  queued := fun phase => by cases phase
  kept := fun changed => by cases changed

end FileState

open FileState in
/-- In every run that meets the condition, no write is lost. -/
theorem no_lost_write (errno : Nat) (path : Path) (paths : (fsyncRecord path).Readable)
    (inCache : Bool) (journal : Option WrittenJournal) (events : List FileEvent)
    (condition : EachStep (step errno) (WritesAreTracked errno) (init path inCache journal)
      events) :
    Throughout (step errno) (NoLostWrite errno) (fun _ => True) (init path inCache journal)
      events :=
  Throughout.ofInvariant (fun _ tracked => tracked.kept)
    (fun _ _ _ tracked condition result => tracked.step_ok condition result)
    (fun _ _ _ _ _ _ => trivial) (init_tracked errno paths inCache journal) condition

/-- An apply that finds no other file. -/
def applyAlone : FileEvent := .apply (fun _ => .error (-2)) (fun _ _ found => by cases found)

/-! ## One handle across an apply -/

/-- The open file `/a`. -/
def openedFile (use : Nat) (dirty : Bool) : Mfile where
  metadata_id := 0
  path := ascii "/a"
  type := .file
  use := use
  cache_status := .done
  dirty := dirty

/-- The journal after its first write. -/
def firstEntry : List Byte := encodeJournal [fsyncRecord (ascii "/a")]

open FileState in
/-- `/a` is opened from the cache. -/
def opened : FileState :=
  { init (ascii "/a") true none with mfile := some (openedFile 1 false), handles := 1 }

/-- It is written. -/
def wroteOnce : FileState :=
  { opened with
    mfile := some (openedFile 1 true)
    journal := .init (some firstEntry)
    changed := true
    phase := .written }

/-- The journal is applied. -/
def appliedOnce : FileState :=
  { wroteOnce with
    mfile := some (openedFile 2 true)
    queue := [⟨self, .writeback⟩]
    journal := ⟨none, some firstEntry, .sync, ⟨1, 0, 0⟩⟩
    phase := .applied }

/-- The write-back copies. -/
def copiedOnce : FileState :=
  { appliedOnce with queue := [], copying := 1, changed := false, phase := .copied }

open FileState in
private theorem open_step : step 0 (init (ascii "/a") true none) (.openFile true) = .ok opened := by
  decide

open FileState in
private theorem write_step : step 0 opened .write = .ok wroteOnce := by decide

open FileState in
private theorem apply_step : step 0 wroteOnce applyAlone = .ok appliedOnce := by decide

open FileState in
private theorem start_step : step 0 appliedOnce (.start .writeback) = .ok copiedOnce := by decide

open FileState in
/-- A second write while the write-back is still queued is transferred. -/
theorem no_lost_write_queued :
    Throughout (step 0) (NoLostWrite 0) (fun _ => True) (init (ascii "/a") true none)
      [.openFile true, .write, applyAlone, .write] := by
  apply no_lost_write 0 (ascii "/a") (by decide) true none
  have last : step 0 appliedOnce .write = .ok appliedOnce := by decide
  simp only [EachStep, open_step, write_step, apply_step, last]
  exact ⟨trivial, (by decide : opened.phase ≠ .copied), trivial,
    (by decide : appliedOnce.phase ≠ .copied), trivial⟩

open FileState in
/-- A second write after the write-back has started finds the flag set and is
never transferred. -/
theorem second_write_is_lost :
    ¬ Throughout (step 0) (NoLostWrite 0) (fun _ => True) (init (ascii "/a") true none)
      [.openFile true, .write, applyAlone, .start .writeback, .write] := by
  have last : step 0 copiedOnce .write = .ok { copiedOnce with changed := true } := by decide
  have lost : ¬ NoLostWrite 0 { copiedOnce with changed := true } := by
    rintro kept
    rcases kept rfl with entry | request
    · exact absurd entry List.not_mem_nil
    · exact absurd request List.not_mem_nil
  simp only [Throughout, open_step, write_step, apply_step, start_step, last]
  exact fun throughout => lost throughout.2.2.2.2.2

end Writes
end Mcachefs
