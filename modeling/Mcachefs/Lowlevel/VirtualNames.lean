import Mcachefs.Journal.Retry
import Mcachefs.Lowlevel.Lookups

namespace Mcachefs
namespace Lowlevel

open Library Metadata Journal

/-!
# Virtual files and the journal

The names under `/.mcachefs` are to stay out of the journal.  `mcachefs_chown`,
`mcachefs_truncate` and `mcachefs_open` test the path for that; the other
callbacks do not, and the test of the first two leaves `/.mcachefs` itself out.
`Guarded` says, callback by callback, where the missing test does no harm, and
`step_ordinary` that a guarded callback keeps virtual names out.
-/

/-- A record without a virtual path, and for a rename or a link without a virtual
target. -/
def OrdinaryRecord (record : JournalRecord) : Prop :=
  ¬ Virtual record.path ∧
    (record.op = JournalOp.rename.code ∨ record.op = JournalOp.link.code ->
      ¬ Virtual record.toPath)

/-! ## What an apply touches -/

/-- The calls of an apply, which note the paths below the source that they act
on.  The text of a symbolic link is not such a path. -/
def touching : ApplyCalls (List Path) where
  mknod := fun path _ _ touched => path :: touched
  mkdir := fun path _ touched => path :: touched
  chown := fun path _ _ touched => path :: touched
  unlink := fun path touched => path :: touched
  rmdir := fun path touched => path :: touched
  rename := fun path toPath touched => path :: toPath :: touched
  symlink := fun _ path touched => path :: touched
  chmod := fun path _ touched => path :: touched
  truncate := fun path _ touched => path :: touched
  utime := fun path _ touched => path :: touched
  writeback := fun path touched => (0, path :: touched)

/-- Neither the updates of an apply nor its write-backs touch a virtual name. -/
def AppliesOrdinary (records : List JournalRecord) : Prop :=
  (forall touched, updateLoop touching (records.map JournalRecord.item) [] = .ok touched ->
    forall path, path ∈ touched -> ¬ Virtual path) ∧
  forall fsync path,
    path ∈ (fsyncLoop touching (records.map JournalRecord.item) (fsync, [])).2 -> ¬ Virtual path

/-- No virtual name is in the journal, and none would be touched by an apply. -/
def Ordinary {Hash : Type} (mount : Mount Hash) : Prop :=
  (forall record, record ∈ mount.journal -> OrdinaryRecord record) ∧ AppliesOrdinary mount.journal

theorem applyEntry_touching {record : JournalRecord} {touched after : List Path}
    (ordinary : OrdinaryRecord record) (before : forall path, path ∈ touched -> ¬ Virtual path)
    (applied : applyEntry touching record.item touched = .ok after) :
    forall path, path ∈ after -> ¬ Virtual path := by
  obtain ⟨notPath, notTo⟩ := ordinary
  have one : forall path, path ∈ record.path :: touched -> ¬ Virtual path :=
    List.forall_mem_cons.mpr ⟨notPath, before⟩
  have two : forall path, path ∈ record.path :: record.path :: touched -> ¬ Virtual path :=
    List.forall_mem_cons.mpr ⟨notPath, one⟩
  obtain ⟨op, code⟩ := applyEntry_ok touching applied
  simp only [applyEntry, code, JournalOp.ofCode_code] at applied
  cases op with
  | fsync => cases applied
  | none | link =>
      cases applied
      exact before
  | mknod | mkdir =>
      cases applied
      exact two
  | rename =>
      cases applied
      have target : ¬ Virtual record.toPath := notTo (Or.inl code)
      exact List.forall_mem_cons.mpr ⟨notPath, List.forall_mem_cons.mpr ⟨target, before⟩⟩
  | unlink | rmdir | symlink | chmod | chown | truncate | utime =>
      cases applied
      exact one

/-- An apply only touches what its journal names. -/
theorem appliesOrdinary_of_records {records : List JournalRecord}
    (ordinary : forall record, record ∈ records -> OrdinaryRecord record) :
    AppliesOrdinary records := by
  have updates : forall touched after : List Path,
      (forall path, path ∈ touched -> ¬ Virtual path) ->
      updateLoop touching (records.map JournalRecord.item) touched = .ok after ->
        forall path, path ∈ after -> ¬ Virtual path := by
    induction records with
    | nil =>
        intro touched after before result
        cases result
        exact before
    | cons record records inductionHypothesis =>
        obtain ⟨first, rest⟩ := List.forall_mem_cons.mp ordinary
        intro touched after before result
        rw [List.map_cons, updateLoop] at result
        split at result
        · exact inductionHypothesis rest touched after before result
        · split at result
          · cases result
          · next middle applied =>
              exact inductionHypothesis rest middle after
                (applyEntry_touching first before applied) result
  have writebacks : forall fsync touched, (forall path, path ∈ touched -> ¬ Virtual path) ->
      forall path, path ∈ (fsyncLoop touching (records.map JournalRecord.item) (fsync, touched)).2 ->
        ¬ Virtual path := by
    clear updates
    induction records with
    | nil => exact fun _ _ before => before
    | cons record records inductionHypothesis =>
        obtain ⟨first, rest⟩ := List.forall_mem_cons.mp ordinary
        intro fsync touched before
        rw [List.map_cons]
        by_cases op : record.item.entry.op = JournalOp.fsync.code
        · rw [fsyncLoop_fsync touching op]
          exact inductionHypothesis rest _ _ (List.forall_mem_cons.mpr ⟨first.1, before⟩)
        · simp only [fsyncLoop, ne_eq, op, not_false_eq_true, if_true]
          exact inductionHypothesis rest fsync touched before
  exact ⟨fun touched => updates [] touched (by simp), fun fsync => writebacks fsync [] (by simp)⟩

/-! ## What an append keeps -/

/-- A rename gives no pending write-back a virtual name.  The rebuild of the journal
also replaces the beginning of a name that only starts like the renamed path. -/
def RetargetsOrdinary (records : List JournalRecord) (path toPath : Path) : Prop :=
  forall record, record ∈ records -> record.op = JournalOp.fsync.code -> path <+: record.path ->
    ¬ Virtual (toPath ++ record.path.drop path.length)

theorem rewriteAll_ordinary {records rewritten : List JournalRecord} {path toPath : Path}
    (ordinary : forall record, record ∈ records -> OrdinaryRecord record)
    (retargets : RetargetsOrdinary records path toPath)
    (result : rewriteAll path toPath records = some rewritten) :
    forall record, record ∈ rewritten -> OrdinaryRecord record := by
  induction records generalizing rewritten with
  | nil =>
      cases result
      exact ordinary
  | cons record records inductionHypothesis =>
      obtain ⟨here, later⟩ := List.forall_mem_cons.mp ordinary
      obtain ⟨retarget, retargets⟩ := List.forall_mem_cons.mp retargets
      rw [rewriteAll] at result
      split at result
      · cases result
      · next first one =>
          obtain ⟨others, all, rfl⟩ := Option.map_eq_some_iff.mp result
          refine List.forall_mem_cons.mpr ⟨?_, inductionHypothesis later retargets all⟩
          simp only [rewrite, strncmpEqual_length_iff] at one
          split at one
          · next altered =>
              split at one
              · cases one
              · cases one
                exact ⟨retarget altered.1 altered.2, here.2⟩
          · cases one
            exact here

theorem appendRecords_ordinary {records appended : List JournalRecord} {record : JournalRecord}
    (ordinary : forall other, other ∈ records -> OrdinaryRecord other)
    (new : OrdinaryRecord record)
    (retargets : record.op = JournalOp.rename.code ->
      RetargetsOrdinary records record.path record.toPath)
    (result : appendRecords records record = some appended) :
    forall other, other ∈ appended -> OrdinaryRecord other := by
  unfold appendRecords at result
  split at result
  · next rename =>
      obtain ⟨rewritten, rewrites, rfl⟩ := Option.map_eq_some_iff.mp result
      have last : OrdinaryRecord (renameRecord record.path record.toPath) :=
        ⟨new.1, fun _ => new.2 (Or.inl rename.1)⟩
      exact List.forall_mem_append.mpr
        ⟨rewriteAll_ordinary ordinary (retargets rename.1) rewrites, by simpa using last⟩
  · cases result
    exact List.forall_mem_append.mpr ⟨ordinary, by simpa using new⟩

/-! ## Where the missing tests do no harm -/

section Guards

variable {Hash : Type} [DecidableEq Hash] [Inhabited Hash] (env : Env Hash)

/-- The callback names no virtual path where it would go on to the journal with it. -/
def Guarded (mount : Mount Hash) : Callback × Answers Hash -> Prop
  | (.symlink _ toPath, answers) =>
      answers.createpath.value = 0 -> answers.symlink = none ->
        Vacant env mount.fs toPath false -> ¬ Virtual toPath
  | (.mknod path _ _, _) | (.mkdir path _, _) =>
      Vacant env mount.fs path false -> ¬ Virtual path
  | (.unlink path, _) => Removable env mount.fs path false -> ¬ Virtual path
  | (.rmdir path, _) => Removable env mount.fs path true -> ¬ Virtual path
  | (.rename path toPath, _) =>
      Movable env mount.fs path toPath ->
        ¬ Virtual path ∧ ¬ Virtual toPath ∧ RetargetsOrdinary mount.journal path toPath
  | (.link fromPath toPath, answers) =>
      answers.makepath = true -> answers.link = none -> Linkable env mount.fs fromPath toPath ->
        ¬ Virtual fromPath ∧ ¬ Virtual toPath
  | (.chmod path _, _) | (.utime path _, _) => Virtual path -> Absent env mount.fs path
  | (.chown path _ _, _) | (.truncate path _, _) => path = VOPS_DIR -> Absent env mount.fs path
  | (.write fh size _, answers) =>
      size ≠ 0 -> answers.pwrite = none -> forall mfile, mount.fs.mfiles fh = some mfile ->
        mfile.type = .file -> mfile.dirty = false -> ¬ Virtual mfile.path
  | (.openFile _, _) | (.release _ _, _) => True

variable {env}

/-! ## One callback -/

/-- No virtual name is in the journal. -/
abbrev JournalOrdinary (mount : Mount Hash) : Prop :=
  forall record, record ∈ mount.journal -> OrdinaryRecord record

variable {answers : Answers Hash} {mount next : Mount Hash} {code : Int} {path toPath : Path}

omit [DecidableEq Hash] [Inhabited Hash] in
theorem journalAppend_ordinary {record : JournalRecord} (ordinary : JournalOrdinary mount)
    (new : OrdinaryRecord record)
    (retargets : record.op = JournalOp.rename.code ->
      RetargetsOrdinary mount.journal record.path record.toPath)
    (result : mount.journalAppend record = .ok next) : JournalOrdinary next := by
  unfold Mount.journalAppend at result
  split at result
  · cases result
  · next records appended =>
      cases result
      exact appendRecords_ordinary ordinary new retargets appended

omit [DecidableEq Hash] [Inhabited Hash] in
theorem succeed_ordinary {fs : Fs Hash} {record : JournalRecord}
    (ordinary : JournalOrdinary mount) (new : OrdinaryRecord record)
    (retargets : record.op = JournalOp.rename.code ->
      RetargetsOrdinary mount.journal record.path record.toPath)
    (result : mount.succeed fs record = .ok (code, next)) : JournalOrdinary next := by
  rw [Mount.succeed, bind_eq_ok] at result
  obtain ⟨appended, append, result⟩ := result
  cases result
  have before : JournalOrdinary { mount with fs := fs } := ordinary
  exact journalAppend_ordinary before new retargets append

omit [DecidableEq Hash] [Inhabited Hash] in
/-- The record of a callback that neither renames nor links. -/
theorem succeed_plain {fs : Fs Hash} {record : JournalRecord} (ordinary : JournalOrdinary mount)
    (new : ¬ Virtual record.path) (op : JournalOp) (same : record.op = op.code)
    (notRename : op.code ≠ JournalOp.rename.code) (notLink : op.code ≠ JournalOp.link.code)
    (result : mount.succeed fs record = .ok (code, next)) : JournalOrdinary next := by
  rw [← same] at notRename notLink
  exact succeed_ordinary ordinary
    ⟨new, fun either => either.elim (absurd · notRename) (absurd · notLink)⟩
    (absurd · notRename) result

theorem symlink_ordinary (ordinary : JournalOrdinary mount)
    (guarded : Guarded env mount (.symlink path toPath, answers))
    (result : mount.symlink env answers path toPath = .ok (code, next)) :
    JournalOrdinary next := by
  rw [Mount.symlink, bind_eq_ok] at result
  obtain ⟨⟨res, fs⟩, made, result⟩ := result
  rw [metadata_eq_ok] at made
  rcases ne_or_eq res 0 with failed | rfl
  · simp only [ne_eq, failed, not_false_eq_true, if_true] at result
    cases result
    exact ordinary
  · simp only [ne_eq, not_true_eq_false, if_false] at result
    split at result
    · cases result
      exact ordinary
    · next created =>
        cases linked : answers.symlink with
        | some errno =>
            simp only [linked] at result
            rw [bind_eq_ok] at result
            obtain ⟨_, _, result⟩ := result
            cases result
            exact ordinary
        | none =>
            simp only [linked] at result
            exact succeed_plain ordinary
              (guarded (not_not.mp created) linked (makeEntry_vacant made)) .symlink rfl (by decide)
              (by decide) result

theorem mknod_ordinary {mode : UInt32} {rdev : UInt64} (ordinary : JournalOrdinary mount)
    (guarded : Guarded env mount (.mknod path mode rdev, answers))
    (result : mount.mknod env answers path mode rdev = .ok (code, next)) :
    JournalOrdinary next := by
  rw [Mount.mknod, bind_eq_ok] at result
  obtain ⟨⟨res, fs⟩, made, result⟩ := result
  rw [metadata_eq_ok] at made
  rcases ne_or_eq res 0 with failed | rfl
  · simp only [ne_eq, failed, not_false_eq_true, if_true] at result
    cases result
    exact ordinary
  · simp only [ne_eq, not_true_eq_false, if_false] at result
    rw [bind_eq_ok] at result
    obtain ⟨⟨zero, appended⟩, append, result⟩ := result
    have last : JournalOrdinary appended :=
      succeed_plain ordinary (guarded (makeEntry_vacant made)) .mknod rfl (by decide)
        (by decide) append
    by_cases regular : mode &&& S_IFMT = S_IFREG
    · simp only [regular, if_true] at result
      cases result
      exact last
    · simp only [regular, if_false] at result
      cases result
      exact last

theorem mkdir_ordinary {mode : UInt32} (ordinary : JournalOrdinary mount)
    (guarded : Guarded env mount (.mkdir path mode, answers))
    (result : mount.mkdir env answers path mode = .ok (code, next)) : JournalOrdinary next := by
  rw [Mount.mkdir, bind_eq_ok] at result
  obtain ⟨⟨res, fs⟩, made, result⟩ := result
  rw [metadata_eq_ok] at made
  rcases ne_or_eq res 0 with failed | rfl
  · simp only [ne_eq, failed, not_false_eq_true, if_true] at result
    cases result
    exact ordinary
  · simp only [ne_eq, not_true_eq_false, if_false] at result
    exact succeed_plain ordinary (guarded (makeEntry_vacant made)) .mkdir rfl (by decide)
      (by decide) result

theorem remove_ordinary {isDir : Bool} (ordinary : JournalOrdinary mount)
    (guarded : Removable env mount.fs path isDir -> ¬ Virtual path)
    (result : mount.remove env path isDir = .ok (code, next)) : JournalOrdinary next := by
  rw [Mount.remove, bind_eq_ok] at result
  obtain ⟨⟨res, fs⟩, removed, result⟩ := result
  rw [metadata_eq_ok] at removed
  rcases ne_or_eq res 0 with failed | rfl
  · simp only [ne_eq, failed, not_false_eq_true, if_true] at result
    cases result
    exact ordinary
  · simp only [ne_eq, not_true_eq_false, if_false] at result
    refine succeed_plain ordinary (guarded (rmdirUnlink_removable removed))
      (if isDir then .rmdir else .unlink) rfl ?_ ?_ result
    · cases isDir <;> decide
    · cases isDir <;> decide

theorem rename_ordinary (ordinary : JournalOrdinary mount)
    (guarded : Guarded env mount (.rename path toPath, answers))
    (result : mount.rename env path toPath = .ok (code, next)) : JournalOrdinary next := by
  rw [Mount.rename, bind_eq_ok] at result
  obtain ⟨⟨res, fs⟩, renamed, result⟩ := result
  rw [metadata_eq_ok] at renamed
  rcases ne_or_eq res 0 with failed | rfl
  · simp only [ne_eq, failed, not_false_eq_true, if_true] at result
    cases result
    exact ordinary
  · simp only [ne_eq, not_true_eq_false, if_false] at result
    obtain ⟨source, target, retargets⟩ := guarded (renameEntry_movable renamed)
    exact succeed_ordinary ordinary ⟨source, fun _ => target⟩ (fun _ => retargets) result

theorem linkJoin_ordinary {fs : Fs Hash} {fromst : Stat} {fromid next_hardlink : Id}
    (ordinary : JournalOrdinary mount) (source : ¬ Virtual path) (target : ¬ Virtual toPath)
    (result : mount.linkJoin env path toPath fromst fromid next_hardlink fs = .ok (code, next)) :
    JournalOrdinary next := by
  rw [Mount.linkJoin, bind_eq_ok] at result
  obtain ⟨⟨toid, found⟩, _, result⟩ := result
  by_cases gone : toid = 0
  · simp only [gone, if_true] at result
    cases result
  · simp only [gone, if_false] at result
    rw [bind_eq_ok] at result
    obtain ⟨⟨id, again⟩, _, result⟩ := result
    by_cases lost : id = 0
    · simp only [lost, if_true] at result
      cases result
    · simp only [lost, if_false] at result
      have notRename : JournalOp.link.code ≠ JournalOp.rename.code := by decide
      exact succeed_ordinary ordinary ⟨source, fun _ => target⟩ (absurd · notRename) result

theorem link_ordinary (ordinary : JournalOrdinary mount)
    (guarded : Guarded env mount (.link path toPath, answers))
    (result : mount.link env answers path toPath = .ok (code, next)) : JournalOrdinary next := by
  rw [Mount.link, bind_eq_ok] at result
  obtain ⟨⟨fromid, found⟩, look, result⟩ := result
  rw [metadata_eq_ok] at look
  by_cases missing : fromid = 0
  · simp only [missing, if_true] at result
    cases result
    exact ordinary
  · simp only [missing, if_false] at result
    cases memory : answers.makepath with
    | false =>
        simp only [memory, if_true] at result
        cases result
        exact ordinary
    | true =>
        simp only [memory, Bool.true_eq_false, if_false] at result
        cases linked : answers.link with
        | some errno =>
            simp only [linked] at result
            cases result
            exact ordinary
        | none =>
            simp only [linked] at result
            rw [bind_eq_ok] at result
            obtain ⟨⟨res, fs⟩, made, result⟩ := result
            rw [metadata_eq_ok] at made
            rcases ne_or_eq res 0 with failed | rfl
            · simp only [ne_eq, failed, not_false_eq_true, if_true] at result
              cases result
              exact ordinary
            · simp only [ne_eq, not_true_eq_false, if_false] at result
              obtain ⟨source, target⟩ := guarded memory linked
                ⟨fromid, found, look, missing, makeEntry_vacant made⟩
              exact linkJoin_ordinary ordinary source target result

/-- `mcachefs_chown` and `mcachefs_truncate` let `/.mcachefs` itself pass. -/
theorem not_virtual {path : Path} (file : isVopsFile path = false)
    (other : path ≠ VOPS_DIR) : ¬ Virtual path := by
  rw [virtual_iff, file]
  simpa using other

theorem chmod_ordinary {mode : UInt32} (ordinary : JournalOrdinary mount)
    (guarded : Guarded env mount (.chmod path mode, answers))
    (result : mount.chmod env path mode = .ok (code, next)) : JournalOrdinary next := by
  rw [Mount.chmod, bind_eq_ok] at result
  obtain ⟨⟨mdata, found⟩, look, result⟩ := result
  rw [metadata_eq_ok] at look
  by_cases missing : mdata = 0
  · simp only [missing, if_true] at result
    cases result
    exact ordinary
  · simp only [missing, if_false] at result
    rw [bind_eq_ok] at result
    obtain ⟨fs, _, result⟩ := result
    exact succeed_plain ordinary (fun isVirtual => missing (guarded isVirtual _ _ look)) .chmod rfl
      (by decide) (by decide) result

theorem chown_ordinary {uid gid : UInt32} (ordinary : JournalOrdinary mount)
    (guarded : Guarded env mount (.chown path uid gid, answers))
    (result : mount.chown env path uid gid = .ok (code, next)) : JournalOrdinary next := by
  unfold Mount.chown at result
  cases file : isVopsFile path with
  | true =>
      simp only [file, if_true] at result
      cases result
      exact ordinary
  | false =>
      simp only [file, Bool.false_eq_true, if_false] at result
      rw [bind_eq_ok] at result
      obtain ⟨⟨mdata, found⟩, look, result⟩ := result
      rw [metadata_eq_ok] at look
      by_cases missing : mdata = 0
      · simp only [missing, if_true] at result
        cases result
        exact ordinary
      · simp only [missing, if_false] at result
        rw [bind_eq_ok] at result
        obtain ⟨fs, _, result⟩ := result
        have notVirtual := not_virtual file fun same => missing (guarded same _ _ look)
        exact succeed_plain ordinary notVirtual .chown rfl (by decide) (by decide) result

theorem truncate_ordinary {size : Int64} (ordinary : JournalOrdinary mount)
    (guarded : Guarded env mount (.truncate path size, answers))
    (result : mount.truncate env path size = .ok (code, next)) : JournalOrdinary next := by
  rw [Mount.truncate, bind_eq_ok] at result
  obtain ⟨⟨mdata, found⟩, look, result⟩ := result
  rw [metadata_eq_ok] at look
  by_cases missing : mdata = 0
  · simp only [missing, if_true] at result
    cases result
    exact ordinary
  · simp only [missing, if_false] at result
    split at result
    · cases result
    · split at result
      · cases result
        exact ordinary
      · split at result
        · cases result
          exact ordinary
        · next file =>
            have notVirtual := not_virtual (Bool.not_eq_true _ ▸ file) fun same =>
              missing (guarded same _ _ look)
            exact succeed_plain ordinary notVirtual .truncate rfl (by decide) (by decide) result

theorem utime_ordinary {buf : Utimbuf} (ordinary : JournalOrdinary mount)
    (guarded : Guarded env mount (.utime path buf, answers))
    (result : mount.utime env path buf = .ok (code, next)) : JournalOrdinary next := by
  rw [Mount.utime, bind_eq_ok] at result
  obtain ⟨⟨mdata, found⟩, look, result⟩ := result
  rw [metadata_eq_ok] at look
  by_cases missing : mdata = 0
  · simp only [missing, if_true] at result
    cases result
    exact ordinary
  · simp only [missing, if_false] at result
    exact succeed_plain ordinary (fun isVirtual => missing (guarded isVirtual _ _ look)) .utime rfl
      (by decide) (by decide) result

omit [DecidableEq Hash] [Inhabited Hash] in
theorem openMfile_journal {fh : Transfer.Fh}
    (result : mount.openMfile answers fh = .ok (code, next)) : next.journal = mount.journal := by
  unfold Mount.openMfile at result
  split at result
  · cases result
  · split at result
    · cases result
      rfl
    · split at result
      · split at result
        · cases result
          rfl
        · split at result <;> cases result <;> rfl
      · split at result <;> cases result <;> rfl

theorem openFile_journal (result : mount.openFile env answers path = .ok (code, next)) :
    next.journal = mount.journal := by
  rw [Mount.openFile, bind_eq_ok] at result
  obtain ⟨⟨mdata, found⟩, _, result⟩ := result
  by_cases missing : mdata = 0
  · simp only [missing, if_true] at result
    cases result
    rfl
  · simp only [missing, if_false] at result
    cases regular : (found.entries mdata).st.isReg with
    | false =>
        simp only [regular, if_true] at result
        cases result
        rfl
    | true =>
        simp only [regular, Bool.true_eq_false, if_false] at result
        rw [bind_eq_ok] at result
        obtain ⟨⟨fh, opened⟩, _, result⟩ := result
        have opens : ({ mount with fs := opened } : Mount Hash).openMfile answers fh =
            .ok (code, next) := result
        have journal := openMfile_journal opens
        exact journal

theorem getMetadata_journal {fh : Transfer.Fh} {mfile : Mfile} {id : Id}
    (result : mount.getMetadata env fh mfile = .ok (id, next)) : next.journal = mount.journal := by
  unfold Mount.getMetadata at result
  by_cases linked : mfile.metadata_id ≠ 0
  · simp only [linked, ne_eq, not_false_eq_true, if_true] at result
    cases result
    rfl
  · simp only [linked, if_false] at result
    rw [bind_eq_ok] at result
    obtain ⟨⟨mdata, found⟩, _, result⟩ := result
    by_cases missing : mdata = 0
    · simp only [missing, if_true] at result
      cases result
      rfl
    · simp only [missing, if_false] at result
      cases result
      rfl

theorem updateMetadata_journal {fh : Transfer.Fh} {mfile : Mfile} {size : Int} {modified : Bool}
    (result : mount.updateMetadata env answers fh mfile size modified = .ok next) :
    next.journal = mount.journal := by
  rw [Mount.updateMetadata, bind_eq_ok] at result
  obtain ⟨⟨mdata, found⟩, got, result⟩ := result
  by_cases missing : mdata = 0
  · simp only [missing, if_true] at result
    cases result
    exact getMetadata_journal got
  · simp only [missing, if_false] at result
    rw [bind_eq_ok] at result
    obtain ⟨fs, _, result⟩ := result
    cases result
    have journal : found.journal = mount.journal := getMetadata_journal got
    exact journal

theorem writeFile_ordinary {fh : Transfer.Fh} {mfile : Mfile} {size offset : Nat}
    (ordinary : JournalOrdinary mount)
    (guarded : answers.pwrite = none -> mfile.dirty = false -> ¬ Virtual mfile.path)
    (result : mount.writeFile env answers fh mfile size offset = .ok (code, next)) :
    JournalOrdinary next := by
  unfold Mount.writeFile at result
  cases whole : answers.pwrite with
  | some code =>
      simp only [whole] at result
      cases result
      exact ordinary
  | none =>
      simp only [whole] at result
      rw [bind_eq_ok] at result
      obtain ⟨appended, append, result⟩ := result
      rw [bind_eq_ok] at result
      obtain ⟨updated, update, result⟩ := result
      cases result
      have journal := updateMetadata_journal update
      have before : JournalOrdinary appended := by
        cases dirty : mfile.dirty with
        | true =>
            simp only [dirty, if_true] at append
            cases append
            exact ordinary
        | false =>
            simp only [dirty, Bool.false_eq_true, if_false] at append
            have notRename : JournalOp.fsync.code ≠ JournalOp.rename.code := by decide
            have notLink : JournalOp.fsync.code ≠ JournalOp.link.code := by decide
            have before : JournalOrdinary (mount.setFile fh (some { mfile with dirty := true })) :=
              ordinary
            exact journalAppend_ordinary before
              ⟨guarded whole dirty,
                fun either => either.elim (absurd · notRename) (absurd · notLink)⟩
              (absurd · notRename) append
      exact fun record member => before record (journal ▸ member)

theorem write_ordinary {fh : Transfer.Fh} {size offset : Nat} (ordinary : JournalOrdinary mount)
    (guarded : Guarded env mount (.write fh size offset, answers))
    (result : mount.write env answers fh size offset = .ok (code, next)) :
    JournalOrdinary next := by
  unfold Mount.write at result
  split at result
  · cases result
    exact ordinary
  · next some =>
      split at result
      · cases result
        exact ordinary
      · split at result
        · cases result
        · next mfile found =>
            split at result
            · cases result
              exact ordinary
            · next type =>
                exact writeFile_ordinary ordinary
                  (fun whole => guarded some whole mfile found type) result
            · cases result
              exact ordinary

theorem callAction_journal {action : VopsAction}
    (result : mount.callAction env answers action = .ok next) :
    next.journal = mount.journal ∨ next.journal = [] := by
  cases action with
  | none | cleanupCache =>
      cases result
      exact Or.inl rfl
  | applyJournal taken inCache =>
      cases taken with
      | false =>
          cases result
          exact Or.inl rfl
      | true =>
          rw [Mount.callAction, if_neg (by decide), bind_eq_ok] at result
          obtain ⟨fs, _, result⟩ := result
          cases result
          exact Or.inr rfl
  | flushMetadata st =>
      rw [Mount.callAction] at result
      split at result
      · cases result
        exact Or.inl rfl
      · rw [bind_eq_ok] at result
        obtain ⟨fs, _, result⟩ := result
        cases result
        exact Or.inl rfl
  | fillCacheMeta mountpoint cache_prefix =>
      cases cache_prefix with
      | none =>
          cases result
          exact Or.inl rfl
      | some place =>
          rw [Mount.callAction, bind_eq_ok] at result
          obtain ⟨mdata, _, result⟩ := result
          split at result
          · cases result
            exact Or.inl rfl
          · rw [bind_eq_ok] at result
            obtain ⟨fs, _, result⟩ := result
            cases result
            exact Or.inl rfl

omit [DecidableEq Hash] [Inhabited Hash] in
theorem fileRelease_journal {fh : Transfer.Fh} (result : mount.fileRelease fh = .ok next) :
    next.journal = mount.journal := by
  unfold Mount.fileRelease at result
  split at result
  · cases result
  · split at result
    · cases result
    · split at result <;> cases result <;> rfl

theorem release_ordinary {fh : Transfer.Fh} {isWrite : Bool} (ordinary : JournalOrdinary mount)
    (result : mount.release env answers fh isWrite = .ok (code, next)) : JournalOrdinary next := by
  unfold Mount.release at result
  split at result
  · cases result
    exact ordinary
  · split at result
    · cases result
    · next mfile found =>
        rw [bind_eq_ok] at result
        obtain ⟨acted, action, result⟩ := result
        rw [bind_eq_ok] at result
        obtain ⟨released, release, result⟩ := result
        cases result
        have middle : acted.journal = mount.journal ∨ acted.journal = [] := by
          split at action
          · exact callAction_journal action
          · cases action
            exact Or.inl rfl
        rw [JournalOrdinary, fileRelease_journal release]
        rcases middle with same | empty
        · rw [same]
          exact ordinary
        · rw [empty]
          simp

/-- A guarded callback keeps virtual names out of the journal. -/
theorem step_ordinary {event : Callback × Answers Hash} (ordinary : JournalOrdinary mount)
    (guarded : Guarded env mount event) (result : step env mount event = .ok next) :
    JournalOrdinary next := by
  obtain ⟨callback, answers⟩ := event
  obtain ⟨⟨code, last⟩, ran, same⟩ := bind_eq_ok.mp result
  cases same
  cases callback with
  | symlink path toPath => exact symlink_ordinary ordinary guarded ran
  | mknod path mode rdev => exact mknod_ordinary ordinary guarded ran
  | mkdir path mode => exact mkdir_ordinary ordinary guarded ran
  | unlink path => exact remove_ordinary ordinary guarded ran
  | rmdir path => exact remove_ordinary ordinary guarded ran
  | rename path toPath => exact rename_ordinary ordinary guarded ran
  | link fromPath toPath => exact link_ordinary ordinary guarded ran
  | chmod path mode => exact chmod_ordinary ordinary guarded ran
  | chown path uid gid => exact chown_ordinary ordinary guarded ran
  | truncate path size => exact truncate_ordinary ordinary guarded ran
  | utime path buf => exact utime_ordinary ordinary guarded ran
  | openFile path =>
      have journal : last.journal = mount.journal := openFile_journal ran
      exact fun record member => ordinary record (journal ▸ member)
  | write fh size offset => exact write_ordinary ordinary guarded ran
  | release fh isWrite => exact release_ordinary ordinary ran

/-- No virtual name is journaled in a run of guarded callbacks. -/
theorem journal_ordinary (env : Env Hash) (mount : Mount Hash) (start : JournalOrdinary mount)
    (events : List (Callback × Answers Hash))
    (guarded : EachStep (step env) (Guarded env) mount events) :
    Throughout (step env) Ordinary (fun _ => True) mount events := by
  have enough : forall mount : Mount Hash, JournalOrdinary mount -> Ordinary mount :=
    fun mount ordinary => ⟨ordinary, appliesOrdinary_of_records ordinary⟩
  exact Throughout.ofInvariant enough
    (fun _ _ _ ordinary holds result => step_ordinary ordinary holds result)
    (fun _ _ _ _ _ _ => trivial) start guarded

end Guards

/-- Calls on virtual files, and a directory that is made and removed. -/
def nextToVirtual : List (Callback × Answers UInt32) :=
  [(.truncate (ascii "/.mcachefs/read_state") 0, allSucceed),
    (.chown (ascii "/.mcachefs/action") 0 0, allSucceed), (.mkdir (ascii "/d") 0o755, allSucceed),
    (.openFile (ascii "/.mcachefs/action"), allSucceed), (.rmdir (ascii "/d"), allSucceed)]

theorem journal_ordinary_virtual : Exists fun fs => Exists fun last =>
    (Fs.format mountedSource directoryStat).populateVops mountedSource = .ok fs ∧
      nextToVirtual.foldlM (step mountedSource) ⟨fs, []⟩ = .ok last ∧
      last.journal.map JournalRecord.path = [ascii "/d", ascii "/d"] ∧
      Throughout (step mountedSource) Ordinary (fun _ => True) ⟨fs, []⟩ nextToVirtual := by
  have evaluated : (do
      let fs ← (Fs.format mountedSource directoryStat).populateVops mountedSource |> metadata
      let last ← nextToVirtual.foldlM (step mountedSource) ⟨fs, []⟩
      return last.journal.map JournalRecord.path : Except Fault (List Path)) =
      .ok [ascii "/d", ascii "/d"] := by decide +kernel
  obtain ⟨fs, populated, later⟩ := bind_eq_ok.mp evaluated
  obtain ⟨last, ran, paths⟩ := bind_eq_ok.mp later
  refine ⟨fs, last, metadata_eq_ok.mp populated, ran, Except.ok.inj paths, ?_⟩
  refine journal_ordinary mountedSource ⟨fs, []⟩ (fun _ member => absurd member List.not_mem_nil) _ ?_
  refine EachStep.ofAll (fun event member mount => ?_) _
  simp only [nextToVirtual, List.mem_cons, List.not_mem_nil, or_false] at member
  rcases member with rfl | rfl | rfl | rfl | rfl
  · exact fun directory => absurd directory (by decide)
  · exact fun directory => absurd directory (by decide)
  · exact fun _ => by decide
  · trivial
  · exact fun _ => by decide

/-- A directory made next to the virtual files is journaled like any other. -/
theorem virtual_directory_journaled : Exists fun fs =>
    (Fs.format emptySource directoryStat).populateVops emptySource = .ok fs ∧
      ¬ forall events, Throughout (step emptySource) Ordinary (fun _ => True) ⟨fs, []⟩ events := by
  have evaluated : (do
      let fs ← (Fs.format emptySource directoryStat).populateVops emptySource |> metadata
      let mount ← step emptySource ⟨fs, []⟩ (.mkdir (ascii "/.mcachefs/x") 0o755, allSucceed)
      return mount.journal.map JournalRecord.path : Except Fault (List Path)) =
      .ok [ascii "/.mcachefs/x"] := by decide +kernel
  obtain ⟨fs, populated, later⟩ := bind_eq_ok.mp evaluated
  obtain ⟨mount, made, paths⟩ := bind_eq_ok.mp later
  refine ⟨fs, metadata_eq_ok.mp populated, fun claim => ?_⟩
  have run := claim [(.mkdir (ascii "/.mcachefs/x") 0o755, allSucceed)]
  have ends : [(Callback.mkdir (ascii "/.mcachefs/x") 0o755, allSucceed)].foldlM
      (step emptySource) ⟨fs, []⟩ = .ok mount := by
    rw [List.foldlM_cons, made]
    rfl
  have last := (run.final ends).1
  have member : ascii "/.mcachefs/x" ∈ mount.journal.map JournalRecord.path := by
    rw [Except.ok.inj paths]
    exact List.mem_singleton_self _
  obtain ⟨record, inside, path⟩ := List.mem_map.mp member
  exact (last record inside).1 (path ▸ by decide)

end Lowlevel
end Mcachefs
