import Mcachefs.Journal.Apply
import Mcachefs.Library.Namespace
import Mcachefs.Metadata.Names
import Mcachefs.Stat

namespace Mcachefs
namespace Journal

open Library Metadata

/-!
# Names by way of the journal

What an apply of the journal does to the names of the source.  A file system
makes, unlinks, removes or renames something only where it finds the names as the
call needs them, and the apply ignores a call that fails but for a line in the
log; `refused` counts those.  The calls for attributes leave the names alone.
-/

/-- The bits of the mode that tell what kind of file it is. -/
def fileKind (st : Stat) : UInt32 := st.st_mode &&& S_IFMT

/-- The kind of a directory. -/
def IsDirectory (kind : UInt32) : Prop := kind = S_IFDIR

/-- `mknod` takes a mode without a file type for that of a regular file. -/
def nodeKind (mode : UInt32) : UInt32 :=
  if mode &&& S_IFMT = 0 then S_IFREG else mode &&& S_IFMT

/-- The names that a path goes through; slashes one after the other count once. -/
def pathNames (path : Path) : List Component :=
  (path.splitOn slash).filter fun name => name ≠ []

/-- The names of the source with what is at them, and how many calls it has refused. -/
structure SourceNames where
  names : Namespace Component UInt32
  refused : Nat

namespace SourceNames

open Classical in
/-- A system call, and when it can be done. -/
noncomputable def call (can : Namespace Component UInt32 -> Prop)
    (change : Namespace Component UInt32 -> Namespace Component UInt32) (source : SourceNames) :
    SourceNames :=
  if can source.names then { source with names := change source.names }
  else { source with refused := source.refused + 1 }

theorem call_can {can : Namespace Component UInt32 -> Prop}
    {change : Namespace Component UInt32 -> Namespace Component UInt32}
    {space : Namespace Component UInt32} {refused : Nat} (holds : can space) :
    call can change ⟨space, refused⟩ = ⟨change space, refused⟩ :=
  if_pos holds

/-- A node of this kind is made. -/
noncomputable def make (path : Path) (kind : UInt32) : SourceNames -> SourceNames :=
  call (fun space => space.CanEnter IsDirectory (pathNames path))
    (Namespace.enter (pathNames path) kind)

/-- The system calls that `mcachefs_journal_apply_entry` makes.  A directory cannot be
made by `mknod`. -/
noncomputable def applyCalls : ApplyCalls SourceNames where
  mknod path mode _ :=
    if mode &&& S_IFMT = S_IFDIR then fun source => { source with refused := source.refused + 1 }
    else make path (nodeKind mode)
  mkdir path _ := make path S_IFDIR
  symlink _ path := make path S_IFLNK
  unlink path := call (fun space => space.CanUnlink IsDirectory (pathNames path))
    (Namespace.erase (pathNames path))
  rmdir path := call (fun space => space.CanRemove IsDirectory (pathNames path))
    (Namespace.erase (pathNames path))
  rename path toPath :=
    call (fun space => space.CanMove IsDirectory (pathNames path) (pathNames toPath))
      (Namespace.move (pathNames path) (pathNames toPath))
  chown _ _ _ source := source
  chmod _ _ source := source
  truncate _ _ source := source
  utime _ _ source := source
  writeback _ source := (0, source)

/-- What an apply of these records makes of the source. -/
noncomputable def replay (records : List JournalRecord) (source : SourceNames) :
    Except Fault SourceNames :=
  updateLoop applyCalls (records.map JournalRecord.item) source

end SourceNames

/-! ## Paths and their names -/

theorem pathNames_pathString {names : List Component}
    (components : forall name, name ∈ names -> IsComponent name) :
    pathNames (pathString names) = names := by
  unfold pathNames
  induction names using List.reverseRecOn with
  | nil => rfl
  | append_singleton names name inductionHypothesis =>
      have last := components name (by simp)
      have before := inductionHypothesis fun other member =>
        components other (List.mem_append_left _ member)
      rw [pathString_concat, List.splitOn_append_cons_self, List.filter_append, before,
        List.splitOn_eq_singleton last.noSlash, List.filter_singleton]
      simp [last.nonempty]

theorem pathNames_absolutePath {names : List Component}
    (components : forall name, name ∈ names -> IsComponent name) :
    pathNames (absolutePath names) = names := by
  unfold absolutePath
  split
  · next none =>
      rw [none]
      rfl
  · exact pathNames_pathString components

/-! ## Replays of longer journals -/

section Calls

variable {Rest : Type*} (calls : ApplyCalls Rest)

theorem updateLoop_append (items more : List JournalItem) (rest : Rest) :
    updateLoop calls (items ++ more) rest =
      (updateLoop calls items rest).bind (updateLoop calls more) := by
  induction items generalizing rest with
  | nil => rfl
  | cons item items inductionHypothesis =>
      rw [List.cons_append, updateLoop, updateLoop]
      split
      · exact inductionHypothesis rest
      · cases applyEntry calls item rest with
        | error fault => rfl
        | ok middle => exact inductionHypothesis middle

omit calls in
/-- A rename rewrites the paths of fsync entries alone. -/
theorem rewrite_eq {renamePath renameTo : Path} {record first : JournalRecord}
    (rewrites : rewrite renamePath renameTo record = some first) :
    first.op = record.op ∧ (record.op ≠ JournalOp.fsync.code -> first = record) := by
  unfold rewrite at rewrites
  split at rewrites
  · next isFsync =>
      simp only at rewrites
      split at rewrites
      · cases rewrites
      · cases rewrites
        exact ⟨rfl, fun other => absurd isFsync.1 other⟩
  · cases rewrites
    exact ⟨rfl, fun _ => rfl⟩

/-- Fsync entries are no updates. -/
theorem updateLoop_rewriteAll {renamePath renameTo : Path} {records rewritten : List JournalRecord}
    (rewrites : rewriteAll renamePath renameTo records = some rewritten) (rest : Rest) :
    updateLoop calls (rewritten.map JournalRecord.item) rest =
      updateLoop calls (records.map JournalRecord.item) rest := by
  induction records generalizing rewritten rest with
  | nil =>
      cases rewrites
      rfl
  | cons record records inductionHypothesis =>
      rw [rewriteAll] at rewrites
      cases head : rewrite renamePath renameTo record with
      | none => simp [head] at rewrites
      | some first =>
          simp only [head] at rewrites
          obtain ⟨later, tail, rfl⟩ := Option.map_eq_some_iff.mp rewrites
          obtain ⟨op, same⟩ := rewrite_eq head
          rw [List.map_cons, List.map_cons, updateLoop, updateLoop]
          by_cases isFsync : record.item.entry.op = JournalOp.fsync.code
          · have other : first.item.entry.op = JournalOp.fsync.code := op.trans isFsync
            rw [if_pos other, if_pos isFsync]
            exact inductionHypothesis tail rest
          · rw [same isFsync, if_neg isFsync, if_neg isFsync]
            cases applyEntry calls record.item rest with
            | error fault => rfl
            | ok middle => exact inductionHypothesis tail middle

/-- The journal with one more record is replayed as the journal and then the record. -/
theorem updateLoop_appendRecords {records appended : List JournalRecord} {record : JournalRecord}
    (result : appendRecords records record = some appended) (rest : Rest) :
    updateLoop calls (appended.map JournalRecord.item) rest =
      (updateLoop calls (records.map JournalRecord.item) rest).bind
        (updateLoop calls [record.item]) := by
  unfold appendRecords at result
  split at result
  · next renames =>
      obtain ⟨rewritten, rewrites, rfl⟩ := Option.map_eq_some_iff.mp result
      rw [List.map_append, updateLoop_append, updateLoop_rewriteAll calls rewrites]
      refine congrArg _ (funext fun middle => ?_)
      -- The entry written last has the two paths of the record, and a rename uses no more.
      have one (item : JournalItem) (op : item.entry.op = JournalOp.rename.code) :
          updateLoop calls [item] middle = .ok (calls.rename item.path item.toPath middle) := by
        simp only [updateLoop, applyEntry, op, JournalOp.ofCode_code]
        rfl
      exact (one _ rfl).trans (one record.item renames.1).symm
  · cases result
    rw [List.map_append, updateLoop_append]
    rfl

end Calls

/-! ## One record -/

namespace SourceNames

variable {space : Namespace Component UInt32} {refused : Nat} {records appended : List JournalRecord}
  {record : JournalRecord} {start : SourceNames}

/-- What an apply of one more record does. -/
theorem replay_append (result : appendRecords records record = some appended)
    (before : replay records start = .ok ⟨space, refused⟩) :
    replay appended start = updateLoop applyCalls [record.item] ⟨space, refused⟩ := by
  unfold replay at before ⊢
  rw [updateLoop_appendRecords applyCalls result, before]
  rfl

/-- A record of an operation that is replayed as this call. -/
theorem replay_one {op : JournalOp} (known : record.op = op.code) (update : op ≠ .fsync)
    {source after : SourceNames} (applied : applyEntry applyCalls record.item source = .ok after) :
    updateLoop applyCalls [record.item] source = .ok after := by
  have other : record.item.entry.op ≠ JournalOp.fsync.code := by
    rw [show record.item.entry.op = op.code from known]
    revert update
    cases op <;> decide
  rw [updateLoop, if_neg other, applied]
  rfl

end SourceNames

end Journal
end Mcachefs
