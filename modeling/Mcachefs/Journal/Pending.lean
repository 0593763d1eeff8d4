import Mcachefs.Journal.Apply

namespace Mcachefs
namespace Journal

open Library

/-!
# Pending writes

The fsync entries of a journal are the writes an apply will have to transfer.
This module says what an append does to their paths.
-/

/-- The paths of the fsync entries, as an apply reads them. -/
def fsyncPaths (errno : Nat) (journal : Option (List Byte)) : List Path :=
  (fsyncItems (readJournal errno (journal.getD [])).1).map JournalItem.path

/-- The file is missing, or a sequence of whole readable entries. -/
def Written (journal : Option (List Byte)) : Prop :=
  Exists fun records : List JournalRecord =>
    journal.getD [] = encodeJournal records ∧
      forall record, record ∈ records -> record.Readable

theorem WrittenJournal.written (journal : Option WrittenJournal) :
    Written (journal.map WrittenJournal.file) := by
  cases journal with
  | none => exact ⟨[], rfl, by simp⟩
  | some journal => exact ⟨journal.records, rfl, journal.readable⟩

theorem written_none : Written none := ⟨[], rfl, by simp⟩

theorem mem_fsyncPaths {errno : Nat} {journal : Option (List Byte)}
    {records : List JournalRecord} (file : journal.getD [] = encodeJournal records)
    (readable : forall record, record ∈ records -> record.Readable) (path : Path) :
    path ∈ fsyncPaths errno journal ↔
      Exists fun record => record ∈ records ∧ record.op = JournalOp.fsync.code ∧
        record.path = path := by
  rw [fsyncPaths, file, readJournal_encodeJournal errno records readable]
  simp only [fsyncItems, List.mem_map, List.mem_filter, decide_eq_true_eq]
  constructor
  · rintro ⟨item, ⟨⟨record, member, rfl⟩, op⟩, same⟩
    exact ⟨record, member, op, same⟩
  · rintro ⟨record, member, op, same⟩
    exact ⟨record.item, ⟨⟨record, member, rfl⟩, op⟩, same⟩

/-- What appending `record` makes of the path of an earlier fsync entry: a
rename replaces a leading `record.path`, even one that is only a part of a
name. -/
def carried (record : JournalRecord) (path : Path) : Path :=
  if record.op = JournalOp.rename.code ∧ record.path <+: path then
    record.toPath ++ path.drop record.path.length
  else path

/-- The records a rename rewrites include the carried form of each one. -/
private theorem rewriteAll_carried {renamePath renameTo : Path}
    {records rewritten : List JournalRecord}
    (result : rewriteAll renamePath renameTo records = some rewritten)
    {record : JournalRecord} (member : record ∈ records)
    (op : record.op = JournalOp.fsync.code) :
    Exists fun other => other ∈ rewritten ∧ other.op = JournalOp.fsync.code ∧
      other.path = carried (renameRecord renamePath renameTo) record.path := by
  induction records generalizing rewritten with
  | nil => exact absurd member List.not_mem_nil
  | cons first records inductionHypothesis =>
      rw [rewriteAll] at result
      cases head : rewrite renamePath renameTo first with
      | none => simp [head] at result
      | some altered =>
          cases tail : rewriteAll renamePath renameTo records with
          | none => simp [head, tail] at result
          | some later =>
              simp only [head, tail, Option.map_some, Option.some.injEq] at result
              subst result
              rcases List.mem_cons.mp member with same | inside
              · subst same
                refine ⟨altered, List.mem_cons_self, ?_⟩
                simp only [rewrite, op, true_and, strncmpEqual_length_iff] at head
                simp only [carried, renameRecord, true_and]
                split at head
                · next starts =>
                    rw [if_pos starts]
                    split at head
                    · cases head
                    · cases head
                      exact ⟨rfl, rfl⟩
                · next other =>
                    rw [if_neg other]
                    cases head
                    exact ⟨op, rfl⟩
              · obtain ⟨other, found, both⟩ := inductionHypothesis tail inside
                exact ⟨other, List.mem_cons_of_mem altered found, both⟩

/-- A successful append keeps the journal well formed, carries the earlier
pending writes along, and adds its own if it is one. -/
theorem append_written (errno : Nat) {journal after : Option (List Byte)} {res : Int}
    {record : JournalRecord} (written : Written journal) (paths : record.Readable)
    (appended : append (.succeed errno) journal record = .returned res after) :
    Written after ∧
      (forall path, path ∈ fsyncPaths errno journal ->
        carried record path ∈ fsyncPaths errno after) ∧
      (record.op = JournalOp.fsync.code -> record.path ∈ fsyncPaths errno after) := by
  obtain ⟨records, file, readable⟩ := written
  have same : append (.succeed errno) journal record =
      append (.succeed errno) (some (encodeJournal records)) record := by
    simp only [append, file, Option.getD_some]
  rw [same, append_encodeJournal errno records record readable paths] at appended
  cases result : appendRecords records record with
  | none => simp [result] at appended
  | some all =>
      simp only [result, RebuildOutcome.returned.injEq] at appended
      obtain ⟨-, rfl⟩ := appended
      have allReadable := appendRecords_readable readable paths result
      refine ⟨⟨all, rfl, allReadable⟩, ?_, ?_⟩
      · intro path member
        obtain ⟨earlier, inside, op, rfl⟩ := (mem_fsyncPaths file readable path).mp member
        apply (mem_fsyncPaths (Option.getD_some) allReadable _).mpr
        unfold appendRecords at result
        split at result
        · next renames =>
            obtain ⟨rewritten, rewrites, rfl⟩ := Option.map_eq_some_iff.mp result
            obtain ⟨other, found, isFsync, carriedPath⟩ :=
              rewriteAll_carried rewrites inside op
            refine ⟨other, List.mem_append_left _ found, isFsync, ?_⟩
            rw [carriedPath]
            simp only [carried, renameRecord, renames.1, true_and]
        · next plain =>
            cases result
            have notRename : record.op ≠ JournalOp.rename.code :=
              fun renames => plain ⟨renames, List.ne_nil_of_mem inside⟩
            exact ⟨earlier, List.mem_append_left _ inside, op, by
              rw [carried, if_neg (fun both => notRename both.1)]⟩
      · intro op
        apply (mem_fsyncPaths (Option.getD_some) allReadable _).mpr
        have plain : ¬ (record.op = JournalOp.rename.code ∧ records ≠ []) := by
          rw [op]
          exact fun both => absurd both.1 (by decide)
        rw [appendRecords, if_neg plain] at result
        cases result
        exact ⟨record, List.mem_append_right _ List.mem_cons_self, op, rfl⟩

end Journal
end Mcachefs
