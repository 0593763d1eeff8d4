import Mcachefs.Journal.Rebuild

namespace Mcachefs
namespace Journal

open Library

/-!
# Appending to the journal

Every callback that changes the namespace or a file appends one entry.  A
rename goes through `rebuild` instead, unless the journal is missing or empty.
On journals of readable records the function has a simple meaning, which
`appendRecords` states and `append_encodeJournal` proves.
-/

/-- `mcachefs_journal_append`.  A failed write is logged and otherwise
ignored; a journal that cannot be opened or rebuilt ends the process. -/
def append (calls : RebuildCalls) (journal : Option (List Byte)) (record : JournalRecord) :
    RebuildOutcome :=
  let file := journal.getD []
  if record.op = JournalOp.rename.code ∧ file.length ≠ 0 then
    match rebuild calls record.path record.toPath file with
    | .returned res journal => if res = 0 then .returned 0 journal else .exited
    | outcome => outcome
  else if calls.openTarget = false then .exited
  else
    .returned 0 (some
      (appendEntry calls.writes file record.entry record.path (some record.toPath)).2)

/-- The effect of an append on the records of the journal; `none` when a
re-targeted path does not fit its buffer. -/
def appendRecords (records : List JournalRecord) (record : JournalRecord) :
    Option (List JournalRecord) :=
  if record.op = JournalOp.rename.code ∧ records ≠ [] then
    (rewriteAll record.path record.toPath records).map
      (· ++ [renameRecord record.path record.toPath])
  else some (records ++ [record])

theorem encodeJournal_eq_nil_iff (records : List JournalRecord) :
    encodeJournal records = [] ↔ records = [] := by
  constructor
  · intro empty
    have short := length_le_encodeJournal records
    rw [empty] at short
    exact List.length_eq_zero_iff.mp (Nat.le_zero.mp short)
  · rintro rfl
    rfl

/-- When all file operations succeed, an append acts on the records as
`appendRecords` says. -/
theorem append_encodeJournal (errno : Nat) (records : List JournalRecord)
    (record : JournalRecord)
    (readable : forall other, other ∈ records -> other.Readable)
    (paths : record.Readable) :
    append (.succeed errno) (some (encodeJournal records)) record =
      match appendRecords records record with
      | none => .overflow
      | some records => .returned 0 (some (encodeJournal records)) := by
  have size : (encodeJournal records).length ≠ 0 ↔ records ≠ [] := by
    rw [ne_eq, List.length_eq_zero_iff, encodeJournal_eq_nil_iff]
  simp only [append, Option.getD_some, appendRecords, size]
  split
  · rw [rebuild_encodeJournal errno record.path record.toPath records paths.to_short readable]
    cases rewriteAll record.path record.toPath records with
    | none => rfl
    | some rewritten => rfl
  · have written := record.appendEntry_complete (encodeJournal records)
    simp only [RebuildCalls.succeed, Bool.true_eq_false, if_false, written]
    simp [encodeJournal]

/-- A journal that does not exist yet is the empty one. -/
theorem append_missing (errno : Nat) (record : JournalRecord) :
    append (.succeed errno) none record = .returned 0 (some (encodeJournal [record])) := by
  have written := record.appendEntry_complete []
  simp only [append, Option.getD_none, List.length_nil, ne_eq, not_true_eq_false, and_false,
    RebuildCalls.succeed, Bool.true_eq_false, if_false, written]
  simp [encodeJournal]

/-- An append leaves the journal readable. -/
theorem appendRecords_readable {records appended : List JournalRecord} {record : JournalRecord}
    (readable : forall other, other ∈ records -> other.Readable) (paths : record.Readable)
    (result : appendRecords records record = some appended) :
    forall other, other ∈ appended -> other.Readable := by
  intro other member
  unfold appendRecords at result
  split at result
  · obtain ⟨rewritten, rewrites, rfl⟩ := Option.map_eq_some_iff.mp result
    rcases List.mem_append.mp member with inside | last
    · exact rewriteAll_readable paths.to_noNul readable rewrites other inside
    · rw [List.mem_singleton.mp last]
      exact ⟨paths.path_noNul, paths.to_noNul, paths.path_short, paths.to_short⟩
  · cases result
    rcases List.mem_append.mp member with inside | last
    · exact readable other inside
    · exact List.mem_singleton.mp last ▸ paths

end Journal
end Mcachefs
