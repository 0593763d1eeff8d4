import Mcachefs.Journal.RoundTrip

namespace Mcachefs
namespace Journal

open Library

/-!
# Appends that fail

`mcachefs_journal_append_entry` gives up at the first write that is incomplete
and leaves in the file what has been written, and `mcachefs_journal_append`
closes the file as if nothing had happened.  The readers take the bytes of the
next entry for the rest of the incomplete one, so that the journal is as before
only where nothing of the entry was written: `failed_append_harmless_iff`.
-/

/-- Calls of `mcachefs_journal_append` that all succeed, from one file to another;
`errno` may be different before each of them. -/
def AppendsTo : List Byte -> List (Nat × JournalRecord) -> List Byte -> Prop
  | file, [], final => final = file
  | file, (errno, record) :: more, final => record.Readable ∧ Exists fun next =>
      append (.succeed errno) (some file) record = .returned 0 (some next) ∧
        AppendsTo next more final

/-- The records of a journal after these appends. -/
def appendRecordsAll (records : List JournalRecord) :
    List (Nat × JournalRecord) -> Option (List JournalRecord)
  | [] => some records
  | (_, record) :: more => (appendRecords records record).bind (appendRecordsAll · more)

/-- After a failed append to the journal and any number of successful ones, the
journal holds the former entries and those of the successful appends.  Where the
journal is not empty a rename is not appended but makes `append` rebuild it, and
a failed write to the rebuilt journal ends the program. -/
def KeepsJournal (former : List JournalRecord) (record : JournalRecord)
    (writes : Nat -> WriteOutcome) : Prop :=
  forall more final,
    AppendsTo (appendEntry writes (encodeJournal former) record.entry record.path
      (some record.toPath)).2 more final ->
    Exists fun expected => appendRecordsAll former more = some expected ∧
      forall errno, readJournal errno final = (expected.map JournalRecord.item, some 0)

/-! ## What a failed append leaves behind -/

theorem WriteOutcome.written_prefix (outcome : WriteOutcome) (data : List Byte) :
    outcome.written data <+: data := by
  cases outcome with
  | complete => exact List.prefix_refl data
  | short count => exact List.take_prefix count data

/-- A write of the full length has written everything. -/
theorem WriteOutcome.written_eq {outcome : WriteOutcome} {data : List Byte}
    (whole : (outcome.written data).length = data.length) : outcome.written data = data :=
  (outcome.written_prefix data).eq_of_length whole

/-- A proper prefix is shorter. -/
theorem WriteOutcome.written_lt {outcome : WriteOutcome} {data : List Byte}
    (short : (outcome.written data).length ≠ data.length) :
    (outcome.written data).length < data.length :=
  Nat.lt_of_le_of_ne (outcome.written_prefix data).length_le short

/-- A failed append leaves the first bytes of its entry, none of them where the
first write wrote nothing. -/
theorem appendEntry_failed {writes : Nat -> WriteOutcome} {file : List Byte}
    {record : JournalRecord}
    (failed : (appendEntry writes file record.entry record.path (some record.toPath)).1 ≠ 0) :
    Exists fun rest => rest <+: record.encode ∧ rest.length < record.encode.length ∧
      (appendEntry writes file record.entry record.path (some record.toPath)).2 = file ++ rest ∧
      (rest = [] ↔ (writes 0).written record.entry.encode = []) := by
  have sizes : { record.entry with
      path_sz := UInt32.ofNat record.path.length, to_sz := UInt32.ofNat record.toPath.length } =
      record.entry := rfl
  have entryLength := record.entry.encode_length
  simp only [appendEntry, Option.getD_some, sizes] at failed ⊢
  by_cases first : ((writes 0).written record.entry.encode).length = entrySize
  · have header := WriteOutcome.written_eq (first.trans entryLength.symm)
    have headerSome : record.entry.encode ≠ [] := by
      intro none
      rw [none] at entryLength
      exact absurd entryLength (by decide)
    rw [header]
    simp only [entryLength, ne_eq, not_true_eq_false, if_false, header] at failed ⊢
    by_cases second : ((writes 1).written record.path).length = record.path.length
    · have path := WriteOutcome.written_eq second
      simp only [path, not_true_eq_false, if_false] at failed ⊢
      by_cases toSome : record.toPath.length = 0
      · simp only [toSome, not_true_eq_false, if_false] at failed
      · by_cases third : ((writes 2).written record.toPath).length = record.toPath.length
        · simp only [toSome, third, not_false_eq_true, not_true_eq_false, if_true,
            if_false] at failed
        · simp only [toSome, third, not_false_eq_true, if_true]
          refine ⟨record.entry.encode ++ (record.path ++ (writes 2).written record.toPath), ?_, ?_,
            by simp only [List.append_assoc], by simp [headerSome]⟩
          · exact (List.prefix_append_right_inj _).mpr ((List.prefix_append_right_inj _).mpr
              (WriteOutcome.written_prefix _ _))
          · have short := WriteOutcome.written_lt third
            simp only [JournalRecord.encode, List.length_append]
            omega
    · simp only [second, not_false_eq_true, if_true]
      refine ⟨record.entry.encode ++ (writes 1).written record.path, ?_, ?_,
        List.append_assoc _ _ _, by simp [headerSome]⟩
      · exact (List.prefix_append_right_inj _).mpr
          ((WriteOutcome.written_prefix _ _).trans (List.prefix_append _ _))
      · have short := WriteOutcome.written_lt second
        simp only [JournalRecord.encode, List.length_append]
        omega
  · simp only [first, ne_eq, not_false_eq_true, if_true]
    refine ⟨_, (WriteOutcome.written_prefix _ _).trans (List.prefix_append _ _), ?_, rfl, Iff.rfl⟩
    have short := WriteOutcome.written_lt (fun same => first (same.trans entryLength))
    simp only [JournalRecord.encode, List.length_append]
    omega

/-! ## The appends after it -/

/-- Appends to a journal without damage. -/
theorem AppendsTo.records {records : List JournalRecord} {more : List (Nat × JournalRecord)}
    {final : List Byte} (readable : forall record, record ∈ records -> record.Readable)
    (appends : AppendsTo (encodeJournal records) more final) :
    Exists fun expected => appendRecordsAll records more = some expected ∧
      (forall record, record ∈ expected -> record.Readable) ∧ final = encodeJournal expected := by
  induction more generalizing records with
  | nil => exact ⟨records, rfl, readable, appends⟩
  | cons one more inductionHypothesis =>
      obtain ⟨errno, record⟩ := one
      obtain ⟨paths, next, appended, rest⟩ := appends
      rw [append_encodeJournal errno records record readable paths] at appended
      cases result : appendRecords records record with
      | none =>
          rw [result] at appended
          cases appended
      | some following =>
          rw [result] at appended
          obtain rfl := Option.some.inj (RebuildOutcome.returned.inj appended).2
          obtain ⟨expected, all, expectedReadable, last⟩ :=
            inductionHypothesis (appendRecords_readable readable paths result) rest
          refine ⟨expected, ?_, expectedReadable, last⟩
          rw [appendRecordsAll, result]
          exact all

/-- A failed append does no harm exactly where its first write wrote nothing. -/
theorem failed_append_harmless_iff (former : List JournalRecord)
    (readable : forall other, other ∈ former -> other.Readable) (record : JournalRecord)
    (paths : record.Readable) (writes : Nat -> WriteOutcome)
    (failed : (appendEntry writes (encodeJournal former) record.entry record.path
      (some record.toPath)).1 ≠ 0) :
    KeepsJournal former record writes ↔ (writes 0).written record.entry.encode = [] := by
  obtain ⟨rest, isPrefix, short, file, none⟩ := appendEntry_failed failed
  constructor
  · intro keeps
    by_contra some
    -- Already the next reader sees the rest of the failed entry.
    obtain ⟨expected, all, read⟩ := keeps [] _ rfl
    obtain rfl := Option.some.inj all
    have positive : 0 < rest.length :=
      List.length_pos_iff.mpr fun empty => some (none.mp empty)
    have cut := record.readEntry_cut paths 1 positive short
    rw [← List.prefix_iff_eq_take.mp isPrefix] at cut
    have ended := read 1
    rw [file, readJournal_append readable cut] at ended
    exact absurd (Option.some.inj (Prod.mk.inj ended).2) (by decide)
  · intro nothing more final appends
    rw [file, none.mpr nothing, List.append_nil] at appends
    obtain ⟨expected, all, expectedReadable, rfl⟩ := appends.records readable
    exact ⟨expected, all, fun errno => readJournal_encodeJournal errno expected expectedReadable⟩

/-- The disk was full before the first byte. -/
theorem failed_append_nothing_written :
    KeepsJournal [fsyncRecord (ascii "/a")] (fsyncRecord (ascii "/b")) (fun _ => .short 0) :=
  (failed_append_harmless_iff _ (by decide) _ (by decide) _ (by decide)).mpr (by decide)

/-- The disk was full after ten bytes: the write-back of `/c`, which was appended later, is
not there for the reader. -/
theorem failed_append_hides_later_entry :
    (appendEntry (fun _ => .short 10) (encodeJournal [fsyncRecord (ascii "/a")])
      (fsyncRecord (ascii "/b")).entry (ascii "/b") (some [])).1 = - EIO ∧
    (Exists fun final =>
      AppendsTo (appendEntry (fun _ => .short 10) (encodeJournal [fsyncRecord (ascii "/a")])
        (fsyncRecord (ascii "/b")).entry (ascii "/b") (some [])).2
        [(0, fsyncRecord (ascii "/c"))] final ∧
      (fsyncRecord (ascii "/c")).item ∉ (readJournal 0 final).1) ∧
    ¬ KeepsJournal [fsyncRecord (ascii "/a")] (fsyncRecord (ascii "/b")) (fun _ => .short 10) := by
  obtain ⟨final, finalEq⟩ : Exists fun final : List Byte => final =
      (appendEntry (fun _ => .short 10) (encodeJournal [fsyncRecord (ascii "/a")])
        (fsyncRecord (ascii "/b")).entry (ascii "/b") (some [])).2 ++
          (fsyncRecord (ascii "/c")).encode := ⟨_, rfl⟩
  have appends : AppendsTo (appendEntry (fun _ => .short 10)
      (encodeJournal [fsyncRecord (ascii "/a")]) (fsyncRecord (ascii "/b")).entry (ascii "/b")
        (some [])).2 [(0, fsyncRecord (ascii "/c"))] final :=
    ⟨by decide, final, by rw [finalEq]; decide, rfl⟩
  have hidden : (fsyncRecord (ascii "/c")).item ∉ (readJournal 0 final).1 := by
    rw [finalEq]
    decide +kernel
  refine ⟨by decide, ⟨final, appends, hidden⟩, fun keeps => ?_⟩
  obtain ⟨expected, all, read⟩ := keeps _ final appends
  obtain rfl : [fsyncRecord (ascii "/a"), fsyncRecord (ascii "/c")] = expected :=
    Option.some.inj all
  rw [read 0] at hidden
  exact hidden (by decide)

end Journal
end Mcachefs
