import Mcachefs.Journal.Apply

namespace Mcachefs
namespace Journal

open Library

/-!
# What is written to a journal is read back

Calls of `mcachefs_journal_append_entry` that write everything add up to a file
from which `mcachefs_journal_read_entry` delivers the same entries, call by
call, and then `0`.  A file that has been cut off inside an entry still
delivers those before it.  The call for the incomplete one returns what `errno`
happens to hold, which need not be an error: `cut_detected_iff`.
-/

/-- The arguments of one call of `mcachefs_journal_append_entry`; `none` stands
for a `to` that is `NULL`. -/
structure Appending where
  entry : JournalEntry
  path : Path
  toPath : Option Path
  deriving DecidableEq, Repr

namespace Appending

/-- The two strings are C strings that fit the readers' buffers. -/
structure Fits (appending : Appending) : Prop where
  path_noNul : (0 : Byte) ∉ appending.path
  path_short : appending.path.length < PATH_MAX
  to_noNul : forall toPath, appending.toPath = some toPath -> (0 : Byte) ∉ toPath
  to_short : forall toPath, appending.toPath = some toPath -> toPath.length < PATH_MAX

/-- What an append says, whatever the sizes in its structure were. -/
def record (appending : Appending) : JournalRecord where
  op := appending.entry.op
  mode := appending.entry.mode
  rdev := appending.entry.rdev
  uid := appending.entry.uid
  gid := appending.entry.gid
  size := appending.entry.size
  utimbuf := appending.entry.utimbuf
  path := appending.path
  toPath := appending.toPath.getD []

/-- The structure as it is written: the call sets the two sizes. -/
def written (appending : Appending) : JournalEntry :=
  { appending.entry with
    path_sz := UInt32.ofNat appending.path.length
    to_sz := UInt32.ofNat (appending.toPath.getD []).length }

theorem Fits.readable {appending : Appending} (fits : appending.Fits) :
    appending.record.Readable := by
  cases toPath : appending.toPath with
  | none =>
      have empty : appending.record.toPath = [] := by
        rw [record, toPath]
        rfl
      exact ⟨fits.path_noNul, empty ▸ List.not_mem_nil, fits.path_short, empty ▸ by decide⟩
  | some second =>
      have same : appending.record.toPath = second := by
        rw [record, toPath]
        rfl
      exact ⟨fits.path_noNul, same ▸ fits.to_noNul second toPath, fits.path_short,
        same ▸ fits.to_short second toPath⟩

theorem appendEntry_record (writes : Nat -> WriteOutcome) (file : List Byte)
    (appending : Appending) :
    appendEntry writes file appending.entry appending.path appending.toPath =
      appendEntry writes file appending.record.entry appending.record.path
        (some appending.record.toPath) :=
  rfl

end Appending

/-- One append after the other, each of which writes everything: what the calls
return, and the file. -/
def appendAll (file : List Byte) : List Appending -> List Int × List Byte
  | [] => ([], file)
  | appending :: rest =>
      let (code, file) := appendEntry (fun _ => .complete) file appending.entry appending.path
        appending.toPath
      let (codes, file) := appendAll file rest
      (code :: codes, file)

/-- One read after the other delivers these entries and ends with `0` at the end
of the file, whatever `errno` is before each of them. -/
def ReadsBack : List Byte -> List Appending -> Prop
  | file, [] => file = [] ∧ forall errno, readEntry errno file = .returned 0
  | file, appending :: appendings => Exists fun bytes => Exists fun rest =>
      (forall errno, readEntry errno file =
        .entry bytes appending.written appending.path (appending.toPath.getD []) rest) ∧
      bytes = entrySize + appending.path.length + (appending.toPath.getD []).length ∧
      file.length = bytes + rest.length ∧ ReadsBack rest appendings

theorem appendAll_complete (appendings : List Appending) (file : List Byte) :
    appendAll file appendings = (appendings.map fun _ => 0,
      file ++ encodeJournal (appendings.map Appending.record)) := by
  induction appendings generalizing file with
  | nil => simp [appendAll, encodeJournal]
  | cons appending appendings inductionHypothesis =>
      simp only [appendAll, Appending.appendEntry_record,
        appending.record.appendEntry_complete, inductionHypothesis, List.map_cons,
        encodeJournal_cons, List.append_assoc]

theorem readsBack_encodeJournal (appendings : List Appending)
    (fits : forall appending, appending ∈ appendings -> appending.Fits) :
    ReadsBack (encodeJournal (appendings.map Appending.record)) appendings := by
  induction appendings with
  | nil => exact ⟨rfl, readEntry_nil⟩
  | cons appending appendings inductionHypothesis =>
      have readable := (fits appending List.mem_cons_self).readable
      have read := fun errno => appending.record.readEntry_encode readable errno
        (encodeJournal (appendings.map Appending.record))
      have later := inductionHypothesis fun other member =>
        fits other (List.mem_cons_of_mem appending member)
      exact ⟨_, _, read, appending.record.encode_length, List.length_append, later⟩

/-- Entries that are written one after the other are read back as they were. -/
theorem appendAll_readsBack (appendings : List Appending)
    (fits : forall appending, appending ∈ appendings -> appending.Fits) :
    (appendAll [] appendings).1 = appendings.map (fun _ => 0) ∧
      ReadsBack (appendAll [] appendings).2 appendings := by
  rw [appendAll_complete, List.nil_append]
  exact ⟨rfl, readsBack_encodeJournal appendings fits⟩

/-- An entry with stale sizes and no second path, and one with two paths. -/
theorem appendAll_readsBack_two :
    ReadsBack (appendAll [] [
      ⟨⟨JournalOp.unlink.code, 7, 9, 0, 0, 0, 0, 0, .zero⟩, ascii "/a", none⟩,
      ⟨⟨JournalOp.rename.code, 0, 0, 0, 0, 0, 0, 0, .zero⟩, ascii "/b", some (ascii "/c")⟩]).2 [
      ⟨⟨JournalOp.unlink.code, 7, 9, 0, 0, 0, 0, 0, .zero⟩, ascii "/a", none⟩,
      ⟨⟨JournalOp.rename.code, 0, 0, 0, 0, 0, 0, 0, .zero⟩, ascii "/b", some (ascii "/c")⟩] := by
  refine (appendAll_readsBack _ fun appending member => ?_).2
  simp only [List.mem_cons, List.not_mem_nil, or_false] at member
  rcases member with rfl | rfl
  · exact ⟨by decide, by decide, fun _ impossible => Option.noConfusion rfl (heq_of_eq impossible),
      fun _ impossible => Option.noConfusion rfl (heq_of_eq impossible)⟩
  · exact ⟨by decide, by decide, fun _ same => Option.some.inj same ▸ by decide,
      fun _ same => Option.some.inj same ▸ by decide⟩

/-! ## Journals that have been cut off -/

/-- A reader delivers the complete entries and reports an error for the one that
is cut off, and nothing takes the file for a complete journal. -/
def CutDetected (errno : Nat) (records : List JournalRecord) (cut : Nat) : Prop :=
  Exists fun front => Exists fun record => Exists fun back => Exists fun res : Int =>
    records = front ++ record :: back ∧
      (encodeJournal front).length < cut ∧
      cut < (encodeJournal (front ++ [record])).length ∧
      readJournal errno ((encodeJournal records).take cut) =
        (front.map JournalRecord.item, some res) ∧
      res < 0 ∧
      (forall (Rest : Type) (calls : ApplyCalls Rest) (rest : Rest) result,
        applyUpdates calls errno (some ((encodeJournal records).take cut)) rest ≠ .ok result) ∧
      forall (calls : RebuildCalls), calls.errno = errno -> forall renamePath renameTo journal,
        rebuild calls renamePath renameTo ((encodeJournal records).take cut) ≠
          .returned 0 journal

/-- The first bytes of an entry: the structure or one of the strings is short. -/
theorem JournalRecord.readEntry_cut (record : JournalRecord) (readable : record.Readable)
    (errno : Nat) {cut : Nat} (some : 0 < cut) (short : cut < record.encode.length) :
    readEntry errno (record.encode.take cut) = .returned (-(errno : Int)) := by
  rw [encode_length] at short
  have pathSize : record.entry.path_sz.toNat = record.path.length := by
    rw [entry, UInt32.toNat_ofNat']
    exact Nat.mod_eq_of_lt (readable.path_short.trans (by decide))
  have toSize : record.entry.to_sz.toNat = record.toPath.length := by
    rw [entry, UInt32.toNat_ofNat']
    exact Nat.mod_eq_of_lt (readable.to_short.trans (by decide))
  by_cases inHeader : cut < entrySize
  · have header : ((record.encode.take cut).take entrySize).length = cut := by
      rw [List.length_take, List.length_take, encode_length]
      omega
    have none : ¬ cut = 0 := by omega
    have incomplete : cut ≠ entrySize := by omega
    simp only [readEntry, header, none, incomplete, ne_eq, not_false_eq_true, if_true, if_false]
  · obtain ⟨body, rfl⟩ := Nat.exists_eq_add_of_le (Nat.not_lt.mp inHeader)
    have header : (record.encode.take (entrySize + body)).take entrySize = record.entry.encode := by
      rw [List.take_take, Nat.min_eq_left (Nat.le_add_right _ _), encode,
        List.take_left' record.entry.encode_length]
    have strings : (record.encode.take (entrySize + body)).drop entrySize =
        (record.path ++ record.toPath).take body := by
      rw [List.drop_take, Nat.add_sub_cancel_left, encode,
        List.drop_left' record.entry.encode_length]
    have nonempty : ¬ entrySize = 0 := by decide
    simp only [readEntry, header, strings, JournalEntry.encode_length, JournalEntry.decode_encode,
      nonempty, ne_eq, not_true_eq_false, if_false]
    by_cases inPath : body < record.path.length
    · rw [readString_cut _ (pathSize ▸ readable.path_short)]
      rw [List.length_take, pathSize]
      exact (Nat.min_le_left _ _).trans_lt inPath
    · obtain ⟨more, rfl⟩ := Nat.exists_eq_add_of_le (Nat.not_lt.mp inPath)
      rw [List.take_length_add_append, readString_append pathSize readable.path_short]
      simp only
      rw [readString_cut _ (toSize ▸ readable.to_short)]
      rw [List.length_take, toSize]
      omega

/-- A cut that is not at the end of an entry is inside one. -/
theorem exists_cut {records : List JournalRecord} {cut : Nat}
    (inside : cut ≤ (encodeJournal records).length)
    (offBoundary : forall front, front <+: records -> cut ≠ (encodeJournal front).length) :
    Exists fun front => Exists fun record => Exists fun back => Exists fun more =>
      records = front ++ record :: back ∧ cut = (encodeJournal front).length + more ∧
        0 < more ∧ more < record.encode.length := by
  induction records generalizing cut with
  | nil => exact absurd (Nat.le_zero.mp inside) (offBoundary [] List.nil_prefix)
  | cons record records inductionHypothesis =>
      have some : cut ≠ 0 := offBoundary [] List.nil_prefix
      by_cases first : cut < record.encode.length
      · exact ⟨[], record, records, cut, rfl, (Nat.zero_add cut).symm, Nat.pos_of_ne_zero some,
          first⟩
      · obtain ⟨rest, rfl⟩ := Nat.exists_eq_add_of_le (Nat.not_lt.mp first)
        rw [encodeJournal_cons, List.length_append] at inside
        have within : rest ≤ (encodeJournal records).length := by omega
        obtain ⟨front, other, back, more, rfl, rfl, positive, short⟩ :=
          inductionHypothesis within fun front shorter same => by
            refine offBoundary (record :: front) (List.cons_prefix_cons.mpr ⟨rfl, shorter⟩) ?_
            rw [encodeJournal_cons, List.length_append, same]
        refine ⟨record :: front, other, back, more, rfl, ?_, positive, short⟩
        rw [encodeJournal_cons, List.length_append, Nat.add_assoc]

/-- Reading goes on after the complete entries. -/
theorem readLoop_append (errno : Nat) (front : List JournalRecord)
    (readable : forall record, record ∈ front -> record.Readable) (fuel : Nat) (rest : List Byte) :
    readLoop errno (fuel + front.length) (encodeJournal front ++ rest) =
      (front.map JournalRecord.item ++ (readLoop errno fuel rest).1,
        (readLoop errno fuel rest).2) := by
  induction front with
  | nil => rfl
  | cons record front inductionHypothesis =>
      have first := record.readEntry_encode (readable record List.mem_cons_self) errno
        (encodeJournal front ++ rest)
      rw [List.length_cons, ← Nat.add_assoc, encodeJournal_cons, List.append_assoc, readLoop, first]
      simp only
      rw [inductionHypothesis fun other member =>
        readable other (List.mem_cons_of_mem record member)]
      rfl

/-- More calls than entries make no difference once the reader has stopped. -/
theorem readLoop_mono {errno fuel more : Nat} {file : List Byte} {items : List JournalItem}
    {res : Int} (ended : readLoop errno fuel file = (items, some res)) (le : fuel ≤ more) :
    readLoop errno more file = (items, some res) := by
  induction fuel generalizing more file items with
  | zero => cases ended
  | succ fuel inductionHypothesis =>
      obtain ⟨more, rfl⟩ := Nat.exists_eq_add_of_le' (Nat.le_trans (Nat.succ_le_succ
        (Nat.zero_le fuel)) le)
      unfold readLoop at ended ⊢
      cases read : readEntry errno file with
      | returned last =>
          rw [read] at ended
          exact ended
      | overflow =>
          rw [read] at ended
          exact ended
      | entry bytes entry path toPath rest =>
          rw [read] at ended
          simp only [Prod.mk.injEq] at ended ⊢
          have later := inductionHypothesis (Prod.ext rfl ended.2) (Nat.le_of_succ_le_succ le)
          rw [later]
          exact ⟨ended.1, rfl⟩

/-- What follows the complete entries decides how the reading ends. -/
theorem readJournal_append {errno : Nat} {front : List JournalRecord}
    (readable : forall record, record ∈ front -> record.Readable) {rest : List Byte} {res : Int}
    (ended : readEntry errno rest = .returned res) :
    readJournal errno (encodeJournal front ++ rest) = (front.map JournalRecord.item, some res) := by
  have last : readLoop errno 1 rest = ([], some res) := by
    unfold readLoop
    rw [ended]
  have whole := readLoop_append errno front readable 1 rest
  rw [last, List.append_nil] at whole
  refine readLoop_mono whole ?_
  have long := length_le_encodeJournal front
  rw [List.length_append]
  omega

/-- A rebuild that reports success has read its source to the end. -/
theorem rebuildLoop_ends {calls : RebuildCalls} {renamePath renameTo : Path}
    {fuel copied count : Nat} {source target result : List Byte}
    (ended : rebuildLoop calls renamePath renameTo fuel copied source target =
      some (0, count, result)) : (readLoop calls.errno fuel source).2 = some 0 := by
  induction fuel generalizing copied source target with
  | zero => cases ended
  | succ fuel inductionHypothesis =>
      unfold rebuildLoop at ended
      unfold readLoop
      cases read : readEntry calls.errno source with
      | returned res =>
          rw [read] at ended
          obtain ⟨rfl, -⟩ := Prod.mk.inj (Option.some.inj ended)
          rfl
      | overflow =>
          rw [read] at ended
          cases ended
      | entry bytes entry path toPath rest =>
          rw [read] at ended
          simp only at ended ⊢
          split at ended
          · split at ended
            · cases ended
            · split at ended
              · next failed =>
                  obtain ⟨none, -⟩ := Prod.mk.inj (Option.some.inj ended)
                  exact absurd none (Int.ne_of_lt failed)
              · exact inductionHypothesis ended
          · split at ended
            · next failed =>
                obtain ⟨none, -⟩ := Prod.mk.inj (Option.some.inj ended)
                exact absurd none (Int.ne_of_lt failed)
            · exact inductionHypothesis ended

theorem rebuild_ends {calls : RebuildCalls} {renamePath renameTo : Path} {file : List Byte}
    {journal : Option (List Byte)} (errno : calls.errno ≠ 0)
    (ended : rebuild calls renamePath renameTo file = .returned 0 journal) :
    (readJournal calls.errno file).2 = some 0 := by
  have negative : (-(calls.errno : Int)) ≠ 0 := by omega
  unfold rebuild at ended
  split at ended
  · cases ended
  · split at ended
    · exact absurd (RebuildOutcome.returned.inj ended).1 negative
    · split at ended
      · exact absurd (RebuildOutcome.returned.inj ended).1 negative
      · split at ended
        · cases ended
        · next res copied target looped =>
            by_cases zero : res = 0
            · exact rebuildLoop_ends (zero ▸ looped)
            · rw [if_neg zero] at ended
              simp only [ne_eq, zero, not_false_eq_true, if_true] at ended
              cases ended

/-- A cut inside an entry is noticed exactly where `errno` was set before. -/
theorem cut_detected_iff (errno : Nat) (records : List JournalRecord)
    (readable : forall record, record ∈ records -> record.Readable) (cut : Nat)
    (inside : cut ≤ (encodeJournal records).length)
    (offBoundary : forall front, front <+: records -> cut ≠ (encodeJournal front).length) :
    CutDetected errno records cut ↔ errno ≠ 0 := by
  obtain ⟨front, record, back, more, rfl, rfl, some, short⟩ := exists_cut inside offBoundary
  have file : (encodeJournal (front ++ record :: back)).take ((encodeJournal front).length + more) =
      encodeJournal front ++ record.encode.take more := by
    rw [encodeJournal_append, encodeJournal_cons, List.take_length_add_append,
      List.take_append_of_le_length (Nat.le_of_lt short)]
  have read : readJournal errno (encodeJournal front ++ record.encode.take more) =
      (front.map JournalRecord.item, .some (-(errno : Int))) :=
    readJournal_append (fun other member => readable other (List.mem_append_left _ member))
      (record.readEntry_cut (readable record (List.mem_append_right _ List.mem_cons_self)) errno
        some short)
  constructor
  · rintro ⟨_, _, _, res, -, -, -, ended, negative, -, -⟩ rfl
    rw [file, read] at ended
    have zero : res = 0 := (Option.some.inj (Prod.mk.inj ended).2).symm
    exact absurd negative (zero ▸ Int.lt_irrefl 0)
  · intro set
    have negative : (-(errno : Int)) < 0 := by omega
    refine ⟨front, record, back, _, rfl, by omega, ?_, by rw [file, read], negative, ?_, ?_⟩
    · rw [encodeJournal_append, List.length_append, encodeJournal_cons, List.length_append]
      omega
    · intro Rest calls rest result applied
      rw [file] at applied
      simp only [applyUpdates, read, endOfLoop, if_pos negative] at applied
      split at applied
      · cases applied
      · cases applied
    · rintro calls rfl renamePath renameTo journal ended
      rw [file] at ended
      have complete := rebuild_ends set ended
      rw [read] at complete
      exact absurd (Option.some.inj complete) (Int.ne_of_lt negative)

/-- A journal cut off after one byte of its path, read after an error. -/
theorem cut_detected_after_error : CutDetected 5 [fsyncRecord (ascii "/a")] 57 := by
  have boundaries : forall front, front ∈ [fsyncRecord (ascii "/a")].inits ->
      57 ≠ (encodeJournal front).length := by
    decide
  exact (cut_detected_iff 5 _ (by decide) 57 (by decide) fun front shorter =>
    boundaries front ((List.mem_inits _ _).mpr shorter)).mpr (by decide)

/-- The same journal, read when `errno` was not set: its entry is lost, and both
readers take the empty rest for a complete journal. -/
theorem cut_taken_for_end :
    readJournal 0 ((encodeJournal [fsyncRecord (ascii "/a")]).take 57) = ([], some 0) ∧
      (applyUpdates (.onlyWriteback fun _ rest => (0, rest)) 0
        (some ((encodeJournal [fsyncRecord (ascii "/a")]).take 57)) ()).toOption = some (0, ()) ∧
      ¬ CutDetected 0 [fsyncRecord (ascii "/a")] 57 := by
  have read : readJournal 0 ((encodeJournal [fsyncRecord (ascii "/a")]).take 57) = ([], some 0) := by
    decide
  refine ⟨read, ?_, ?_⟩
  · simp only [applyUpdates, read, updateLoop, endOfLoop, Int.lt_irrefl, if_false]
    rfl
  · rintro ⟨front, record, back, res, -, -, -, ended, negative, -⟩
    rw [read] at ended
    have zero : res = 0 := (Option.some.inj (Prod.mk.inj ended).2).symm
    exact absurd negative (zero ▸ Int.lt_irrefl 0)

end Journal
end Mcachefs
