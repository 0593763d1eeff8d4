import Mcachefs.Journal.Entry

namespace Mcachefs
namespace Journal

open Library

/-!
# Rebuilding the journal on a rename

`mcachefs_rename` does not append to a non-empty journal.  It copies the
journal to a temporary file, re-targets the pending write-backs on the way,
appends the rename entry, and moves the copy over the journal.

The model below keeps every system call of the function as a parameter.  The
lemmas that follow reduce a run in which they all succeed to `rewrite`, the
effect of one loop iteration on one record.  `retargeted` is not translated
from the source: it states which entries a rename of a path concerns, namely
the write-backs of that path and of everything below it.
-/

/-- What the system calls around the copy loop do. -/
structure RebuildCalls where
  openSource : Bool
  openTarget : Bool
  writes : Nat -> WriteOutcome
  unlink : Bool
  rename : Bool
  errno : Nat

/-- Every file operation succeeds. -/
def RebuildCalls.succeed (errno : Nat) : RebuildCalls where
  openSource := true
  openTarget := true
  writes := fun _ => .complete
  unlink := true
  rename := true
  errno := errno

/-- How `mcachefs_journal_rebuild` ends.  `journal` is the journal file
afterwards, `none` when there is no such file.  `overflow` stands for a write
past the end of `altered_path` or of a read buffer. -/
inductive RebuildOutcome
  | returned (res : Int) (journal : Option (List Byte))
  | exited
  | overflow
  deriving DecidableEq, Repr

/-- The copy loop.  It returns the last `res`, the number of entries appended
(three write calls each) and the target file, or `none` after an overflow. -/
def rebuildLoop (calls : RebuildCalls) (renamePath renameTo : Path) :
    (fuel copied : Nat) -> (source target : List Byte) -> Option (Int × Nat × List Byte)
  | 0, _, _, _ => none
  | fuel + 1, copied, source, target =>
      match readEntry calls.errno source with
      | .returned res => some (res, copied, target)
      | .overflow => none
      | .entry _ entry path toPath rest =>
          let writes := fun call => calls.writes (3 * copied + call)
          if entry.op = JournalOp.fsync.code ∧
              strncmpEqual path renamePath renamePath.length = true then
            -- strncpy fills the rest of the buffer and terminates only what fits.
            let alteredPath := renameTo ++ path.drop renamePath.length
            if PATH_MAX ≤ alteredPath.length then none
            else
              let (res, target) := appendEntry writes target entry alteredPath (some toPath)
              if res < 0 then some (res, copied, target)
              else rebuildLoop calls renamePath renameTo fuel (copied + 1) rest target
          else
            let (res, target) := appendEntry writes target entry path (some toPath)
            if res < 0 then some (res, copied, target)
            else rebuildLoop calls renamePath renameTo fuel (copied + 1) rest target

/-- The entry a rename adds: a zeroed structure with the two paths. -/
def renameRecord (renamePath renameTo : Path) : JournalRecord where
  op := JournalOp.rename.code
  mode := 0
  rdev := 0
  uid := 0
  gid := 0
  size := 0
  utimbuf := .zero
  path := renamePath
  toPath := renameTo

/-- `mcachefs_journal_rebuild` on the journal file `journal`. -/
def rebuild (calls : RebuildCalls) (renamePath renameTo : Path) (journal : List Byte) :
    RebuildOutcome :=
  if PATH_MAX < renameTo.length then .overflow
  else if calls.openSource = false then .returned (-(calls.errno : Int)) (some journal)
  else if calls.openTarget = false then .returned (-(calls.errno : Int)) (some journal)
  else
    match rebuildLoop calls renamePath renameTo (journal.length + 1) 0 journal [] with
    | none => .overflow
    | some (res, copied, target) =>
        let (res, target) :=
          if res = 0 then
            appendEntry (fun call => calls.writes (3 * copied + call)) target
              (renameRecord renamePath renameTo).entry renamePath (some renameTo)
          else (res, target)
        if res ≠ 0 then .exited
        else if calls.rename then .returned res (some target)
        else .returned (-(calls.errno : Int)) (if calls.unlink then none else some journal)

/-! ## One iteration -/

/-- The record one loop iteration appends for a record it reads; `none` when
the altered path does not fit its buffer. -/
def rewrite (renamePath renameTo : Path) (record : JournalRecord) : Option JournalRecord :=
  if record.op = JournalOp.fsync.code ∧
      strncmpEqual record.path renamePath renamePath.length = true then
    let alteredPath := renameTo ++ record.path.drop renamePath.length
    if PATH_MAX ≤ alteredPath.length then none else some { record with path := alteredPath }
  else some record

/-- The same over a whole journal. -/
def rewriteAll (renamePath renameTo : Path) :
    List JournalRecord -> Option (List JournalRecord)
  | [] => some []
  | record :: records =>
      match rewrite renamePath renameTo record with
      | none => none
      | some first => (rewriteAll renamePath renameTo records).map (first :: ·)

private theorem appendEntry_altered (record : JournalRecord) (target : List Byte)
    (path : Path) :
    appendEntry (fun _ => .complete) target record.entry path (some record.toPath) =
      (0, target ++ { record with path := path }.encode) :=
  ({ record with path := path } : JournalRecord).appendEntry_complete target

/-- With every call succeeding, the copy loop turns a journal of readable
records into the journal of the rewritten ones. -/
theorem rebuildLoop_encodeJournal (errno : Nat) (renamePath renameTo : Path)
    (records : List JournalRecord)
    (readable : forall record, record ∈ records -> record.Readable)
    (fuel copied : Nat) (target : List Byte) (enough : records.length < fuel) :
    rebuildLoop (.succeed errno) renamePath renameTo fuel copied (encodeJournal records) target =
      (rewriteAll renamePath renameTo records).map
        (fun rewritten => (0, copied + rewritten.length, target ++ encodeJournal rewritten)) := by
  induction records generalizing fuel copied target with
  | nil =>
      cases fuel with
      | zero => omega
      | succ fuel => simp [rebuildLoop, rewriteAll, encodeJournal, readEntry_nil]
  | cons record records inductionHypothesis =>
      cases fuel with
      | zero => omega
      | succ fuel =>
          have first : readEntry (RebuildCalls.succeed errno).errno
              (record.encode ++ encodeJournal records) =
                .entry record.encode.length record.entry record.path record.toPath
                  (encodeJournal records) :=
            record.readEntry_encode (readable record List.mem_cons_self) errno _
          have later := fun target => inductionHypothesis
            (fun other member => readable other (List.mem_cons_of_mem record member)) fuel
            (copied + 1) target (by simpa using enough)
          have calls : (fun call => (RebuildCalls.succeed errno).writes (3 * copied + call)) =
              fun _ => WriteOutcome.complete := rfl
          have op : record.entry.op = record.op := rfl
          have nonnegative : ¬ (0 : Int) < 0 := by decide
          simp only [rebuildLoop, encodeJournal_cons, first, calls, op, appendEntry_altered,
            record.appendEntry_complete, nonnegative, if_false, rewriteAll, rewrite, later]
          -- The iteration writes the altered record, overflows, or copies.
          split
          · split
            · rfl
            · cases rewriteAll renamePath renameTo records <;> simp [Nat.add_right_comm, Nat.add_assoc]
          · cases rewriteAll renamePath renameTo records <;> simp [Nat.add_right_comm, Nat.add_assoc]

/-- A successful rebuild of a readable journal writes the rewritten records
followed by the rename entry, or overflows a buffer. -/
theorem rebuild_encodeJournal (errno : Nat) (renamePath renameTo : Path)
    (records : List JournalRecord) (shortTo : renameTo.length < PATH_MAX)
    (readable : forall record, record ∈ records -> record.Readable) :
    rebuild (.succeed errno) renamePath renameTo (encodeJournal records) =
      match rewriteAll renamePath renameTo records with
      | none => .overflow
      | some rewritten => .returned 0
          (some (encodeJournal (rewritten ++ [renameRecord renamePath renameTo]))) := by
  have loop := rebuildLoop_encodeJournal errno renamePath renameTo records readable
    ((encodeJournal records).length + 1) 0 [] (Nat.lt_succ_of_le (length_le_encodeJournal records))
  have notLong : ¬ PATH_MAX < renameTo.length := Nat.not_lt.mpr (Nat.le_of_lt shortTo)
  have last := fun target =>
    (renameRecord renamePath renameTo).appendEntry_complete target
  rw [rebuild, if_neg notLong, loop]
  cases rewriteAll renamePath renameTo records with
  | none => rfl
  | some rewritten =>
      have ends : (renameRecord renamePath renameTo).path = renamePath ∧
          (renameRecord renamePath renameTo).toPath = renameTo := ⟨rfl, rfl⟩
      rw [ends.1, ends.2] at last
      simp only [RebuildCalls.succeed, Option.map_some, List.nil_append, if_true, last,
        Bool.true_eq_false, if_false, ne_eq, not_true_eq_false, encodeJournal_append]
      simp [encodeJournal]

/-! ## What a rename is meant to re-target -/

/-- The record as a rename of `renamePath` to `renameTo` should leave it: a
pending write-back of the renamed path, or of something below it, follows the
rename, and every other record stays. -/
def retargeted (renamePath renameTo : Path) (record : JournalRecord) : JournalRecord :=
  if record.op = JournalOp.fsync.code ∧ Below renamePath record.path then
    { record with path := renameTo ++ record.path.drop renamePath.length }
  else record

/-- The iteration is right for a record exactly when the comparison by string
prefix and the comparison by path component agree on it, unless the rename
changes nothing at all. -/
theorem rewrite_eq_retargeted_iff (renamePath renameTo : Path) (record : JournalRecord)
    (short : (retargeted renamePath renameTo record).path.length < PATH_MAX) :
    rewrite renamePath renameTo record = some (retargeted renamePath renameTo record) ↔
      (renamePath = renameTo ∨ (record.op = JournalOp.fsync.code ->
        renamePath <+: record.path -> Below renamePath record.path)) := by
  simp only [rewrite, strncmpEqual_length_iff]
  by_cases fsync : record.op = JournalOp.fsync.code
  · by_cases starts : renamePath <+: record.path
    · rw [if_pos ⟨fsync, starts⟩]
      by_cases below : Below renamePath record.path
      · have target : retargeted renamePath renameTo record =
            { record with path := renameTo ++ record.path.drop renamePath.length } :=
          if_pos ⟨fsync, below⟩
        rw [target] at short ⊢
        have fits : ¬ PATH_MAX ≤ (renameTo ++ record.path.drop renamePath.length).length :=
          Nat.not_le.mpr short
        simp only [fits, if_false, below, implies_true, or_true]
      · -- A sibling with a common prefix: its tail is grafted onto the new name.
        have target : retargeted renamePath renameTo record = record :=
          if_neg (fun both => below both.2)
        rw [target] at short ⊢
        obtain ⟨tail, path⟩ := starts
        have drop : record.path.drop renamePath.length = tail := by
          rw [← path, List.drop_left]
        rw [drop]
        constructor
        · intro same
          split at same
          · cases same
          · have paths : renameTo ++ tail = record.path :=
              congrArg JournalRecord.path (Option.some.inj same)
            exact Or.inl (List.append_cancel_right (paths.trans path.symm)).symm
        · intro agree
          have same : renamePath = renameTo :=
            agree.resolve_right (fun all => below (all fsync ⟨tail, path⟩))
          rw [← same, path, if_neg (Nat.not_le.mpr short)]
    · have notBelow : ¬ Below renamePath record.path := fun below => starts below.isPrefix
      simp only [retargeted, starts, notBelow, and_false, if_false, false_implies,
        implies_true, or_true]
  · simp only [retargeted, fsync, false_and, if_false, false_implies, or_true]

theorem rewriteAll_eq_retargeted_iff (renamePath renameTo : Path)
    (records : List JournalRecord) (short : forall record, record ∈ records ->
      (retargeted renamePath renameTo record).path.length < PATH_MAX) :
    rewriteAll renamePath renameTo records =
        some (records.map (retargeted renamePath renameTo)) ↔
      forall record, record ∈ records -> (renamePath = renameTo ∨
        (record.op = JournalOp.fsync.code ->
          renamePath <+: record.path -> Below renamePath record.path)) := by
  induction records with
  | nil => simp [rewriteAll]
  | cons record records inductionHypothesis =>
      have head := rewrite_eq_retargeted_iff renamePath renameTo record
        (short record List.mem_cons_self)
      have tail := inductionHypothesis
        (fun other member => short other (List.mem_cons_of_mem record member))
      rw [List.forall_mem_cons, ← head, ← tail, rewriteAll, List.map_cons]
      cases rewrite renamePath renameTo record with
      | none => simp
      | some first => cases rewriteAll renamePath renameTo records <;> simp

theorem noNul_append_drop {first second : Path} (count : Nat)
    (firstFree : (0 : Byte) ∉ first) (secondFree : (0 : Byte) ∉ second) :
    (0 : Byte) ∉ first ++ second.drop count := by
  intro member
  rcases List.mem_append.mp member with inFirst | inSecond
  · exact firstFree inFirst
  · exact secondFree (List.mem_of_mem_drop inSecond)

/-- A rewritten record is still one a reader can read. -/
theorem rewrite_readable {renamePath renameTo : Path} {record rewritten : JournalRecord}
    (toFree : (0 : Byte) ∉ renameTo) (readable : record.Readable)
    (result : rewrite renamePath renameTo record = some rewritten) : rewritten.Readable := by
  unfold rewrite at result
  split at result
  · simp only at result
    split at result
    · cases result
    · next fits =>
        cases result
        exact ⟨noNul_append_drop _ toFree readable.path_noNul, readable.to_noNul,
          Nat.not_le.mp fits, readable.to_short⟩
  · cases result
    exact readable

theorem rewriteAll_readable {renamePath renameTo : Path}
    {records rewritten : List JournalRecord} (toFree : (0 : Byte) ∉ renameTo)
    (readable : forall record, record ∈ records -> record.Readable)
    (result : rewriteAll renamePath renameTo records = some rewritten) :
    forall record, record ∈ rewritten -> record.Readable := by
  induction records generalizing rewritten with
  | nil =>
      cases result
      exact fun _ member => absurd member List.not_mem_nil
  | cons record records inductionHypothesis =>
      rw [rewriteAll] at result
      cases head : rewrite renamePath renameTo record with
      | none => simp [head] at result
      | some first =>
          cases tail : rewriteAll renamePath renameTo records with
          | none => simp [head, tail] at result
          | some later =>
              simp only [head, tail, Option.map_some, Option.some.injEq] at result
              subst result
              rw [List.forall_mem_cons]
              exact ⟨rewrite_readable toFree (readable record List.mem_cons_self) head,
                inductionHypothesis
                  (fun other member => readable other (List.mem_cons_of_mem record member)) tail⟩

/-! ## The rebuilt journal -/

/-- The rebuilt journal reads back as the old one with exactly the renamed
subtree's write-backs re-targeted, and with the rename entry at its end. -/
def RebuildRetargets (errno : Nat) (renamePath renameTo : Path)
    (records : List JournalRecord) : Prop :=
  Exists fun journal : List Byte =>
    rebuild (.succeed errno) renamePath renameTo (encodeJournal records) =
        .returned 0 (some journal) ∧
      readJournal errno journal =
        (records.map (fun record => (retargeted renamePath renameTo record).item) ++
          [(renameRecord renamePath renameTo).item], some 0)

/-- A successful rebuild does what a rename calls for exactly when no pending
write-back has a path that merely starts with the same characters, as a
sibling `/ab` of `/a` does. -/
theorem rebuild_retargets_iff (errno : Nat) (renamePath renameTo : Path)
    (records : List JournalRecord)
    (readable : forall record, record ∈ records -> record.Readable)
    (paths : (renameRecord renamePath renameTo).Readable)
    (short : forall record, record ∈ records ->
      (retargeted renamePath renameTo record).path.length < PATH_MAX) :
    RebuildRetargets errno renamePath renameTo records ↔
      (renamePath = renameTo ∨ forall record, record ∈ records ->
        record.op = JournalOp.fsync.code ->
          renamePath <+: record.path -> Below renamePath record.path) := by
  have rebuilt := rebuild_encodeJournal errno renamePath renameTo records
    paths.to_short readable
  have agree := rewriteAll_eq_retargeted_iff renamePath renameTo records short
  have readBack : forall rewritten,
      rewriteAll renamePath renameTo records = some rewritten ->
      readJournal errno (encodeJournal (rewritten ++ [renameRecord renamePath renameTo])) =
        ((rewritten ++ [renameRecord renamePath renameTo]).map JournalRecord.item, some 0) := by
    intro rewritten result
    apply readJournal_encodeJournal
    intro record member
    rcases List.mem_append.mp member with inside | last
    · exact rewriteAll_readable paths.to_noNul readable result record inside
    · exact List.mem_singleton.mp last ▸ paths
  have condition : (renamePath = renameTo ∨ forall record, record ∈ records ->
      record.op = JournalOp.fsync.code ->
        renamePath <+: record.path -> Below renamePath record.path) ↔
      rewriteAll renamePath renameTo records =
        some (records.map (retargeted renamePath renameTo)) := by
    rw [agree]
    exact ⟨fun either record member => either.imp id (fun all => all record member),
      fun all => or_iff_not_imp_left.mpr
        (fun different record member => (all record member).resolve_left different)⟩
  rw [condition]
  constructor
  · rintro ⟨journal, returned, items⟩
    rw [rebuilt] at returned
    cases result : rewriteAll renamePath renameTo records with
    | none => simp [result] at returned
    | some rewritten =>
        simp only [result, RebuildOutcome.returned.injEq, true_and, Option.some.injEq]
          at returned
        rw [← returned, readBack rewritten result] at items
        have same : rewritten.map JournalRecord.item =
            (records.map (retargeted renamePath renameTo)).map JournalRecord.item := by
          rw [List.map_map]
          simpa [Function.comp_def] using congrArg Prod.fst items
        exact congrArg some
          (List.map_injective_iff.mpr (fun _ _ => JournalRecord.item_injective) same)
  · intro result
    refine ⟨_, by rw [rebuilt, result], ?_⟩
    rw [readBack _ result]
    simp

/-- A pending write-back, as `mcachefs_write_file` appends it. -/
def fsyncRecord (path : Path) : JournalRecord where
  op := JournalOp.fsync.code
  mode := 0
  rdev := 0
  uid := 0
  gid := 0
  size := 0
  utimbuf := .zero
  path := path
  toPath := []

/-- Renaming `/a` re-targets the pending writes of `/a` itself and of `/a/f`, and leaves that
of `/d` and a removal of `/a/g` alone. -/
theorem rebuild_retargets_below :
    RebuildRetargets 0 (ascii "/a") (ascii "/x") [fsyncRecord (ascii "/a"),
      fsyncRecord (ascii "/d"), fsyncRecord (ascii "/a/f"),
      { fsyncRecord (ascii "/a/g") with op := JournalOp.unlink.code }] :=
  (rebuild_retargets_iff 0 (ascii "/a") (ascii "/x") [fsyncRecord (ascii "/a"),
      fsyncRecord (ascii "/d"), fsyncRecord (ascii "/a/f"),
      { fsyncRecord (ascii "/a/g") with op := JournalOp.unlink.code }]
    (by decide) (by decide) (by decide)).mpr (Or.inr (by decide))

/-- Renaming `/a` moves the pending write of its sibling `/ab` to `/xb`. -/
theorem rebuild_moves_sibling :
    ¬ RebuildRetargets 0 (ascii "/a") (ascii "/x") [fsyncRecord (ascii "/ab")] := by
  rintro ⟨journal, returned, items⟩
  have result : rewriteAll (ascii "/a") (ascii "/x") [fsyncRecord (ascii "/ab")] =
      some [fsyncRecord (ascii "/xb")] := by decide
  rw [rebuild_encodeJournal 0 _ _ _ (by decide) (by decide), result] at returned
  simp only [RebuildOutcome.returned.injEq, true_and, Option.some.injEq] at returned
  rw [← returned, readJournal_encodeJournal 0 _ (by decide)] at items
  revert items
  decide

end Journal
end Mcachefs
