import Mcachefs.Transfer.Queue
import Mcachefs.Library.Runs
import Mathlib.Logic.Function.Basic

namespace Mcachefs
namespace MetadataFlush

open Library Journal Transfer

/-!
# The guard of the metadata flush

`mcachefs_metadata_flush` counts the journal entries, and only then takes the
metadata lock and throws the metafile away.  Between the two, and before them,
three other parties run: callbacks append to the journal, an apply moves it
aside and queues write-backs, and the transfer threads work these off.

The system below interleaves them freely.  An apply, a notification and a
queue operation are atomic, as the journal lock and the transfer lock make
them; a flush is not, and any number of callers may be in one.
-/

/-- Where a caller is in `mcachefs_metadata_flush`. -/
inductive FlushPhase
  | idle
  /-- It has counted no journal entry. -/
  | counted
  /-- It holds the metadata lock. -/
  | locked
  deriving DecidableEq, Repr

/-- A request some thread works on; `notified` once
`mcachefs_notify_sync_end` was called for it. -/
structure Running where
  request : Request
  notified : Bool
  deriving DecidableEq, Repr

structure FlushSystem where
  journal : JournalState
  queue : Queue
  running : List Running
  flushes : Nat -> FlushPhase
  /-- `mcachefs_metadata_lock`, as far as flushes take it. -/
  lock : Option Nat

/-- One atomic action of one of the parties. -/
inductive FlushEvent
  /-- A callback appends an entry. -/
  | append (calls : RebuildCalls) (record : JournalRecord) (readable : record.Readable)
  /-- A journal apply, with what it finds at each path. -/
  | apply (lookup : Lookup)
  /-- An open or a directory walk asks for a transfer into the cache. -/
  | queueFile (mfile : Fh) (type : TransferType) (other : type ≠ .writeback)
  /-- A thread takes a request of its kind. -/
  | take (type : TransferType)
  /-- A thread reports the end of a write-back. -/
  | notify (thread : Nat) (success : Bool)
  /-- A thread is done with its request, with or without a report. -/
  | finish (thread : Nat)
  /-- A caller takes the count. -/
  | flushCount (caller : Nat)
  /-- A caller that counted nothing takes the lock. -/
  | flushLock (caller : Nat)
  /-- A caller that has the lock discards the metafile. -/
  | flushDiscard (caller : Nat)

namespace FlushSystem

def step (errno : Nat) (system : FlushSystem) (event : FlushEvent) :
    Except Fault FlushSystem :=
  match event with
  | .append calls record _ =>
      match Journal.append calls system.journal.journal record with
      | .returned _ journal =>
          .ok { system with journal := { system.journal with journal := journal } }
      | .exited => .error .exited
      | .overflow => .error .overflow
  | .apply lookup =>
      match Journal.apply (.onlyWriteback (writeback lookup)) errno system.journal
          system.queue with
      | .ok (journal, queue) => .ok { system with journal := journal, queue := queue }
      | .error fault => .error fault
  | .queueFile mfile type _ =>
      .ok { system with queue := (Transfer.queueFile mfile type system.queue).2 }
  | .take type =>
      match getNextFileToBack type system.queue with
      | some (request, queue) =>
          .ok { system with queue := queue, running := ⟨request, false⟩ :: system.running }
      | none => .ok system
  | .notify thread success =>
      match system.running[thread]? with
      | some job =>
          if job.request.type = .writeback ∧ job.notified = false then
            match notifySyncEnd success system.journal with
            | .ok journal =>
                .ok { system with
                  journal := journal
                  running := system.running.set thread { job with notified := true } }
            | .error fault => .error fault
          else .ok system
      | none => .ok system
  | .finish thread => .ok { system with running := system.running.eraseIdx thread }
  | .flushCount caller =>
      if system.flushes caller = .idle ∧ countEntries system.journal = 0 then
        .ok { system with flushes := Function.update system.flushes caller .counted }
      else .ok system
  | .flushLock caller =>
      if system.flushes caller = .counted ∧ system.lock = none then
        .ok { system with
          flushes := Function.update system.flushes caller .locked
          lock := some caller }
      else .ok system
  | .flushDiscard caller =>
      if system.flushes caller = .locked then
        .ok { system with
          flushes := Function.update system.flushes caller .idle
          lock := none }
      else .ok system

/-! ## What a flush may assume -/

/-- The journal is missing or empty. -/
def EmptyJournal (system : FlushSystem) : Prop :=
  system.journal.journal.getD [] = []

/-- No write-back is queued or running. -/
def NoWriteback (system : FlushSystem) : Prop :=
  (forall request, request ∈ system.queue -> request.type ≠ .writeback) ∧
    forall job, job ∈ system.running -> job.request.type ≠ .writeback

/-- What the guard is for: a discard finds no pending local change. -/
def DiscardsNothing (system : FlushSystem) : FlushEvent -> Prop
  | .flushDiscard caller =>
      system.flushes caller = .locked -> system.EmptyJournal ∧ system.NoWriteback
  | _ => True

/-- The count is taken while no write-back is queued or running, and appends
succeed and stay out of the time between a count and its discard. -/
def CountsInQuiet (system : FlushSystem) : FlushEvent -> Prop
  | .append calls _ _ =>
      (Exists fun errno => calls = .succeed errno) ∧
        forall caller, system.flushes caller = .idle
  | .flushCount caller =>
      system.flushes caller = .idle -> countEntries system.journal = 0 -> system.NoWriteback
  | _ => True

/-- What holds between the events. -/
structure Guarded (system : FlushSystem) : Prop where
  written : Exists fun records : Option (List JournalRecord) =>
    system.journal.journal = records.map encodeJournal ∧
      forall record, record ∈ records.getD [] -> record.Readable
  quiet : forall caller, system.flushes caller ≠ .idle ->
    system.EmptyJournal ∧ system.NoWriteback

theorem NoWriteback.of_take {system : FlushSystem} {type : TransferType} {request : Request}
    {queue : Queue} (none : system.NoWriteback)
    (taken : getNextFileToBack type system.queue = some (request, queue)) :
    NoWriteback { system with queue := queue, running := ⟨request, false⟩ :: system.running } := by
  obtain ⟨-, before, after, whole, rest⟩ := getNextFileToBack_some taken
  have requests := whole ▸ none.1
  refine ⟨fun other member => requests other ?_, ?_⟩
  · rw [rest] at member
    simp only [List.mem_append, List.mem_cons] at member ⊢
    exact member.imp id Or.inr
  · rw [List.forall_mem_cons]
    exact ⟨requests request (by simp), none.2⟩

/-- An apply of an empty journal leaves the journal and the queue empty of
local changes. -/
theorem applied_empty {errno : Nat} {lookup : Lookup} {state next : JournalState}
    {queue after : Queue} (empty : state.journal.getD [] = [])
    (applied : Applied (.onlyWriteback (writeback lookup)) errno state queue next after) :
    next.journal.getD [] = [] ∧ after = queue := by
  have items : forall file, state.journal = some file -> (readJournal errno file).1 = [] := by
    intro file journal
    rw [journal, Option.getD_some] at empty
    subst empty
    rfl
  cases applied with
  | busy action => exact ⟨empty, rfl⟩
  | missing action journal => exact ⟨empty, rfl⟩
  | settled file updated _ fsync action journal updates queues finished =>
      rw [items file journal] at updates queues
      cases updates
      cases queues
      exact ⟨rfl, rfl⟩
  | waiting file updated _ fsync action journal updates queues pending =>
      rw [items file journal] at updates queues
      cases updates
      cases queues
      exact ⟨rfl, rfl⟩

/-- Every event that meets the condition keeps the invariant. -/
theorem Guarded.step_ok {errno : Nat} {system next : FlushSystem} {event : FlushEvent}
    (guarded : system.Guarded) (condition : system.CountsInQuiet event)
    (result : system.step errno event = .ok next) : next.Guarded := by
  obtain ⟨⟨records, journal, readable⟩, quiet⟩ := guarded
  cases event with
  | append calls record paths =>
      obtain ⟨⟨code, succeed⟩, idle⟩ := condition
      subst succeed
      have appended : Exists fun records : List JournalRecord =>
          next = { system with journal :=
            { system.journal with journal := some (encodeJournal records) } } ∧
          forall record, record ∈ records -> record.Readable := by
        simp only [step, journal] at result
        cases records with
        | none =>
            rw [Option.map_none, append_missing] at result
            cases result
            exact ⟨[record], rfl, by simpa using paths⟩
        | some records =>
            rw [Option.map_some, append_encodeJournal code records record readable paths] at result
            cases records' : appendRecords records record with
            | none => simp [records'] at result
            | some appended =>
                simp only [records', Except.ok.injEq] at result
                exact ⟨appended, result.symm, appendRecords_readable readable paths records'⟩
      obtain ⟨records, rfl, readable⟩ := appended
      exact ⟨⟨some records, rfl, readable⟩, fun caller busy => absurd (idle caller) busy⟩
  | apply lookup =>
      simp only [step] at result
      cases applied : Journal.apply (.onlyWriteback (writeback lookup)) errno system.journal
          system.queue with
      | error fault => simp [applied] at result
      | ok both =>
          obtain ⟨state, queue⟩ := both
          simp only [applied, Except.ok.injEq] at result
          subst result
          have cases := apply_applied _ applied
          refine ⟨?_, fun caller busy => ?_⟩
          · rcases cases.journal_eq with same | gone
            · exact ⟨records, same.trans journal, readable⟩
            · exact ⟨none, gone, by simp⟩
          · obtain ⟨empty, none⟩ := quiet caller busy
            obtain ⟨still, same⟩ := applied_empty empty cases
            exact ⟨still, by rw [same]; exact none.1, none.2⟩
  | queueFile mfile type other =>
      cases result
      refine ⟨⟨records, journal, readable⟩, fun caller busy => ?_⟩
      obtain ⟨empty, none⟩ := quiet caller busy
      refine ⟨empty, fun request member => ?_, none.2⟩
      rcases mem_queueFile member with old | new
      · exact none.1 request old
      · rw [new]
        exact other
  | take type =>
      simp only [step] at result
      cases taken : getNextFileToBack type system.queue with
      | none =>
          rw [taken] at result
          cases result
          exact ⟨⟨records, journal, readable⟩, quiet⟩
      | some both =>
          rw [taken] at result
          cases result
          refine ⟨⟨records, journal, readable⟩, fun caller busy => ?_⟩
          obtain ⟨empty, none⟩ := quiet caller busy
          exact ⟨empty, none.of_take taken⟩
  | notify thread success =>
      simp only [step] at result
      split at result
      · next job found =>
          split at result
          · cases notified : notifySyncEnd success system.journal with
            | error fault => simp [notified] at result
            | ok state =>
                simp only [notified, Except.ok.injEq] at result
                subst result
                have same := notifySyncEnd_journal notified
                refine ⟨⟨records, same.trans journal, readable⟩, fun caller busy => ?_⟩
                obtain ⟨empty, none⟩ := quiet caller busy
                refine ⟨(congrArg (Option.getD · []) same).trans empty, none.1, ?_⟩
                intro other member
                rcases List.mem_or_eq_of_mem_set member with old | new
                · exact none.2 other old
                · rw [new]
                  exact none.2 job (List.mem_of_getElem? found)
          · cases result
            exact ⟨⟨records, journal, readable⟩, quiet⟩
      · cases result
        exact ⟨⟨records, journal, readable⟩, quiet⟩
  | finish thread =>
      cases result
      refine ⟨⟨records, journal, readable⟩, fun caller busy => ?_⟩
      obtain ⟨empty, none⟩ := quiet caller busy
      exact ⟨empty, none.1, fun job member => none.2 job (List.mem_of_mem_eraseIdx member)⟩
  | flushCount caller =>
      simp only [step] at result
      split at result
      · next enters =>
          cases result
          refine ⟨⟨records, journal, readable⟩, fun other busy => ?_⟩
          have empty : system.EmptyJournal := by
            cases records with
            | none => simp [EmptyJournal, journal]
            | some records =>
                have zero := (countEntries_encodeJournal journal).mp enters.2
                simp [EmptyJournal, journal, zero, encodeJournal]
          exact ⟨empty, condition enters.1 enters.2⟩
      · cases result
        exact ⟨⟨records, journal, readable⟩, quiet⟩
  | flushLock caller =>
      simp only [step] at result
      split at result
      · next enters =>
          cases result
          refine ⟨⟨records, journal, readable⟩, fun other busy => ?_⟩
          have before : system.flushes caller ≠ .idle := by
            rw [enters.1]
            decide
          exact quiet caller before
      · cases result
        exact ⟨⟨records, journal, readable⟩, quiet⟩
  | flushDiscard caller =>
      simp only [step] at result
      split at result
      · cases result
        refine ⟨⟨records, journal, readable⟩, fun other busy => ?_⟩
        by_cases same : other = caller
        · subst same
          simp at busy
        · simp only [Function.update_of_ne same] at busy
          exact quiet other busy
      · cases result
        exact ⟨⟨records, journal, readable⟩, quiet⟩

/-- The start of the process, with the journal an earlier one left. -/
def init (journal : Option WrittenJournal) : FlushSystem where
  journal := .init (journal.map WrittenJournal.file)
  queue := []
  running := []
  flushes := fun _ => .idle
  lock := none

theorem init_guarded (journal : Option WrittenJournal) : (init journal).Guarded where
  written := ⟨journal.map WrittenJournal.records, by cases journal <;> rfl, by
    cases journal with
    | none => simp
    | some journal => exact journal.readable⟩
  quiet := fun _ busy => absurd rfl busy

end FlushSystem

/-! ## Flushes and pending changes -/

open FlushSystem in
/-- In every interleaving whose counts are taken in quiet, no flush discards
the metafile over a pending local change. -/
theorem flush_discards_nothing (errno : Nat) (journal : Option WrittenJournal)
    (events : List FlushEvent)
    (quiet : EachStep (step errno) CountsInQuiet (init journal) events) :
    EachStep (step errno) DiscardsNothing (init journal) events :=
  EachStep.ofInvariant (fun _ _ _ guarded condition result => guarded.step_ok condition result)
    (fun system event guarded _ => by
      cases event with
      | flushDiscard caller =>
          intro locked
          apply guarded.quiet caller
          rw [locked]
          decide
      | _ => trivial)
    (init_guarded journal) quiet

/-- The file written below is known and in the cache, as file `1`. -/
def onlyFile : Lookup := fun _ => .ok 1

open FlushSystem in
/-- A flush after the write-back of the only file has ended. -/
theorem flush_discards_nothing_afterwards :
    EachStep (step 0) DiscardsNothing (init none)
      [.append (.succeed 0) (fsyncRecord (ascii "/a")) (by decide), .apply onlyFile,
        .take .writeback, .notify 0 true, .finish 0, .flushCount 0, .flushLock 0,
        .flushDiscard 0] := by
  apply flush_discards_nothing 0 none
  exact ⟨⟨⟨0, rfl⟩, fun _ => rfl⟩, trivial, trivial, trivial, trivial,
    fun _ _ => ⟨fun _ member => absurd member List.not_mem_nil,
      fun _ member => absurd member List.not_mem_nil⟩,
    trivial, trivial, trivial⟩

open FlushSystem in
/-- An apply moves the journal away, and the flush that follows counts nothing
although the write-back is still queued. -/
theorem flush_over_queued_writeback :
    ¬ EachStep (step 0) DiscardsNothing (init none)
      [.append (.succeed 0) (fsyncRecord (ascii "/a")) (by decide), .apply onlyFile,
        .flushCount 0, .flushLock 0, .flushDiscard 0] := by
  intro ⟨_, _, _, _, discards, _⟩
  have queued : (⟨1, .writeback⟩ : Request).type ≠ .writeback :=
    (discards rfl).2.1 ⟨1, .writeback⟩ (List.mem_singleton.mpr rfl)
  exact queued rfl

end MetadataFlush
end Mcachefs
