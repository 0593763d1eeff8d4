import Mcachefs.Journal.Apply
import Mcachefs.Library.Runs

namespace Mcachefs
namespace Journal

open Library

/-!
# The cycle of journal applies

A journal apply starts a cycle that ends when every fsync entry has been
settled, at once or by a later notification.  This module runs the cycle
against an arbitrary transfer queue: an apply comes with the answers of
`mcachefs_transfer_writeback`, and every write-back it queued reports once, at
an arbitrary later moment and with an arbitrary result.

`apply` forgets to reset its counters when it ends a cycle by itself.  The
main theorem says exactly which runs notice.
-/

/-- The transfer queue as an apply sees it: how many write-backs it has asked
for so far, and how many queued ones have yet to report. -/
structure Answered where
  asked : Nat
  queued : Nat
  deriving DecidableEq, Repr

/-- The calls of an apply whose write-backs get the given answers in turn. -/
def answering (answers : Nat -> Int) : ApplyCalls Answered :=
  .onlyWriteback fun _ rest =>
    (answers rest.asked,
      ⟨rest.asked + 1, rest.queued + if answers rest.asked = 0 then 1 else 0⟩)

/-- The journal variables and the number of write-backs that will report. -/
structure SyncSystem where
  state : JournalState
  queued : Nat
  deriving DecidableEq, Repr

/-- `write` leaves an arbitrary journal behind, as any number of callbacks
do; a `notify` happens only while a queued write-back has yet to report. -/
inductive SyncEvent
  | write (journal : Option WrittenJournal)
  | apply (answers : Nat -> Int)
  | notify (success : Bool)

namespace SyncSystem

/-- The start of the process, with the journal an earlier one left. -/
def init (journal : Option WrittenJournal) : SyncSystem :=
  ⟨.init (journal.map WrittenJournal.file), 0⟩

def step (errno : Nat) (system : SyncSystem) (event : SyncEvent) : Except Fault SyncSystem :=
  match event with
  | .write journal =>
      .ok { system with
        state := { system.state with journal := journal.map WrittenJournal.file } }
  | .apply answers =>
      match Journal.apply (answering answers) errno system.state ⟨0, system.queued⟩ with
      | .ok (state, rest) => .ok ⟨state, rest.queued⟩
      | .error fault => .error fault
  | .notify success =>
      if system.queued = 0 then .ok system
      else
        match notifySyncEnd success system.state with
        | .ok state => .ok ⟨state, system.queued - 1⟩
        | .error fault => .error fault

/-- Between two cycles nothing of the last one is left. -/
def Clean (system : SyncSystem) : Prop :=
  system.state.action = .none ->
    system.state.fsync = .zero ∧ system.state.fsyncFile = none

/-- The fsync entries an apply would find. -/
def pendingWrites (errno : Nat) (system : SyncSystem) : List JournalItem :=
  match system.state.journal with
  | some file => fsyncItems (readJournal errno file).1
  | none => []

/-- An apply that starts a cycle finds no fsync entry at all, or has at least
one write-back queued. -/
def EndsByNotification (errno : Nat) (system : SyncSystem) : SyncEvent -> Prop
  | .apply answers =>
      system.state.action = .none -> (system.pendingWrites errno).length ≠ 0 ->
        Exists fun entry => entry < (system.pendingWrites errno).length ∧ answers entry = 0
  | _ => True

/-! ## The invariant of a cycle -/

/-- What holds between the events: an idle cycle is clean, and a running one
counts the write-backs that have yet to report. -/
structure Cycle (system : SyncSystem) : Prop where
  written : Exists fun journal : Option WrittenJournal =>
    system.state.journal = journal.map WrittenJournal.file
  idle : system.state.action = .none ->
    system.state.fsync = .zero ∧ system.state.fsyncFile = none
  quiet : system.state.action ≠ .sync -> system.queued = 0
  running : system.state.action = .sync ->
    system.state.fsyncFile ≠ none ∧ 0 < system.queued ∧
      system.state.fsync.files_ok + system.state.fsync.files_error + system.queued =
        system.state.fsync.total_files

theorem init_cycle (journal : Option WrittenJournal) : (init journal).Cycle where
  written := ⟨journal, rfl⟩
  idle := fun _ => ⟨rfl, rfl⟩
  quiet := fun _ => rfl
  running := fun running => by cases running

/-- The loop queues a write-back exactly when one of its answers is `0`. -/
private theorem fsyncLoop_queued (answers : Nat -> Int) (items : List JournalItem)
    (fsync : JournalFsync) (rest : Answered) :
    rest.queued ≤ (fsyncLoop (answering answers) items (fsync, rest)).2.queued ∧
      ((fsyncLoop (answering answers) items (fsync, rest)).2.queued = rest.queued ↔
        forall entry, entry < (fsyncItems items).length -> answers (rest.asked + entry) ≠ 0) := by
  induction items generalizing fsync rest with
  | nil => simp [fsyncLoop, fsyncItems]
  | cons item items inductionHypothesis =>
      by_cases op : item.entry.op = JournalOp.fsync.code
      · have later := inductionHypothesis (fsync.count (answers rest.asked))
          ⟨rest.asked + 1, rest.queued + if answers rest.asked = 0 then 1 else 0⟩
        have length : (fsyncItems (item :: items)).length = (fsyncItems items).length + 1 := by
          simp [fsyncItems, op]
        have head : fsyncLoop (answering answers) (item :: items) (fsync, rest) =
            fsyncLoop (answering answers) items (fsync.count (answers rest.asked),
              ⟨rest.asked + 1, rest.queued + if answers rest.asked = 0 then 1 else 0⟩) :=
          fsyncLoop_fsync (answering answers) op items fsync rest
        obtain ⟨grows, same⟩ := later
        have shifted (entry : Nat) : rest.asked + 1 + entry = rest.asked + (entry + 1) := by omega
        simp only [shifted] at same
        rw [head, length, Nat.forall_lt_succ_left, ← same, Nat.add_zero]
        generalize fsyncLoop (answering answers) items _ = result at grows ⊢
        by_cases zero : answers rest.asked = 0
        · simp only [if_pos zero] at grows ⊢
          exact ⟨by omega, iff_of_false (by omega) (fun both => both.1 zero)⟩
        · simp only [if_neg zero, Nat.add_zero] at grows ⊢
          exact ⟨grows, (and_iff_right zero).symm⟩
      · have length : fsyncItems (item :: items) = fsyncItems items := by
          simp [fsyncItems, op]
        simp only [fsyncLoop, ne_eq, op, not_false_eq_true, if_true, length]
        exact inductionHypothesis fsync rest

/-- What the counters and the queue say when an apply leaves its loop. -/
private theorem counted (errno : Nat) (answers : Nat -> Int) (file : List Byte)
    (updated after : Answered) (fsync : JournalFsync)
    (updates : updateLoop (answering answers) (readJournal errno file).1 ⟨0, 0⟩ = .ok updated)
    (queues : fsyncLoop (answering answers) (readJournal errno file).1 (.zero, updated) =
      (fsync, after)) :
    fsync.total_files = (fsyncItems (readJournal errno file).1).length ∧
      fsync.files_ok + fsync.files_error + after.queued = fsync.total_files ∧
      (after.queued = 0 ↔ forall entry, entry < (fsyncItems (readJournal errno file).1).length ->
        answers entry ≠ 0) := by
  have same := updateLoop_onlyWriteback _ updates
  subst same
  have total := fsyncLoop_total (answering answers) (readJournal errno file).1 .zero ⟨0, 0⟩
  have balance := fsyncLoop_outstanding (answering answers) Answered.queued
    (fun _ _ => rfl) (readJournal errno file).1 .zero ⟨0, 0⟩
  have answered := (fsyncLoop_queued answers (readJournal errno file).1 .zero ⟨0, 0⟩).2
  rw [queues] at total balance answered
  simp only [JournalFsync.zero, Nat.zero_add, Nat.add_zero] at total balance answered
  exact ⟨total, balance.symm, answered⟩

/-- An event that meets the condition keeps the invariant. -/
theorem Cycle.step_ok {errno : Nat} {system next : SyncSystem} {event : SyncEvent}
    (cycle : system.Cycle) (condition : system.EndsByNotification errno event)
    (result : system.step errno event = .ok next) : next.Cycle := by
  cases event with
  | write journal =>
      cases result
      exact ⟨⟨journal, rfl⟩, cycle.idle, cycle.quiet, cycle.running⟩
  | notify success =>
      simp only [step] at result
      by_cases none : system.queued = 0
      · rw [if_pos none] at result
        cases result
        exact cycle
      · rw [if_neg none] at result
        have action : system.state.action = .sync := by
          by_contra other
          exact none (cycle.quiet other)
        obtain ⟨present, -, balance⟩ := cycle.running action
        rw [notifySyncEnd_of_present success present] at result
        by_cases last : system.state.fsync.files_ok + system.state.fsync.files_error + 1 =
            system.state.fsync.total_files
        · rw [if_pos last] at result
          cases result
          exact ⟨cycle.written, fun _ => ⟨rfl, rfl⟩, fun _ => by simp only; omega,
            fun running => by cases running⟩
        · rw [if_neg last] at result
          cases result
          refine ⟨cycle.written, fun idle => ?_, fun other => absurd action other,
            fun _ => ⟨present, ?_, ?_⟩⟩
          · rw [action] at idle
            cases idle
          · simp only
            omega
          · simp only [JournalFsync.report_settled, JournalFsync.report_total]
            omega
  | apply answers =>
      simp only [step] at result
      cases applied : Journal.apply (answering answers) errno system.state ⟨0, system.queued⟩ with
      | error fault => simp [applied] at result
      | ok both =>
          obtain ⟨state, rest⟩ := both
          simp only [applied, Except.ok.injEq] at result
          subst result
          cases apply_applied (answering answers) applied with
          | busy action => exact ⟨cycle.written, cycle.idle, cycle.quiet, cycle.running⟩
          | missing action journal =>
              exact ⟨cycle.written, fun idle => by (cases idle),
                fun _ => cycle.quiet (by rw [action]; decide), fun running => by cases running⟩
          | settled file updated after fsync action journal updates queues finished =>
              have none : system.queued = 0 := cycle.quiet (by rw [action]; decide)
              rw [none] at updates
              obtain ⟨total, balance, answered⟩ :=
                counted errno answers file updated rest fsync updates queues
              have quiet : rest.queued = 0 := by omega
              -- No answer was `0`, so by the condition there was nothing to count.
              have empty : (system.pendingWrites errno).length = 0 := by
                by_contra some
                obtain ⟨entry, bound, zero⟩ := condition action some
                simp only [pendingWrites, journal] at bound
                exact answered.mp quiet entry bound zero
              simp only [pendingWrites, journal] at empty
              have zero : fsync = .zero := by
                cases fsync
                simp only [JournalFsync.zero, JournalFsync.mk.injEq] at *
                omega
              exact ⟨⟨Option.none, rfl⟩, fun _ => ⟨zero, rfl⟩, fun _ => quiet,
                fun running => by cases running⟩
          | waiting file updated after fsync action journal updates queues pending =>
              have none : system.queued = 0 := cycle.quiet (by rw [action]; decide)
              rw [none] at updates
              obtain ⟨-, balance, -⟩ :=
                counted errno answers file updated rest fsync updates queues
              have some : 0 < rest.queued := by omega
              exact ⟨⟨Option.none, rfl⟩, fun idle => by (cases idle),
                fun other => absurd rfl other,
                fun _ => ⟨Option.some_ne_none file, some, balance⟩⟩

/-- The counters are reset whenever an apply looks at them. -/
theorem Cycle.no_pending_fsync_files {errno : Nat} {system : SyncSystem} {event : SyncEvent}
    {fault : Fault} (cycle : system.Cycle) (result : system.step errno event = .error fault) :
    fault ≠ .alreadyHavePendingFsyncFiles := by
  cases event with
  | write journal => cases result
  | notify success =>
      simp only [step] at result
      split at result
      · cases result
      · rintro rfl
        simp only [notifySyncEnd] at result
        split at result
        · cases result
        · next failed =>
            split at failed
            · split at failed <;> cases failed
              cases result
            · cases failed
  | apply answers =>
      obtain ⟨written, journal⟩ := cycle.written
      obtain ⟨next, after, applied⟩ := apply_written (answering answers) errno system.state
        ⟨0, system.queued⟩ written journal (fun action => by rw [(cycle.idle action).1]; rfl)
      simp only [step, applied] at result
      cases result

/-- An event that misses the condition ends a cycle with its counters set. -/
theorem Cycle.escape {errno : Nat} {system : SyncSystem} {event : SyncEvent}
    (cycle : system.Cycle) (missed : ¬ system.EndsByNotification errno event) :
    Exists fun next => system.step errno event = .ok next ∧ ¬ next.Clean := by
  cases event with
  | write journal => exact absurd trivial missed
  | notify success => exact absurd trivial missed
  | apply answers =>
      simp only [EndsByNotification, Classical.not_imp, not_exists, not_and] at missed
      obtain ⟨action, some, nonzero⟩ := missed
      have none : system.queued = 0 := cycle.quiet (by rw [action]; decide)
      obtain ⟨written, journal⟩ := cycle.written
      obtain ⟨next, rest, applied⟩ := apply_written (answering answers) errno system.state
        ⟨0, system.queued⟩ written journal (fun action => by rw [(cycle.idle action).1]; rfl)
      refine ⟨⟨next, rest.queued⟩, by simp only [step, applied], ?_⟩
      cases apply_applied (answering answers) applied with
      | busy other => exact absurd action other
      | missing _ journal => simp [pendingWrites, journal] at some
      | settled file updated after fsync action journal updates queues finished =>
          rw [none] at updates
          have total := (counted errno answers file updated rest fsync updates queues).1
          simp only [pendingWrites, journal] at some
          intro clean
          have zero : fsync = .zero := (clean rfl).1
          rw [zero] at total
          exact some total.symm
      | waiting file updated after fsync action journal updates queues pending =>
          rw [none] at updates
          obtain ⟨-, balance, answered⟩ :=
            counted errno answers file updated rest fsync updates queues
          simp only [pendingWrites, journal] at nonzero
          have quiet := answered.mpr nonzero
          omega

end SyncSystem

/-! ## Reuse of the cycle -/

open SyncSystem in
/-- The state machine stays reusable on a run exactly when every apply that
finds fsync entries queues at least one of them. -/
theorem apply_reusable_iff (errno : Nat) (journal : Option WrittenJournal)
    (events : List SyncEvent) :
    Throughout (step errno) Clean (· ≠ .alreadyHavePendingFsyncFiles) (init journal) events ↔
      EachStep (step errno) (EndsByNotification errno) (init journal) events :=
  throughout_iff_eachStep (fun _ cycle => cycle.idle)
    (fun _ _ _ cycle condition result => cycle.step_ok condition result)
    (fun _ _ _ cycle _ result => cycle.no_pending_fsync_files result)
    (fun _ _ cycle missed => cycle.escape missed) events (init_cycle journal)

/-- A pending write of `/a`. -/
def writtenOnce : WrittenJournal where
  records := [fsyncRecord (ascii "/a")]
  readable := by decide
  known := fun record member => ⟨.fsync, by rw [List.mem_singleton.mp member]; rfl⟩

open SyncSystem in
/-- A file is written and removed, so that its write-back is refused with
`-EIO`.  The apply ends by itself with `files_error` at one, and the next one
reaches `Bug`. -/
theorem apply_keeps_counters :
    ¬ Throughout (step 0) Clean (· ≠ .alreadyHavePendingFsyncFiles) (init none)
      [.write (some writtenOnce), .apply fun _ => - EIO, .apply fun _ => - EIO] := by
  have first : step 0 (init none) (.write (some writtenOnce)) =
      .ok ⟨⟨some writtenOnce.file, none, .none, .zero⟩, 0⟩ := rfl
  have second : step 0 ⟨⟨some writtenOnce.file, none, .none, .zero⟩, 0⟩ (.apply fun _ => - EIO) =
      .ok ⟨⟨none, none, .none, ⟨1, 0, 1⟩⟩, 0⟩ := by decide
  have third : step 0 ⟨⟨none, none, .none, ⟨1, 0, 1⟩⟩, 0⟩ (.apply fun _ => - EIO) =
      .error .alreadyHavePendingFsyncFiles := rfl
  simp only [Throughout, first, second, third]
  exact fun throughout => throughout.2.2.2 rfl

end Journal
end Mcachefs
