import Mcachefs.Journal.SyncCycle

namespace Mcachefs
namespace Journal

open Library

/-!
# Applies that fail

`mcachefs_journal_apply` sets the action before it opens the journal, and where
it cannot open the journal, or the file it has been moved to, it returns and
leaves the action as it is.  No write-back is under way that could reset it, so
that every later apply is refused.  `apply_retries_iff` says when an apply that
returns leaves the way free for the next one.
-/

/-- What reading a file brings once it has been opened: the entries, and the last
result of `mcachefs_journal_read_entry`. -/
abbrev Reading := List JournalItem × Option Int

section Calls

variable {Rest : Type*} (calls : ApplyCalls Rest)

/-- `mcachefs_journal_apply`, where the two attempts to open and read its file
bring `updates` and `fsyncs`, `none` for one that cannot be opened. -/
def applyReading (updates fsyncs : Option Reading) (state : JournalState) (rest : Rest) :
    Except Fault (JournalState × Rest) :=
  if state.action ≠ .none then .ok (state, rest)
  else if state.fsync.total_files ≠ 0 then .error .alreadyHavePendingFsyncFiles
  else
    let state := { state with fsync := .zero, action := .update }
    match updates with
    | none => .ok (state, rest)
    | some (items, last) =>
        match updateLoop calls items rest with
        | .error fault => .error fault
        | .ok rest =>
            match endOfLoop last rest with
            | .error fault => .error fault
            | .ok (_, rest) =>
                let state := { state with action := .sync }
                if state.journal = none then .error .couldNotRename
                else
                  let state := { state with journal := none, fsyncFile := state.journal }
                  match fsyncs with
                  | none => .ok (state, rest)
                  | some (items, last) =>
                      match endOfLoop last (fsyncLoop calls items (state.fsync, rest)) with
                      | .error fault => .error fault
                      | .ok (_, fsync, rest) =>
                          let state := { state with fsync := fsync }
                          if fsync.files_ok + fsync.files_error = fsync.total_files then
                            .ok ({ state with fsyncFile := none, action := .none }, rest)
                          else .ok (state, rest)

/-- Where the files can be opened if they are there, and are read as they are, this
is `apply`. -/
theorem applyReading_readJournal (errno : Nat) (state : JournalState) (rest : Rest) :
    applyReading calls (state.journal.map (readJournal errno))
      (state.journal.map (readJournal errno)) state rest = apply calls errno state rest := by
  unfold applyReading apply
  by_cases busy : state.action ≠ .none
  · rw [if_pos busy, if_pos busy]
  · rw [if_neg busy, if_neg busy]
    by_cases left : state.fsync.total_files ≠ 0
    · rw [if_pos left, if_pos left]
    · rw [if_neg left, if_neg left]
      cases journal : state.journal with
      | none =>
          have failed : - EIO ≠ 0 := by decide
          simp only [Option.map_none, applyUpdates, if_pos failed]
      | some file =>
          simp only [Option.map_some, applyUpdates, applyFsync]
          cases updateLoop calls (readJournal errno file).1 rest with
          | error fault => rfl
          | ok updated =>
              cases (readJournal errno file).2 with
              | none => rfl
              | some res =>
                  by_cases negative : res < 0
                  · simp only [endOfLoop, if_pos negative]
                  · simp only [endOfLoop, if_neg negative, ne_eq, not_true_eq_false, if_false,
                      reduceCtorEq]

omit calls in
theorem endOfLoop_last {Result : Type*} {last : Option Int} {result : Result} {both : Int × Result}
    (ended : endOfLoop last result = .ok both) : Exists fun res => last = some res ∧ 0 ≤ res := by
  cases last with
  | none => cases ended
  | some res =>
      rw [endOfLoop] at ended
      split at ended
      · cases ended
      · next nonnegative => exact ⟨res, rfl, Int.not_lt.mp nonnegative⟩

/-- What an apply that starts a cycle and returns has done. -/
theorem applyReading_cases {updates fsyncs : Option Reading} {state next : JournalState}
    {rest after : Rest} (idle : state.action = .none)
    (result : applyReading calls updates fsyncs state rest = .ok (next, after)) :
    state.fsync.total_files = 0 ∧
      ((updates = none ∧ next.action = .update ∧ after = rest) ∨
        Exists fun reading => Exists fun updated => Exists fun file =>
          updates = some reading ∧ updateLoop calls reading.1 rest = .ok updated ∧
            (Exists fun res => reading.2 = some res ∧ 0 ≤ res) ∧ state.journal = some file ∧
            ((fsyncs = none ∧ next.action = .sync ∧ after = updated) ∨
              Exists fun entries : Reading => Exists fun fsync => fsyncs = some entries ∧
                fsyncLoop calls entries.1 (.zero, updated) = (fsync, after) ∧
                (fsync.files_ok + fsync.files_error = fsync.total_files ∧ next.action = .none ∧
                    next.fsyncFile = none ∨
                  fsync.files_ok + fsync.files_error ≠ fsync.total_files ∧
                    next = ⟨none, some file, .sync, fsync⟩))) := by
  unfold applyReading at result
  rw [if_neg (not_not_intro idle)] at result
  split at result
  · cases result
  · next left =>
      refine ⟨not_not.mp left, ?_⟩
      cases updates with
      | none =>
          obtain ⟨rfl, rfl⟩ := Prod.mk.inj (Except.ok.inj result)
          exact Or.inl ⟨rfl, rfl, rfl⟩
      | some reading =>
          simp only at result
          split at result
          · cases result
          · next updated updating =>
              split at result
              · cases result
              · next res other ended =>
                  obtain rfl := (endOfLoop_ok ended).2
                  split at result
                  · cases result
                  · next present =>
                      obtain ⟨file, journal⟩ := Option.ne_none_iff_exists'.mp present
                      refine Or.inr ⟨reading, other, file, rfl, updating,
                        endOfLoop_last ended, journal, ?_⟩
                      rw [journal] at result
                      cases fsyncs with
                      | none =>
                          obtain ⟨rfl, rfl⟩ := Prod.mk.inj (Except.ok.inj result)
                          exact Or.inl ⟨rfl, rfl, rfl⟩
                      | some entries =>
                          simp only at result
                          split at result
                          · cases result
                          · next res fsync queued looped =>
                              obtain ⟨-, loop⟩ := endOfLoop_ok looped
                              split at result
                              · next finished =>
                                  obtain ⟨rfl, rfl⟩ := Prod.mk.inj (Except.ok.inj result)
                                  exact Or.inr ⟨entries, fsync, rfl, loop.symm,
                                    Or.inl ⟨finished, rfl, rfl⟩⟩
                              · next pending =>
                                  obtain ⟨rfl, rfl⟩ := Prod.mk.inj (Except.ok.inj result)
                                  exact Or.inr ⟨entries, fsync, rfl, loop.symm,
                                    Or.inr ⟨pending, rfl⟩⟩

/-- A reading that the updates can be made from: it meets only operations with an
enumerator, and ends without an error. -/
def Reading.Applies (reading : Reading) : Prop :=
  (forall item, item ∈ reading.1 -> Exists fun op : JournalOp => item.entry.op = op.code) ∧
    Exists fun res => reading.2 = some res ∧ 0 ≤ res

theorem applyEntry_ok {item : JournalItem} {rest after : Rest}
    (applied : applyEntry calls item rest = .ok after) :
    Exists fun op : JournalOp => item.entry.op = op.code := by
  unfold applyEntry at applied
  cases code : JournalOp.ofCode item.entry.op with
  | none =>
      simp only [code] at applied
      cases applied
  | some op =>
      unfold JournalOp.ofCode at code
      have same := List.find?_some code
      exact ⟨op, (of_decide_eq_true same).symm⟩

/-- The updates run to their end exactly where every operation has an enumerator. -/
theorem updateLoop_ok_iff (items : List JournalItem) (rest : Rest) :
    (Exists fun after => updateLoop calls items rest = .ok after) ↔
      forall item, item ∈ items -> Exists fun op : JournalOp => item.entry.op = op.code := by
  refine ⟨?_, fun known => updateLoop_written calls items known rest⟩
  rintro ⟨after, updated⟩
  induction items generalizing rest with
  | nil => exact fun _ member => absurd member List.not_mem_nil
  | cons item items inductionHypothesis =>
      rw [updateLoop] at updated
      rw [List.forall_mem_cons]
      split at updated
      · next op => exact ⟨⟨.fsync, op⟩, inductionHypothesis rest updated⟩
      · split at updated
        · cases updated
        · next middle applied =>
            exact ⟨applyEntry_ok calls applied, inductionHypothesis middle updated⟩

end Calls

/-- All reports of the write-backs of an apply, one after the other. -/
def notifyAll : List Bool -> JournalState -> Except Fault JournalState
  | [], state => .ok state
  | success :: reports, state =>
      match notifySyncEnd success state with
      | .ok state => notifyAll reports state
      | .error fault => .error fault

/-- Once an apply has returned and the write-backs it has queued have all reported,
the action is none again, so that the next apply is not refused. -/
def Retries (updates fsyncs : Option Reading) (state : JournalState) : Prop :=
  forall answers next after,
    applyReading (answering answers) updates fsyncs state ⟨0, 0⟩ = .ok (next, after) ->
      forall reports : List Bool, reports.length = after.queued ->
        Exists fun last => notifyAll reports next = .ok last ∧ last.action = .none

/-- The last report closes the cycle. -/
theorem notifyAll_closes {reports : List Bool} {state : JournalState}
    (present : state.fsyncFile ≠ none) (some : reports ≠ [])
    (counted : state.fsync.files_ok + state.fsync.files_error + reports.length =
      state.fsync.total_files) :
    Exists fun last => notifyAll reports state = .ok last ∧ last.action = .none := by
  induction reports generalizing state with
  | nil => exact absurd rfl some
  | cons success reports inductionHypothesis =>
      rw [notifyAll, notifySyncEnd_of_present success present]
      cases reports with
      | nil =>
          rw [List.length_singleton] at counted
          rw [if_pos counted]
          exact ⟨_, rfl, rfl⟩
      | cons other reports =>
          rw [List.length_cons] at counted
          rw [if_neg (by simp only [List.length_cons] at counted; omega)]
          refine inductionHypothesis present (by simp) ?_
          simp only [JournalFsync.report_settled, JournalFsync.report_total]
          omega

/-- An apply that returns can be followed by another one exactly where it has
opened both files, or stops at `Bug` instead. -/
theorem apply_retries_iff (updates fsyncs : Option Reading) (state : JournalState)
    (idle : state.action = .none) :
    Retries updates fsyncs state ↔ state.fsync.total_files ≠ 0 ∨
      Exists fun reading => updates = some reading ∧
        (fsyncs ≠ none ∨ state.journal = none ∨ ¬ reading.Applies) := by
  constructor
  · intro retries
    by_contra stuck
    obtain ⟨reset, opened⟩ := not_or.mp stuck
    -- Nothing has been queued, so that the apply leaves its last action behind.
    have leaves : forall next after,
        applyReading (answering fun _ => 0) updates fsyncs state ⟨0, 0⟩ = .ok (next, after) ->
        after.queued = 0 -> next.action ≠ .none -> False := by
      intro next after returned none action
      obtain ⟨last, same, done⟩ := retries _ next after returned [] none.symm
      obtain rfl := Except.ok.inj same
      exact action done
    cases updates with
    | none =>
        refine leaves { state with fsync := .zero, action := .update } ⟨0, 0⟩ ?_ rfl (by simp)
        unfold applyReading
        rw [if_neg (not_not_intro idle), if_neg reset]
    | some reading =>
        simp only [Option.some.injEq, exists_eq_left', not_or, not_not] at opened
        obtain ⟨none, present, known, res, last, nonnegative⟩ := opened
        obtain ⟨after, updated⟩ := (updateLoop_ok_iff (answering fun _ => 0) _ ⟨0, 0⟩).mpr known
        have same := updateLoop_onlyWriteback _ updated
        refine leaves ⟨.none, state.journal, .sync, .zero⟩ after ?_ (by rw [same]) (by simp)
        unfold applyReading
        rw [if_neg (not_not_intro idle), if_neg reset, none]
        simp only [updated, last, endOfLoop, if_neg (Int.not_lt.mpr nonnegative), present,
          if_false]
  · intro condition answers next after returned reports counted
    obtain ⟨reset, missing | ⟨reading, updated, file, rfl, updating, last, journal, rest⟩⟩ :=
      applyReading_cases _ idle returned
    · obtain ⟨none, -, -⟩ := missing
      rcases condition with left | ⟨reading, opened, -⟩
      · exact absurd reset left
      · rw [none] at opened
        cases opened
    · have same := updateLoop_onlyWriteback _ updating
      have known := (updateLoop_ok_iff _ _ _).mp ⟨updated, updating⟩
      rcases rest with ⟨none, -, -⟩ | ⟨entries, fsync, -, looped, ends⟩
      · rcases condition with left | ⟨other, opened, fsyncOpened | lost | stops⟩
        · exact absurd reset left
        · exact absurd none fsyncOpened
        · rw [journal] at lost
          cases lost
        · obtain rfl := Option.some.inj opened
          exact absurd ⟨known, last⟩ stops
      · have balance := fsyncLoop_outstanding (answering answers) Answered.queued
          (fun _ _ => rfl) entries.1 .zero updated
        rw [looped, same] at balance
        simp only [JournalFsync.zero, Nat.zero_add, Nat.add_zero] at balance
        rcases ends with ⟨finished, action, -⟩ | ⟨pending, rfl⟩
        · have none : reports = [] := List.length_eq_zero_iff.mp (by omega)
          subst none
          exact ⟨next, rfl, action⟩
        · refine notifyAll_closes (Option.some_ne_none file) ?_ ?_
          · rintro rfl
            rw [List.length_nil] at counted
            omega
          · simp only
            omega

/-- The write-back of `/a` is queued and reports. -/
theorem apply_retries_after_writeback :
    Retries (some ([(fsyncRecord (ascii "/a")).item], some 0))
      (some ([(fsyncRecord (ascii "/a")).item], some 0))
      (.init (some writtenOnce.file)) :=
  (apply_retries_iff _ _ (.init (some writtenOnce.file)) rfl).mpr
    (Or.inr ⟨_, rfl, Or.inl (Option.some_ne_none _)⟩)

/-- Nothing has been modified, so that there is no journal: the first apply leaves its action at
`update`, and the next one is refused. -/
theorem apply_without_journal_is_last :
    ((apply (answering fun _ => 0) 0 (.init none) ⟨0, 0⟩).map fun result => result.1.action) =
        .ok .update ∧
      (forall (errno : Nat) (state : JournalState) (rest : Answered), state.action = .update ->
        apply (answering fun _ => 0) errno state rest = .ok (state, rest)) ∧
      ¬ Retries none none (.init none) := by
  refine ⟨?_, fun errno state rest action => ?_, fun retries => ?_⟩
  · rw [← applyReading_readJournal]
    rfl
  · unfold apply
    rw [if_pos (by rw [action]; decide)]
  · obtain ⟨last, same, done⟩ := retries (fun _ => 0) _ _ rfl [] rfl
    cases same
    cases done

end Journal
end Mcachefs
