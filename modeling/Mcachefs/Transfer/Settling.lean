import Mcachefs.Transfer.Serve
import Mcachefs.Transfer.Windows

namespace Mcachefs
namespace Transfer

open Journal

/-!
# Settled backups

While a backup is asked for or in progress, `mcachefs_write_file` waits and
`mcachefs_transfer_backfile` asks for no other one.  The status is settled by
`mcachefs_transfer_file` after a copy, and by `mcachefs_transfer_do_backing`
after a copy that failed.  `backup_settles_iff` says which backups get that far.
-/

/-- What one turn of the loop of `mcachefs_transfer_file` meets. -/
structure CopyTurn where
  /-- The read state is `MCACHEFS_STATE_QUITTING` before the read, before the write
  and after it. -/
  quittingBefore : Bool
  quittingRead : Bool
  quittingWritten : Bool
  pread : Int
  pwrite : Int
  /-- The time since the last turn, and since the first one. -/
  interval : Int
  global_interval : Int
  realloc : Bool
  deriving DecidableEq, Repr

/-- What a call of `mcachefs_transfer_file` meets. -/
structure Copying where
  source_fd : Bool
  target_fd : Bool
  /-- The size that `fstat` tells of the source. -/
  source_stat : Option Int
  turns : Nat -> CopyTurn

inductive CopyFault
  | couldNotGetSourceStat
  | divisionByZero
  | fuel
  deriving DecidableEq, Repr

/-- The loop of `mcachefs_transfer_file`: whether it comes to its end.  The pauses
that keep to the maximal rate have no other effect. -/
def copyLoop (turns : Nat -> CopyTurn) : (fuel turn : Nat) -> CopyCursor -> Except CopyFault Bool
  | 0, _, _ => .error .fuel
  | fuel + 1, turn, cursor =>
      let meets := turns turn
      if meets.quittingBefore then .ok false
      else if cursor.tocopy ≠ meets.pread then .ok false
      else if meets.quittingRead then .ok false
      else if cursor.tocopy ≠ meets.pwrite then .ok false
      else if meets.quittingWritten then .ok false
      else
        let cursor := cursor.copied
        if cursor.remains = 0 then .ok true
        else if meets.interval = 0 ∨ meets.global_interval = 0 then .error .divisionByZero
        else
          let window_size :=
            nextWindow ((cursor.offset * 1000).tdiv meets.global_interval) cursor.window_size
          if cursor.window_size_alloced < window_size then
            if meets.realloc then
              copyLoop turns fuel (turn + 1)
                { cursor with window_size := window_size, window_size_alloced := window_size }
            else .ok false
          else copyLoop turns fuel (turn + 1) { cursor with window_size := window_size }

/-- `mcachefs_transfer_file`: the result and the open file. -/
def Copying.transferFile (copying : Copying) (tobacking : Bool) (total_size : Int) (mfile : Mfile) :
    Except CopyFault (Int × Mfile) :=
  if copying.source_fd = false then .ok (- Journal.EIO, mfile)
  else if copying.target_fd = false then .ok (- Journal.EIO, mfile)
  else
    match copying.source_stat with
    | none => .error .couldNotGetSourceStat
    | some st_size =>
        let size := if total_size < st_size then total_size else st_size
        match copyLoop copying.turns (size.toNat + 1) 0 (.start size) with
        | .error fault => .error fault
        | .ok false => .ok (- Journal.EIO, mfile)
        | .ok true => .ok (0, if tobacking then { mfile with cache_status := .done } else mfile)

namespace Serving

/-- `mcachefs_transfer_do_backing`, with the copy that it makes. -/
def doBackingCopy (serving : Serving) (copying : Copying) (total_size : Int) (mfile : Mfile) :
    Except CopyFault Mfile :=
  if serving.fileincache then .ok mfile
  else if serving.createfileCache ≠ 0 then .ok mfile
  else
    match copying.transferFile true total_size mfile with
    | .error fault => .error fault
    | .ok (res, mfile) => if res = 0 then .ok mfile else .ok { mfile with cache_status := .error }

/-- `mcachefs_transfer_do_transfer` for a backup. -/
def doBackup (serving : Serving) (copying : Copying) (mfile : Mfile) : Except CopyFault Mfile :=
  if serving.readState = .handsup then .ok mfile
  else if mfile.type = .dir then .ok mfile
  else
    match serving.metadata with
    | none => .ok mfile
    | some st => serving.doBackingCopy copying st.st_size mfile

/-- In `mcachefs_transfer_thread`: a backup is in progress while it is served. -/
def serveBackup (serving : Serving) (copying : Copying) (mfile : Mfile) : Except CopyFault Mfile :=
  serving.doBackup copying
    (if mfile.cache_status = .asked then { mfile with cache_status := .inProgress } else mfile)

end Serving

/-! ## The copy -/

/-- Every turn copies something or is the last one. -/
theorem copyLoop_fuel (turns : Nat -> CopyTurn) {fuel turn : Nat} {cursor : CopyCursor}
    (positive : 0 < cursor.window_size) (enough : cursor.remains.toNat < fuel) :
    copyLoop turns fuel turn cursor ≠ .error .fuel := by
  induction fuel generalizing turn cursor with
  | zero => omega
  | succ fuel inductionHypothesis =>
      have less := cursor.copied_less positive
      unfold copyLoop
      simp only
      split
      · simp
      split
      · simp
      split
      · simp
      split
      · simp
      split
      · simp
      split
      · simp
      next more =>
        have smaller : cursor.copied.remains.toNat < fuel := by omega
        split
        · simp
        split
        · split
          · exact inductionHypothesis (nextWindow_pos positive) smaller
          · simp
        · exact inductionHypothesis (nextWindow_pos positive) smaller

/-- What `mcachefs_transfer_file` leaves of the open file: a copy to the cache that
succeeds is done, and nothing else changes the status. -/
theorem Copying.transferFile_cases {copying : Copying} {tobacking : Bool} {total_size res : Int}
    {mfile after : Mfile}
    (returned : copying.transferFile tobacking total_size mfile = .ok (res, after)) :
    res = 0 ∧ after = (if tobacking then { mfile with cache_status := .done } else mfile) ∨
      res ≠ 0 ∧ after = mfile := by
  have failed : - Journal.EIO ≠ 0 := by decide
  unfold transferFile at returned
  split at returned
  · obtain ⟨rfl, rfl⟩ := Prod.mk.inj (Except.ok.inj returned)
    exact Or.inr ⟨failed, rfl⟩
  · split at returned
    · obtain ⟨rfl, rfl⟩ := Prod.mk.inj (Except.ok.inj returned)
      exact Or.inr ⟨failed, rfl⟩
    · split at returned
      · cases returned
      · simp only at returned
        split at returned
        · cases returned
        · obtain ⟨rfl, rfl⟩ := Prod.mk.inj (Except.ok.inj returned)
          exact Or.inr ⟨failed, rfl⟩
        · obtain ⟨rfl, rfl⟩ := Prod.mk.inj (Except.ok.inj returned)
          exact Or.inl ⟨rfl, rfl⟩

/-- A copy never runs out of turns. -/
theorem Copying.transferFile_fuel (copying : Copying) (tobacking : Bool) (total_size : Int)
    (mfile : Mfile) : copying.transferFile tobacking total_size mfile ≠ .error .fuel := by
  unfold transferFile
  split
  · simp
  · split
    · simp
    · split
      · simp
      · simp only
        split
        · next size fault ended =>
            rintro same
            cases same
            exact copyLoop_fuel _ windowSizeMin_pos (Nat.lt_succ_self _) ended
        · simp
        · simp

namespace Serving

/-- With the result of its copy, a backup is the one of `doTransfer`. -/
theorem doBackup_doTransfer {serving : Serving} {copying : Copying} {mfile after : Mfile}
    (returned : serving.doBackup copying mfile = .ok after) :
    Exists fun res =>
      { serving with transferFile := res }.doTransfer mfile .backup = .ok (after, []) := by
  have copied : forall total_size, serving.doBackingCopy copying total_size mfile = .ok after ->
      Exists fun res => { serving with transferFile := res }.doBacking mfile = after := by
    intro total_size returned
    unfold doBackingCopy at returned
    unfold doBacking
    split at returned
    · next cached =>
        rw [← Except.ok.inj returned]
        exact ⟨0, if_pos cached⟩
    · next notCached =>
        split at returned
        · next failed =>
            rw [← Except.ok.inj returned]
            exact ⟨0, (if_neg notCached).trans (if_pos failed)⟩
        · next created =>
            split at returned
            · cases returned
            · next res middle transferred =>
                refine ⟨res, (if_neg notCached).trans ((if_neg created).trans ?_)⟩
                rcases Copying.transferFile_cases transferred with ⟨rfl, same⟩ | ⟨failed, same⟩
                · rw [if_pos rfl] at returned
                  rw [← Except.ok.inj returned, same]
                  rfl
                · rw [if_neg failed, same] at returned
                  rw [← Except.ok.inj returned]
                  exact if_neg failed
  unfold doBackup at returned
  split at returned
  · next handsup =>
      rw [← Except.ok.inj returned]
      exact ⟨0, if_pos handsup⟩
  · next ready =>
      split at returned
      · next directory =>
          rw [← Except.ok.inj returned]
          exact ⟨0, (if_neg ready).trans (if_pos directory)⟩
      · next notDirectory =>
          cases found : serving.metadata with
          | none =>
              rw [found] at returned
              rw [← Except.ok.inj returned]
              exact ⟨0, (if_neg ready).trans ((if_neg notDirectory).trans rfl)⟩
          | some st =>
              rw [found] at returned
              obtain ⟨res, same⟩ := copied st.st_size returned
              refine ⟨res, (if_neg ready).trans ((if_neg notDirectory).trans ?_)⟩
              rw [← same, found]

/-! ## Settled files -/

/-- The wait loop of `mcachefs_write_file` looks at the status: it goes on to write,
gives up, or waits (`none`). -/
def waitForBacking : CacheStatus -> Option Bool
  | .done => some true
  | .error => some false
  | _ => none

/-- Nothing is waited for. -/
def Settled (cache_status : CacheStatus) : Prop :=
  cache_status = .done ∨ cache_status = .error

theorem settled_iff_waitForBacking {cache_status : CacheStatus} :
    Settled cache_status ↔ waitForBacking cache_status ≠ none := by
  cases cache_status <;> simp [Settled, waitForBacking]

/-- A backup that returns leaves the file settled. -/
def Settles (serving : Serving) (copying : Copying) (mfile : Mfile) : Prop :=
  forall after, serving.serveBackup copying mfile = .ok after -> Settled after.cache_status

/-- The backup gets as far as its copy. -/
structure StartsCopy (serving : Serving) (mfile : Mfile) : Prop where
  ready : serving.readState ≠ .handsup
  type : mfile.type ≠ .dir
  metadata : serving.metadata ≠ none
  notInCache : serving.fileincache = false
  created : serving.createfileCache = 0

/-- A backup that does not get as far leaves the status as it is. -/
theorem doBackup_stops {serving : Serving} (copying : Copying) {mfile : Mfile}
    (stops : ¬ serving.StartsCopy mfile) : serving.doBackup copying mfile = .ok mfile := by
  unfold doBackup doBackingCopy
  split
  · rfl
  · next ready =>
      split
      · rfl
      · next notDirectory =>
          split
          · rfl
          · next st found =>
              split
              · rfl
              · next notCached =>
                  split
                  · rfl
                  · next created =>
                      exact absurd ⟨ready, notDirectory, by rw [found]; exact Option.some_ne_none st,
                        Bool.eq_false_iff.mpr notCached, not_not.mp created⟩ stops

/-- Once it copies, a backup settles the status. -/
theorem doBackup_copies {serving : Serving} {copying : Copying} {mfile after : Mfile}
    (starts : serving.StartsCopy mfile) (returned : serving.doBackup copying mfile = .ok after) :
    Settled after.cache_status := by
  obtain ⟨st, found⟩ := Option.ne_none_iff_exists'.mp starts.metadata
  have cached : ¬ serving.fileincache = true := Bool.eq_false_iff.mp starts.notInCache
  unfold doBackup doBackingCopy at returned
  rw [if_neg starts.ready, if_neg starts.type, found] at returned
  simp only [if_neg cached, if_neg (not_not.mpr starts.created)] at returned
  split at returned
  · cases returned
  · next res middle transferred =>
      rcases Copying.transferFile_cases transferred with ⟨rfl, same⟩ | ⟨failed, same⟩
      · rw [if_pos rfl, same] at returned
        rw [← Except.ok.inj returned]
        exact Or.inl rfl
      · rw [if_neg failed] at returned
        rw [← Except.ok.inj returned]
        exact Or.inr rfl

/-- A backup settles its file exactly where it gets as far as the copy, or where the file
was settled before. -/
theorem backup_settles_iff (serving : Serving) (copying : Copying) (mfile : Mfile) :
    Settles serving copying mfile ↔
      Settled mfile.cache_status ∨ serving.StartsCopy mfile := by
  obtain ⟨taken, takenEq⟩ : Exists fun taken => taken =
      if mfile.cache_status = .asked then { mfile with cache_status := .inProgress } else mfile :=
    ⟨_, rfl⟩
  have settled : Settled taken.cache_status ↔ Settled mfile.cache_status := by
    rw [takenEq]
    split
    · next asked => simp [Settled, asked]
    · rfl
  have starts : serving.StartsCopy taken ↔ serving.StartsCopy mfile := by
    have type : taken.type = mfile.type := by
      rw [takenEq]
      split <;> rfl
    exact ⟨fun ⟨ready, notDirectory, found, notCached, created⟩ =>
      ⟨ready, type ▸ notDirectory, found, notCached, created⟩,
      fun ⟨ready, notDirectory, found, notCached, created⟩ =>
        ⟨ready, type.symm ▸ notDirectory, found, notCached, created⟩⟩
  unfold Settles serveBackup
  rw [← takenEq, ← settled, ← starts]
  constructor
  · intro settles
    by_cases copies : serving.StartsCopy taken
    · exact Or.inr copies
    · exact Or.inl (settles taken (doBackup_stops copying copies))
  · intro either after returned
    by_cases copies : serving.StartsCopy taken
    · exact doBackup_copies copies returned
    · rw [doBackup_stops copying copies] at returned
      rw [← Except.ok.inj returned]
      exact either.resolve_right copies

/-- A copy of three bytes in one turn. -/
def oneTurn : Copying where
  source_fd := true
  target_fd := true
  source_stat := some 3
  turns := fun _ => ⟨false, false, false, 3, 3, 1, 1, true⟩

/-- The file was removed while its backup was queued, so that it has no metadata: the status stays
at `MCACHEFS_FILE_BACKING_IN_PROGRESS`, and a write waits. -/
theorem backup_without_metadata_waits :
    (serveBackup { Serving.copying with metadata := none, fileincache := false } oneTurn
      { Mfile.init (ascii "/a") .file with cache_status := .asked }).map
        (fun after => (after.cache_status, waitForBacking after.cache_status)) =
      .ok (.inProgress, none) ∧
    ¬ Settles { Serving.copying with metadata := none, fileincache := false } oneTurn
      { Mfile.init (ascii "/a") .file with cache_status := .asked } := by
  refine ⟨rfl, fun settles => ?_⟩
  exact absurd (settles _ rfl) (by simp [Settled])

end Serving

end Transfer
end Mcachefs
