import Mcachefs.File.Mfile
import Mcachefs.Library.Runs
import Mathlib.Data.List.Perm.Basic

namespace Mcachefs
namespace UseCounts

open Library Journal Transfer

/-!
# Use counts of open files

The count `use` of an open file is raised by an `open` and by each of the three
functions that ask for a transfer, and lowered by a release and by the thread
that has served a transfer.  A request raises the count first and then asks the
queue, which are two critical sections and therefore two steps here; in between
the request is in the list `requested`.

An entry that has no open file gets a new one at a free address, and an entry
that has one gets that one again, so that a step only names the address.
-/

/-- The end of the process by `Bug`, or the use of an open file that is gone. -/
inductive Fault
  | zeroUse
  | deleted
  deriving DecidableEq, Repr

structure UseState where
  mfiles : Fh -> Option Mfile
  /-- The handles the kernel holds on each open file. -/
  handles : Fh -> Nat
  queue : Queue
  /-- Requests that have raised the count and have yet to ask the queue. -/
  requested : List Request
  /-- Requests in the hands of a thread. -/
  serving : List Request

inductive Event
  | openFile (fh : Fh) (path : Path) (type : FileType)
  | release (fh : Fh)
  /-- `mcachefs_transfer_backfile`, by the holder of a handle; `inCache` is
  `mcachefs_fileincache(mfile->path)`. -/
  | backfile (fh : Fh) (inCache : Bool)
  /-- `mcachefs_transfer_writeback` for an fsync entry whose file is in the
  cache and has its metadata. -/
  | writeback (fh : Fh) (path : Path)
  /-- `mcachefs_metadata_schedule_fill_entry`. -/
  | scheduleFill (fh : Fh) (path : Path)
  /-- One of these three calls `mcachefs_transfer_queue_file`. -/
  | ask (index : Nat)
  /-- A thread of this type takes a request. -/
  | take (type : TransferType)
  /-- A thread has finished `mcachefs_transfer_do_transfer`, which leaves the
  file with `status`, and releases it. -/
  | finish (index : Nat) (status : CacheStatus)
  deriving DecidableEq, Repr

namespace UseState

/-- Nothing is open. -/
def init : UseState := ⟨fun _ => none, fun _ => 0, [], [], []⟩

/-- Change one open file. -/
def setFile (state : UseState) (fh : Fh) (mfile : Option Mfile) : UseState :=
  { state with mfiles := Function.update state.mfiles fh mfile }

/-- `mcachefs_fileid_get`, with the count that it raises or begins. -/
def fileidGet (fh : Fh) (path : Path) (type : FileType) (state : UseState) : UseState :=
  match state.mfiles fh with
  | some mfile => state.setFile fh (some { mfile with use := mfile.use + 1 })
  | none => state.setFile fh (some (.init path type))

/-- `mcachefs_file_release`. -/
def fileRelease (fh : Fh) (state : UseState) : Except Fault UseState :=
  match state.mfiles fh with
  | none => .error .deleted
  | some mfile =>
      if mfile.use = 0 then .error .zeroUse
      else
        let mfile := { mfile with use := mfile.use - 1 }
        if mfile.use = 0 ∧ mfile.type ≠ .vops then .ok (state.setFile fh none)
        else .ok (state.setFile fh (some mfile))

/-- `mcachefs_transfer_backfile` before it asks the queue. -/
def backfile (fh : Fh) (inCache : Bool) (state : UseState) : UseState :=
  match state.mfiles fh with
  | none => state
  | some mfile =>
      if mfile.cache_status = .asked ∨ mfile.cache_status = .inProgress ∨
          mfile.cache_status = .done then state
      else if inCache then state.setFile fh (some { mfile with cache_status := .done })
      else
        { state.setFile fh (some { mfile with cache_status := .asked, use := mfile.use + 1 }) with
          requested := ⟨fh, .backup⟩ :: state.requested }

def step (state : UseState) (event : Event) : Except Fault UseState :=
  match event with
  | .openFile fh path type =>
      .ok { fileidGet fh path type state with
        handles := Function.update state.handles fh (state.handles fh + 1) }
  | .release fh =>
      if state.handles fh = 0 then .ok state
      else
        fileRelease fh { state with
          handles := Function.update state.handles fh (state.handles fh - 1) }
  | .backfile fh inCache =>
      if state.handles fh = 0 then .ok state else .ok (backfile fh inCache state)
  | .writeback fh path =>
      let state := fileidGet fh path .file state
      .ok { state with
        mfiles := Function.update state.mfiles fh
          ((state.mfiles fh).map fun mfile => { mfile with cache_status := .done })
        requested := ⟨fh, .writeback⟩ :: state.requested }
  | .scheduleFill fh path =>
      .ok { fileidGet fh path .dir state with
        requested := ⟨fh, .metadata⟩ :: state.requested }
  | .ask index =>
      match state.requested[index]? with
      | none => .ok state
      | some request =>
          .ok { state with
            requested := state.requested.eraseIdx index
            queue := (queueFile request.mfile request.type state.queue).2 }
  | .take type =>
      match getNextFileToBack type state.queue with
      | none => .ok state
      | some (request, queue) =>
          .ok { state with
            mfiles := Function.update state.mfiles request.mfile
              ((state.mfiles request.mfile).map fun mfile =>
                if mfile.cache_status = .asked then { mfile with cache_status := .inProgress }
                else mfile)
            queue := queue
            serving := request :: state.serving }
  | .finish index status =>
      match state.serving[index]? with
      | none => .ok state
      | some request =>
          fileRelease request.mfile { state with
            mfiles := Function.update state.mfiles request.mfile
              ((state.mfiles request.mfile).map fun mfile => { mfile with cache_status := status })
            serving := state.serving.eraseIdx index }

/-- The count of an open file; a file that is not open has none. -/
def useOf (state : UseState) (fh : Fh) : Nat :=
  ((state.mfiles fh).map Mfile.use).getD 0

/-- The requests for one open file in a list. -/
def jobs (fh : Fh) (requests : List Request) : Nat :=
  requests.countP fun request => request.mfile = fh

/-- The handles and the jobs of an open file: on their way to the queue, in it,
or being served. -/
def owed (state : UseState) (fh : Fh) : Nat :=
  state.handles fh + jobs fh state.queue + jobs fh state.serving + jobs fh state.requested

/-- Every open file has as many uses as it has handles and jobs. -/
def ExactUse (state : UseState) : Prop :=
  forall fh, state.useOf fh = state.owed fh

/-- The queue takes every request. -/
def QueueAccepts (state : UseState) : Event -> Prop
  | .ask index => forall request, state.requested[index]? = some request ->
      (state.queue.any fun other => other.mfile = request.mfile) = false
  | _ => True

/-! ## One step -/

section Steps

variable {state next : UseState}

theorem init_exact : init.ExactUse :=
  fun _ => rfl

theorem useOf_setFile (fh other : Fh) (mfile : Option Mfile) :
    (state.setFile fh mfile).useOf other =
      if other = fh then (mfile.map Mfile.use).getD 0 else state.useOf other := by
  by_cases same : other = fh
  · subst same
    simp [useOf, setFile]
  · simp [useOf, setFile, same]

theorem useOf_fileidGet (fh other : Fh) (path : Path) (type : FileType) :
    (fileidGet fh path type state).useOf other =
      state.useOf other + if other = fh then 1 else 0 := by
  unfold fileidGet
  cases held : state.mfiles fh with
  | some mfile =>
      rw [useOf_setFile]
      by_cases same : other = fh
      · subst same
        simp [useOf, held]
      · simp [same]
  | none =>
      rw [useOf_setFile]
      by_cases same : other = fh
      · subst same
        simp [useOf, held, Mfile.init]
      · simp [same]

/-- A change of the files that leaves the counts. -/
theorem useOf_map (fh other : Fh) (change : Mfile -> Mfile)
    (keeps : forall mfile, (change mfile).use = mfile.use) :
    ((Function.update state.mfiles fh ((state.mfiles fh).map change) other).map Mfile.use).getD 0 =
      state.useOf other := by
  by_cases same : other = fh
  · subst same
    cases held : state.mfiles other <;> simp [useOf, held, keeps]
  · simp [useOf, same]

/-- Getting a file handle changes nothing else. -/
theorem fileidGet_frame (fh : Fh) (path : Path) (type : FileType) :
    (fileidGet fh path type state).handles = state.handles ∧
      (fileidGet fh path type state).queue = state.queue ∧
      (fileidGet fh path type state).serving = state.serving ∧
      (fileidGet fh path type state).requested = state.requested := by
  unfold fileidGet
  cases state.mfiles fh <;> exact ⟨rfl, rfl, rfl, rfl⟩

theorem jobs_cons (fh : Fh) (request : Request) (requests : List Request) :
    jobs fh (request :: requests) = jobs fh requests + if fh = request.mfile then 1 else 0 := by
  by_cases same : request.mfile = fh
  · simp [jobs, same]
  · simp [jobs, same, Ne.symm same]

theorem jobs_append (fh : Fh) (first second : List Request) :
    jobs fh (first ++ second) = jobs fh first + jobs fh second :=
  List.countP_append

theorem jobs_eraseIdx {requests : List Request} {index : Nat} {request : Request}
    (held : requests[index]? = some request) (fh : Fh) :
    jobs fh requests = jobs fh (requests.eraseIdx index) + if fh = request.mfile then 1 else 0 := by
  obtain ⟨inside, rfl⟩ := List.getElem?_eq_some_iff.mp held
  have same := (List.getElem_cons_eraseIdx_perm inside).countP_eq fun other => other.mfile = fh
  rw [← jobs_cons]
  exact same.symm

/-- A release lowers one count by one, and it succeeds while there is one. -/
theorem fileRelease_ok {fh : Fh} (used : state.useOf fh ≠ 0) :
    Exists fun next => fileRelease fh state = .ok next ∧
      next.handles = state.handles ∧ next.queue = state.queue ∧ next.serving = state.serving ∧
      next.requested = state.requested ∧
      forall other, state.useOf other = next.useOf other + if other = fh then 1 else 0 := by
  cases held : state.mfiles fh with
  | none => simp [useOf, held] at used
  | some mfile =>
      have count : state.useOf fh = mfile.use := by simp [useOf, held]
      have positive : mfile.use ≠ 0 := count ▸ used
      have lowered : forall (left : Option Mfile) (other : Fh),
          (left.map Mfile.use).getD 0 = mfile.use - 1 ->
          state.useOf other = (state.setFile fh left).useOf other +
            if other = fh then 1 else 0 := by
        intro left other equal
        rw [useOf_setFile]
        by_cases same : other = fh
        · subst same
          simp only [if_true, equal, count]
          omega
        · simp [same]
      unfold fileRelease
      simp only [held, if_neg positive]
      split
      · next last => exact ⟨_, rfl, rfl, rfl, rfl, rfl, fun other => lowered none other last.1.symm⟩
      · exact ⟨_, rfl, rfl, rfl, rfl, rfl, fun other => lowered _ other rfl⟩

theorem jobs_queueFile {queue : Queue} {request : Request}
    (accepted : (queue.any fun other => other.mfile = request.mfile) = false) (fh : Fh) :
    jobs fh (queueFile request.mfile request.type queue).2 =
      jobs fh queue + if fh = request.mfile then 1 else 0 := by
  rw [queueFile, if_neg (by simp [accepted]), jobs_append, jobs_cons]
  simp [jobs]

theorem jobs_getNextFileToBack {type : TransferType} {queue rest : Queue} {request : Request}
    (taken : getNextFileToBack type queue = some (request, rest)) (fh : Fh) :
    jobs fh queue = jobs fh rest + if fh = request.mfile then 1 else 0 := by
  obtain ⟨-, before, after, rfl, rfl⟩ := getNextFileToBack_some taken
  rw [jobs_append, jobs_cons, jobs_append]
  omega

theorem handles_raise (handles : Fh -> Nat) (fh other : Fh) :
    Function.update handles fh (handles fh + 1) other =
      handles other + if other = fh then 1 else 0 := by
  by_cases same : other = fh
  · subst same
    simp
  · simp [same]

theorem handles_lower {handles : Fh -> Nat} {fh : Fh} (some : handles fh ≠ 0) (other : Fh) :
    handles other = Function.update handles fh (handles fh - 1) other +
      if other = fh then 1 else 0 := by
  by_cases same : other = fh
  · subst same
    simp only [Function.update_self, if_true]
    omega
  · simp [same]

/-- A step that raises a count for a handle or a job. -/
theorem ExactUse.raise (exactUse : state.ExactUse) (fh : Fh)
    (use : forall other, next.useOf other = state.useOf other + if other = fh then 1 else 0)
    (owed : forall other, next.owed other = state.owed other + if other = fh then 1 else 0) :
    next.ExactUse := by
  intro other
  rw [use, owed, exactUse other]

theorem ExactUse.backfile (exactUse : state.ExactUse) (fh : Fh) (inCache : Bool) :
    (backfile fh inCache state).ExactUse := by
  unfold UseState.backfile
  cases held : state.mfiles fh with
  | none => exact exactUse
  | some mfile =>
      have count : state.useOf fh = mfile.use := by simp [useOf, held]
      simp only
      split
      · exact exactUse
      · split
        · intro other
          rw [useOf_setFile]
          change _ = state.owed other
          rw [← exactUse other]
          by_cases same : other = fh
          · subst same
            simp [count]
          · simp [same]
        · refine exactUse.raise fh (fun other => ?_) (fun other => ?_)
          · change (state.setFile fh _).useOf other = _
            rw [useOf_setFile]
            by_cases same : other = fh
            · subst same
              simp [count]
            · simp [same]
          · simp only [owed, jobs_cons, setFile]
            omega

/-- A release of a use that a handle or a job has given up. -/
theorem ExactUse.release (exactUse : state.ExactUse) {given : UseState} (fh : Fh)
    (use : forall other, given.useOf other = state.useOf other)
    (owed : forall other, state.owed other = given.owed other + if other = fh then 1 else 0) :
    Exists fun next => fileRelease fh given = .ok next ∧ next.ExactUse := by
  have used : given.useOf fh ≠ 0 := by
    rw [use, exactUse fh, owed fh, if_pos rfl]
    omega
  obtain ⟨next, released, handles, queue, serving, requested, lowered⟩ := fileRelease_ok used
  refine ⟨next, released, fun other => ?_⟩
  have kept : next.owed other = given.owed other := by
    simp only [UseState.owed, handles, queue, serving, requested]
  have before := exactUse other
  have less := lowered other
  have less' := owed other
  rw [use] at less
  rw [kept]
  omega

/-- Whatever the queue takes is counted; every other step moves a use together
with the handle or the job it belongs to. -/
theorem ExactUse.step (exactUse : state.ExactUse) {event : Event}
    (accepts : state.QueueAccepts event) :
    Exists fun next => state.step event = .ok next ∧ next.ExactUse := by
  cases event with
  | openFile fh path type =>
      refine ⟨_, rfl, exactUse.raise fh (fun other => ?_) (fun other => ?_)⟩
      · exact useOf_fileidGet fh other path type
      · simp only [owed, handles_raise]
        simp only [fileidGet_frame]
        omega
  | release fh =>
      simp only [UseState.step]
      split
      · exact ⟨state, rfl, exactUse⟩
      · next some =>
          refine exactUse.release fh (fun _ => rfl) (fun other => ?_)
          have lowered := handles_lower some other
          simp only [owed]
          omega
  | backfile fh inCache =>
      simp only [UseState.step]
      split
      · exact ⟨state, rfl, exactUse⟩
      · exact ⟨_, rfl, exactUse.backfile fh inCache⟩
  | writeback fh path =>
      refine ⟨_, rfl, exactUse.raise fh (fun other => ?_) (fun other => ?_)⟩
      · have raised := state.useOf_fileidGet fh other path .file
        rw [← raised]
        exact useOf_map fh other _ fun _ => rfl
      · simp only [owed, jobs_cons, fileidGet_frame]
        omega
  | scheduleFill fh path =>
      refine ⟨_, rfl, exactUse.raise fh (fun other => ?_) (fun other => ?_)⟩
      · exact useOf_fileidGet fh other path .dir
      · simp only [owed, jobs_cons, fileidGet_frame]
        omega
  | ask index =>
      simp only [UseState.step]
      cases held : state.requested[index]? with
      | none => exact ⟨state, rfl, exactUse⟩
      | some request =>
          refine ⟨_, rfl, fun other => ?_⟩
          have before := exactUse other
          have moved := jobs_eraseIdx held other
          simp only [owed, jobs_queueFile (accepts request held)] at before ⊢
          change state.useOf other = _
          omega
  | take type =>
      simp only [UseState.step]
      cases taken : getNextFileToBack type state.queue with
      | none => exact ⟨state, rfl, exactUse⟩
      | some pair =>
          obtain ⟨request, rest⟩ := pair
          refine ⟨_, rfl, fun other => ?_⟩
          have before := exactUse other
          have moved := jobs_getNextFileToBack taken other
          simp only [owed, jobs_cons] at before ⊢
          have kept := state.useOf_map request.mfile other
            (fun mfile => if mfile.cache_status = .asked then
              { mfile with cache_status := .inProgress } else mfile)
            (fun mfile => by split <;> rfl)
          refine kept.trans ?_
          omega
  | finish index status =>
      simp only [UseState.step]
      cases held : state.serving[index]? with
      | none => exact ⟨state, rfl, exactUse⟩
      | some request =>
          refine exactUse.release request.mfile (fun other => ?_) (fun other => ?_)
          · exact useOf_map request.mfile other _ fun _ => rfl
          · have moved := jobs_eraseIdx held other
            simp only [owed]
            omega

/-- A request that the queue refuses keeps its use. -/
theorem ExactUse.refused (exactUse : state.ExactUse) {event : Event}
    (refuses : ¬ state.QueueAccepts event) :
    Exists fun next => state.step event = .ok next ∧ ¬ next.ExactUse := by
  cases event with
  | ask index =>
      simp only [QueueAccepts, Classical.not_forall, Bool.not_eq_false] at refuses
      obtain ⟨request, held, already⟩ := refuses
      refine ⟨{ state with
        requested := state.requested.eraseIdx index
        queue := (queueFile request.mfile request.type state.queue).2 }, ?_, fun after => ?_⟩
      · simp only [UseState.step, held]
      · have before := exactUse request.mfile
        have later := after request.mfile
        have moved := jobs_eraseIdx held request.mfile
        simp only [owed, queueFile, if_pos already] at before later
        change state.useOf request.mfile = _ at later
        rw [if_pos rfl] at moved
        omega
  | _ => exact absurd trivial refuses

end Steps

/-- In every run the use counts are exact and no `Bug` is reached, exactly when
the queue accepts every request. -/
theorem use_counts_exact_iff (events : List Event) :
    Throughout step ExactUse (fun _ => False) init events ↔
      EachStep step QueueAccepts init events := by
  refine throughout_iff_eachStep (fun _ (exactUse : ExactUse _) => exactUse) ?_ ?_ ?_ events
    init_exact
  · intro state event next exactUse accepts result
    obtain ⟨after, steps, kept⟩ := exactUse.step accepts
    rw [steps] at result
    cases result
    exact kept
  · intro state event fault exactUse accepts result
    obtain ⟨after, steps, -⟩ := exactUse.step accepts
    rw [steps] at result
    cases result
  · exact fun state event exactUse refuses => exactUse.refused refuses

/-- A journal with two fsync entries for one path: the second request finds the
first one in the queue, and its use is never given back. -/
theorem second_writeback_keeps_use :
    ¬ Throughout step ExactUse (fun _ => False) init
      [.writeback 1 (ascii "/a"), .ask 0, .writeback 1 (ascii "/a"), .ask 0] := by
  intro throughout
  exact absurd (throughout.2.2.2.2 1) (by decide)

end UseState

end UseCounts
end Mcachefs
