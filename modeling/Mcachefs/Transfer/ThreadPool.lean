import Mcachefs.Transfer.QueueService

namespace Mcachefs
namespace Transfer

open Library Journal

/-!
# The threads that serve the transfer queue, and their end

`mcachefs_transfer_start_threads` starts some threads for each type of transfer,
and when the file system is taken down `mcachefs_transfer_stop_threads` posts
once for each thread and waits for them one after the other.  A thread that has
passed its semaphore reads the state and ends if that is `QUITTING`; it does so
before it takes the transfer lock, in a step of its own.

A user may also set the state to `quitting` while the file system serves
requests, and back.  Threads that were woken in between are gone then, and so is
what was posted for their jobs.  A transfer is one step here.
-/

/-- Where a thread is in the loop of `mcachefs_transfer_thread`. -/
inductive Phase
  /-- In `sem_wait`. -/
  | waiting
  /-- It has passed the semaphore and has yet to read the state. -/
  | woken
  /-- The state was not `QUITTING`; it has yet to take a job. -/
  | taking
  | serving (mfile : Fh)
  /-- It has returned. -/
  | ended
  deriving DecidableEq, Repr

/-- An entry of `mcachefs_transfer_threads`. -/
structure Worker where
  type : TransferType
  phase : Phase
  deriving DecidableEq, Repr

/-- How far `mcachefs_destroy` is in `mcachefs_transfer_stop_threads`. -/
inductive Stopping
  | idle
  | posting (cur : Nat)
  | joining (cur : Nat)
  | done
  deriving DecidableEq, Repr

structure PoolState where
  queue : LinkedQueue
  sem : TransferType -> Nat
  /-- Callers that have queued a job of this type and have yet to post. -/
  posting : List TransferType
  /-- Whether the state is `QUITTING`. -/
  quitting : Bool
  workers : List Worker
  stopping : Stopping

namespace PoolState

/-- `mcachefs_transfer_start_threads`, with `threadsNb` from the configuration. -/
def startThreads (threadsNb : TransferType -> Nat) : PoolState where
  queue := ⟨fun _ => none, 0, 0⟩
  sem := fun _ => 0
  posting := []
  quitting := false
  workers := [TransferType.backup, .writeback, .metadata].flatMap fun type =>
    List.replicate (threadsNb type) ⟨type, .waiting⟩
  stopping := .idle

/-- One step of a caller. -/
inductive CallerStep (state : PoolState) : PoolState -> Prop
  /-- A caller queues a file; `transfer` is the address from `malloc`. -/
  | accept (transfer : Nat) (mfile : Fh) (type : TransferType) (queue : LinkedQueue)
      (unused : state.queue.nodes transfer = none) (notNull : transfer ≠ 0)
      (result : Returns (state.queue.queueFile · transfer mfile type) (0, queue)) :
      CallerStep state { state with queue := queue, posting := type :: state.posting }
  /-- The file is in the queue already. -/
  | refuse (transfer : Nat) (mfile : Fh) (type : TransferType) (res : Int)
      (queue : LinkedQueue) (unused : state.queue.nodes transfer = none) (notNull : transfer ≠ 0)
      (refused : res ≠ 0)
      (result : Returns (state.queue.queueFile · transfer mfile type) (res, queue)) :
      CallerStep state { state with queue := queue }
  /-- `sem_post`, after the lock was given back. -/
  | post (before after : List TransferType) (type : TransferType)
      (posting : state.posting = before ++ type :: after) :
      CallerStep state { state with
        sem := Function.update state.sem type (state.sem type + 1)
        posting := before ++ after }
  /-- `mcachefs_config_set_read_state`, by a write to the file `read_state`. -/
  | setReadState (quitting : Bool) (serves : state.stopping = .idle) :
      CallerStep state { state with quitting := quitting }
  /-- `mcachefs_destroy` sets the state and calls `mcachefs_transfer_stop_threads`. -/
  | destroy (serves : state.stopping = .idle) :
      CallerStep state { state with quitting := true, stopping := .posting 0 }

/-- One step of a thread, or of `mcachefs_transfer_stop_threads`. -/
inductive OwnStep (state : PoolState) : PoolState -> Prop
  /-- `sem_wait` returns. -/
  | wake (before after : List Worker) (type : TransferType) (count : Nat)
      (workers : state.workers = before ++ ⟨type, .waiting⟩ :: after)
      (posted : state.sem type = count + 1) :
      OwnStep state { state with
        sem := Function.update state.sem type count
        workers := before ++ ⟨type, .woken⟩ :: after }
  /-- The thread reads the state. -/
  | look (before after : List Worker) (type : TransferType)
      (workers : state.workers = before ++ ⟨type, .woken⟩ :: after) :
      OwnStep state { state with
        workers := before ++ ⟨type, if state.quitting then .ended else .taking⟩ :: after }
  /-- It takes a job. -/
  | take (before after : List Worker) (type : TransferType) (mfile : Fh) (queue : LinkedQueue)
      (workers : state.workers = before ++ ⟨type, .taking⟩ :: after)
      (result : Returns (state.queue.getNextFileToBackLocked · type) (mfile, queue)) :
      OwnStep state { state with
        queue := queue
        workers := before ++ ⟨type, .serving mfile⟩ :: after }
  /-- The transfer is over, and the file is released. -/
  | finish (before after : List Worker) (type : TransferType) (mfile : Fh)
      (workers : state.workers = before ++ ⟨type, .serving mfile⟩ :: after) :
      OwnStep state { state with workers := before ++ ⟨type, .waiting⟩ :: after }
  /-- The first loop of `mcachefs_transfer_stop_threads` posts for a thread. -/
  | postStop (cur : Nat) (worker : Worker) (stopping : state.stopping = .posting cur)
      (here : state.workers[cur]? = some worker) :
      OwnStep state { state with
        sem := Function.update state.sem worker.type (state.sem worker.type + 1)
        stopping := .posting (cur + 1) }
  | posted (cur : Nat) (stopping : state.stopping = .posting cur)
      (none : state.workers[cur]? = none) :
      OwnStep state { state with stopping := .joining 0 }
  /-- `pthread_join` of a thread in the second loop. -/
  | join (cur : Nat) (worker : Worker) (stopping : state.stopping = .joining cur)
      (here : state.workers[cur]? = some worker) (ended : worker.phase = .ended) :
      OwnStep state { state with stopping := .joining (cur + 1) }
  | joined (cur : Nat) (stopping : state.stopping = .joining cur)
      (none : state.workers[cur]? = none) :
      OwnStep state { state with stopping := .done }

/-- Any one step. -/
def Step (state next : PoolState) : Prop :=
  state.CallerStep next ∨ state.OwnStep next

end PoolState

/-! ## The invariant -/

/-- The types of the threads for which the first loop has posted. -/
def Stopping.posted (threads : List TransferType) : Stopping -> List TransferType
  | .idle => []
  | .posting cur => threads.take cur
  | .joining _ | .done => threads

/-- How many threads the second loop has waited for. -/
def Stopping.joined (threads : Nat) : Stopping -> Nat
  | .idle | .posting _ => 0
  | .joining cur => cur
  | .done => threads

namespace PoolState

/-- There is a job for every thread that will take one.  Before the stop, whatever is posted or will
be is for a job; from then on each thread for which the stop was posted has returned, will return
or finds its semaphore raised. -/
structure Pooled (threads : List TransferType) (state : PoolState) (addresses : List Nat)
    (requests : Queue) : Prop where
  holds : state.queue.Holds addresses requests
  nodup : (requests.map Request.mfile).Nodup
  types : state.workers.map Worker.type = threads
  takes : forall type, state.workers.count ⟨type, .taking⟩ ≤
    (ServiceState.filesOf type requests).length
  jobs : state.stopping = .idle -> forall type,
    state.sem type + state.posting.count type + state.workers.count ⟨type, .woken⟩ +
      state.workers.count ⟨type, .taking⟩ ≤ (ServiceState.filesOf type requests).length
  quitting : state.stopping ≠ .idle -> state.quitting = true
  posts : forall type, (state.stopping.posted threads).count type ≤
    state.sem type + state.workers.count ⟨type, .woken⟩ + state.workers.count ⟨type, .ended⟩
  joined : forall worker, worker ∈ state.workers.take (state.stopping.joined threads.length) ->
    worker.phase = .ended

/-- The invariant of the pool. -/
def AllPooled (threads : List TransferType) (state : PoolState) : Prop :=
  Exists fun addresses => Exists fun requests => state.Pooled threads addresses requests

section Steps

variable {threads : List TransferType} {state next : PoolState} {addresses : List Nat}
  {requests : Queue} {before after : List Worker}

theorem startThreads_pooled (threadsNb : TransferType -> Nat) :
    AllPooled ((startThreads threadsNb).workers.map Worker.type) (startThreads threadsNb) := by
  have idle : forall phase, phase ≠ .waiting -> forall type,
      (startThreads threadsNb).workers.count ⟨type, phase⟩ = 0 := by
    intro phase other type
    refine List.count_eq_zero.mpr fun member => ?_
    obtain ⟨kind, -, member⟩ := List.mem_flatMap.mp member
    obtain ⟨-, same⟩ := List.mem_replicate.mp member
    exact other (congrArg Worker.phase same)
  refine ⟨[], [], ⟨⟨.nil 0, rfl, rfl⟩, List.nodup_nil, rfl, fun type => ?_, fun _ type => ?_,
    fun stopping => absurd rfl stopping, fun type => Nat.zero_le _, fun worker member => ?_⟩⟩
  · rw [idle _ (by decide)]
    exact Nat.zero_le _
  · rw [idle _ (by decide), idle _ (by decide)]
    exact Nat.zero_le _
  · exact absurd member (by simp [startThreads, Stopping.joined])

/-- A step of a caller keeps the invariant. -/
theorem Pooled.callerStep (pooled : state.Pooled threads addresses requests)
    (step : state.CallerStep next) : next.AllPooled threads := by
  cases step with
  | accept transfer mfile type queue unused notNull result =>
      obtain ⟨after, others, returns, holds⟩ := pooled.holds.queueFile mfile type unused notNull
      obtain ⟨accepted, rfl⟩ := Prod.mk.inj (returns.unique result)
      have fresh : ¬ (requests.any fun request => request.mfile = mfile) = true := by
        intro already
        simp [queueFile, already, EEXIST] at accepted
      rw [queueFile, if_neg fresh] at holds
      have longer : forall other, (ServiceState.filesOf other (requests ++ [⟨mfile, type⟩])).length =
          (ServiceState.filesOf other requests).length + [type].count other := by
        intro other
        by_cases same : type = other <;>
          simp [ServiceState.filesOf, same]
      refine ⟨others, _, { pooled with holds := holds, nodup := ?_, takes := ?_, jobs := ?_ }⟩
      · have apart : mfile ∉ requests.map Request.mfile := by simpa using fresh
        rw [List.map_append]
        exact pooled.nodup.append (List.nodup_singleton _)
          (List.disjoint_singleton.mpr apart)
      · intro other
        rw [longer]
        exact Nat.le_add_right_of_le (pooled.takes other)
      · intro serves other
        have jobs := pooled.jobs serves other
        simp only [longer, List.count_cons]
        omega
  | refuse transfer mfile type res queue unused notNull refused result =>
      obtain ⟨after, others, returns, holds⟩ := pooled.holds.queueFile mfile type unused notNull
      obtain ⟨same, rfl⟩ := Prod.mk.inj (returns.unique result)
      have already : (requests.any fun request => request.mfile = mfile) = true := by
        by_contra fresh
        rw [queueFile, if_neg fresh] at same
        exact refused same.symm
      rw [queueFile, if_pos already] at holds
      exact ⟨others, requests, { pooled with holds := holds }⟩
  | post before after type posting =>
      have more : forall other, Function.update state.sem type (state.sem type + 1) other =
          state.sem other + [type].count other := by
        intro other
        rw [List.count_singleton]
        by_cases same : other = type
        · subst same
          simp
        · simp [same, Ne.symm same]
      refine ⟨addresses, requests, { pooled with jobs := ?_, posts := ?_ }⟩
      · intro serves other
        have jobs := pooled.jobs serves other
        rw [posting, List.count_append, List.count_cons] at jobs
        simp only [more, List.count_append, List.count_singleton]
        omega
      · intro other
        have posts := pooled.posts other
        simp only [more]
        omega
  | setReadState quitting serves =>
      exact ⟨addresses, requests, { pooled with quitting := fun stopping => absurd serves stopping }⟩
  | destroy serves =>
      exact ⟨addresses, requests, { pooled with
        jobs := fun serves => by cases serves
        quitting := fun _ => rfl
        posts := fun _ => Nat.zero_le _
        joined := fun _ member => absurd member (by simp [Stopping.joined]) }⟩

/-- One thread goes from one phase to another. -/
theorem count_moved {type : TransferType} {old : Phase}
    (workers : state.workers = before ++ ⟨type, old⟩ :: after) (new : Phase)
    (other : TransferType) (phase : Phase) :
    (before ++ ⟨type, new⟩ :: after).count ⟨other, phase⟩ +
        (if type = other ∧ old = phase then 1 else 0) =
      state.workers.count ⟨other, phase⟩ + (if type = other ∧ new = phase then 1 else 0) := by
  rw [workers]
  simp only [List.count_append, List.count_cons, beq_iff_eq, Worker.mk.injEq]
  omega

/-- The threads that the second loop has waited for stay as they are. -/
theorem joined_moved {type : TransferType} {old new : Phase} {count : Nat}
    (going : old ≠ .ended)
    (joined : forall worker, worker ∈ (before ++ ⟨type, old⟩ :: after).take count ->
      worker.phase = .ended) :
    forall worker, worker ∈ (before ++ ⟨type, new⟩ :: after).take count ->
      worker.phase = .ended := by
  have short : count ≤ before.length := by
    by_contra more
    have here : (⟨type, old⟩ : Worker) ∈ (before ++ ⟨type, old⟩ :: after).take count := by
      obtain ⟨rest, rfl⟩ := Nat.exists_eq_add_of_lt (not_le.mp more)
      rw [List.take_append, show before.length + rest + 1 - before.length = rest + 1 by omega,
        List.take_succ_cons]
      exact List.mem_append_right _ List.mem_cons_self
    exact going (joined _ here)
  intro worker member
  rw [List.take_append_of_le_length short] at member joined
  exact joined worker member

/-- There is a job for a thread that takes one. -/
theorem Pooled.waiting (pooled : state.Pooled threads addresses requests) {type : TransferType}
    (member : (⟨type, .taking⟩ : Worker) ∈ state.workers) :
    Exists fun file => Exists fun files =>
      ServiceState.filesOf type requests = file :: files := by
  have positive := List.count_pos_iff.mpr member
  have takes := pooled.takes type
  exact List.exists_cons_of_length_pos (by omega)

/-- What is to be shown of a step of a thread. -/
theorem Pooled.move (pooled : state.Pooled threads addresses requests) {type : TransferType}
    {old new : Phase} (workers : state.workers = before ++ ⟨type, old⟩ :: after)
    (going : old ≠ .ended) {queue : LinkedQueue} {sem : TransferType -> Nat} {others : List Nat}
    {rest : Queue} (holds : queue.Holds others rest) (nodup : (rest.map Request.mfile).Nodup)
    (takes : forall other, (before ++ ⟨type, new⟩ :: after).count ⟨other, .taking⟩ ≤
      (ServiceState.filesOf other rest).length)
    (jobs : state.stopping = .idle -> forall other, sem other + state.posting.count other +
      (before ++ ⟨type, new⟩ :: after).count ⟨other, .woken⟩ +
        (before ++ ⟨type, new⟩ :: after).count ⟨other, .taking⟩ ≤
          (ServiceState.filesOf other rest).length)
    (posts : forall other, (state.stopping.posted threads).count other ≤ sem other +
      (before ++ ⟨type, new⟩ :: after).count ⟨other, .woken⟩ +
        (before ++ ⟨type, new⟩ :: after).count ⟨other, .ended⟩) :
    AllPooled threads { state with
      queue := queue
      sem := sem
      workers := before ++ ⟨type, new⟩ :: after } := by
  have types := pooled.types
  have joined := pooled.joined
  rw [workers] at types joined
  refine ⟨others, rest, holds, nodup, ?_, takes, jobs, pooled.quitting, posts,
    joined_moved going joined⟩
  rw [← types]
  simp only [List.map_append, List.map_cons]

/-- A step of a thread or of the stop keeps the invariant. -/
theorem Pooled.ownStep (pooled : state.Pooled threads addresses requests)
    (step : state.OwnStep next) : next.AllPooled threads := by
  have takes := pooled.takes
  have jobs := pooled.jobs
  have posts := pooled.posts
  cases step with
  | wake before after type count workers posted =>
      have less (other : TransferType) : Function.update state.sem type count other +
          (if type = other then 1 else 0) = state.sem other := by
        by_cases same : type = other
        · subst same
          rw [Function.update_self, if_pos rfl, posted]
        · rw [Function.update_of_ne (Ne.symm same), if_neg same]
          rfl
      have taking (other : TransferType) := count_moved workers .woken other .taking
      have woken (other : TransferType) := count_moved workers .woken other .woken
      have ended (other : TransferType) := count_moved workers .woken other .ended
      simp only [reduceCtorEq, and_false, if_false, and_true] at taking woken ended
      refine pooled.move workers (by decide) pooled.holds pooled.nodup (fun other => ?_)
        (fun serves other => ?_) (fun other => ?_)
      · have taking := taking other
        have takes := takes other
        omega
      · have taking := taking other
        have woken := woken other
        have less := less other
        have jobs := jobs serves other
        omega
      · have woken := woken other
        have ended := ended other
        have less := less other
        have posts := posts other
        omega
  | look before after type workers =>
      by_cases quitting : state.quitting = true
      · rw [if_pos quitting]
        have taking (other : TransferType) := count_moved workers .ended other .taking
        have woken (other : TransferType) := count_moved workers .ended other .woken
        have ended (other : TransferType) := count_moved workers .ended other .ended
        simp only [reduceCtorEq, and_false, if_false, and_true] at taking woken ended
        refine pooled.move workers (by decide) pooled.holds pooled.nodup (fun other => ?_)
          (fun serves other => ?_) (fun other => ?_)
        · have taking := taking other
          have takes := takes other
          omega
        · have taking := taking other
          have woken := woken other
          have jobs := jobs serves other
          omega
        · have woken := woken other
          have ended := ended other
          have posts := posts other
          omega
      · -- Before the stop there is a job for every thread that was woken.
        have serves : state.stopping = .idle := by
          by_contra stopping
          exact quitting (pooled.quitting stopping)
        rw [if_neg quitting]
        have taking (other : TransferType) := count_moved workers .taking other .taking
        have woken (other : TransferType) := count_moved workers .taking other .woken
        simp only [reduceCtorEq, and_false, if_false, and_true] at taking woken
        refine pooled.move workers (by decide) pooled.holds pooled.nodup (fun other => ?_)
          (fun _ other => ?_) (fun other => ?_)
        · have taking := taking other
          have woken := woken other
          have jobs := jobs serves other
          omega
        · have taking := taking other
          have woken := woken other
          have jobs := jobs serves other
          omega
        · rw [serves]
          exact Nat.zero_le _
  | take before after type mfile queue workers result =>
      have member : (⟨type, .taking⟩ : Worker) ∈ state.workers := workers ▸ by simp
      obtain ⟨file, files, waiting⟩ := pooled.waiting member
      obtain ⟨rest, taken, sublist, here, others⟩ :=
        ServiceState.getNextFileToBack_filesOf waiting
      obtain ⟨after', addresses', returns, holds⟩ := pooled.holds.getNextFileToBackLocked taken
      obtain ⟨-, rfl⟩ := Prod.mk.inj (returns.unique result)
      have shorter (other : TransferType) : (ServiceState.filesOf other rest).length +
          (if type = other then 1 else 0) = (ServiceState.filesOf other requests).length := by
        by_cases same : type = other
        · subst same
          rw [here, waiting, if_pos rfl]
          rfl
        · rw [others other (Ne.symm same), if_neg same]
          rfl
      have taking (other : TransferType) := count_moved workers (.serving mfile) other .taking
      have woken (other : TransferType) := count_moved workers (.serving mfile) other .woken
      have ended (other : TransferType) := count_moved workers (.serving mfile) other .ended
      simp only [reduceCtorEq, and_false, if_false, and_true] at taking woken ended
      refine pooled.move workers (by decide) holds (pooled.nodup.sublist (sublist.map _))
        (fun other => ?_) (fun serves other => ?_) (fun other => ?_)
      · have taking := taking other
        have shorter := shorter other
        have takes := takes other
        omega
      · have taking := taking other
        have woken := woken other
        have shorter := shorter other
        have jobs := jobs serves other
        omega
      · have woken := woken other
        have ended := ended other
        have posts := posts other
        omega
  | finish before after type mfile workers =>
      have taking (other : TransferType) := count_moved workers .waiting other .taking
      have woken (other : TransferType) := count_moved workers .waiting other .woken
      have ended (other : TransferType) := count_moved workers .waiting other .ended
      simp only [reduceCtorEq, and_false, if_false] at taking woken ended
      refine pooled.move workers (fun same => nomatch same) pooled.holds pooled.nodup
        (fun other => ?_) (fun serves other => ?_) (fun other => ?_)
      · have taking := taking other
        have takes := takes other
        omega
      · have taking := taking other
        have woken := woken other
        have jobs := jobs serves other
        omega
      · have woken := woken other
        have ended := ended other
        have posts := posts other
        omega
  | postStop cur worker stopping here =>
      have started : state.stopping ≠ .idle := fun idle => nomatch idle.symm.trans stopping
      refine ⟨addresses, requests, { pooled with
        jobs := fun serves => by cases serves
        quitting := fun _ => pooled.quitting started
        posts := fun other => ?_
        joined := fun _ member => absurd member (by simp [Stopping.joined]) }⟩
      have posts := posts other
      have type : threads[cur]? = some worker.type := by
        rw [← pooled.types, List.getElem?_map, here]
        rfl
      rw [stopping] at posts
      simp only [Stopping.posted, List.take_add_one, type, Option.toList_some, List.count_append,
        List.count_singleton] at posts ⊢
      by_cases same : other = worker.type
      · subst same
        simp only [Function.update_self, beq_self_eq_true, if_true]
        omega
      · simp only [Function.update_of_ne same, beq_iff_eq, if_neg (Ne.symm same)]
        omega
  | posted cur stopping none =>
      have started : state.stopping ≠ .idle := fun idle => nomatch idle.symm.trans stopping
      refine ⟨addresses, requests, { pooled with
        jobs := fun serves => by cases serves
        quitting := fun _ => pooled.quitting started
        posts := fun other => ?_
        joined := fun _ member => absurd member (by simp [Stopping.joined]) }⟩
      have posts := posts other
      have past : threads.length ≤ cur := by
        rw [← pooled.types, List.length_map]
        exact List.getElem?_eq_none_iff.mp none
      rw [stopping, Stopping.posted, List.take_of_length_le past] at posts
      exact posts
  | join cur worker stopping here ended =>
      have started : state.stopping ≠ .idle := fun idle => nomatch idle.symm.trans stopping
      have joined := pooled.joined
      rw [stopping] at posts joined
      refine ⟨addresses, requests, { pooled with
        jobs := fun serves => by cases serves
        quitting := fun _ => pooled.quitting started
        posts := posts
        joined := fun other member => ?_ }⟩
      simp only [Stopping.joined, List.take_add_one, here, Option.toList_some, List.mem_append,
        List.mem_singleton] at member
      rcases member with before | rfl
      · exact joined other before
      · exact ended
  | joined cur stopping none =>
      have started : state.stopping ≠ .idle := fun idle => nomatch idle.symm.trans stopping
      have joined := pooled.joined
      rw [stopping] at posts joined
      have past := List.getElem?_eq_none_iff.mp none
      refine ⟨addresses, requests, { pooled with
        jobs := fun serves => by cases serves
        quitting := fun _ => pooled.quitting started
        posts := posts
        joined := fun other member => joined other ?_ }⟩
      rw [Stopping.joined, List.take_of_length_le past]
      exact List.mem_of_mem_take member

end Steps

end PoolState

/-! ## The stop comes to an end -/

/-- How many steps a thread has before it at most once it will find the state `QUITTING`. -/
def Phase.weight : Phase -> Nat
  | .taking => 4
  | .serving _ => 3
  | .waiting => 2
  | .woken => 1
  | .ended => 0

/-- How many steps the stop itself has before it. -/
def Stopping.weight (threads : Nat) : Stopping -> Nat
  | .idle => 0
  | .posting cur => (threads - cur) + threads + 2
  | .joining cur => (threads - cur) + 1
  | .done => 0

namespace PoolState

/-- How many steps of threads and of the stop there can be. -/
def weight (state : PoolState) : Nat :=
  (state.workers.map fun worker => worker.phase.weight).sum +
    state.stopping.weight state.workers.length

/-- Some steps, of which `own` are of threads or of the stop. -/
inductive Went : (state : PoolState) -> (own : Nat) -> PoolState -> Prop
  | here (state : PoolState) : Went state 0 state
  | caller {state middle next : PoolState} {own : Nat} (before : Went state own middle)
      (step : middle.CallerStep next) : Went state own next
  | own {state middle next : PoolState} {own : Nat} (before : Went state own middle)
      (step : middle.OwnStep next) : Went state (own + 1) next

section Progress

variable {threads : List TransferType} {state next : PoolState} {addresses : List Nat}
  {requests : Queue} {before after : List Worker} {own : Nat}

theorem CallerStep.weight_eq (step : state.CallerStep next) (started : state.stopping ≠ .idle) :
    next.weight = state.weight ∧ next.stopping ≠ .idle := by
  cases step with
  | accept | refuse | post => exact ⟨rfl, started⟩
  | setReadState quitting serves => exact absurd serves started
  | destroy serves => exact absurd serves started

/-- A thread that takes a step is nearer to its end. -/
theorem weight_moved {type : TransferType} {old new : Phase}
    (workers : state.workers = before ++ ⟨type, old⟩ :: after) (less : new.weight < old.weight)
    (queue : LinkedQueue) (sem : TransferType -> Nat) :
    weight { state with
      queue := queue
      sem := sem
      workers := before ++ ⟨type, new⟩ :: after } < state.weight := by
  unfold weight
  rw [workers]
  simp only [List.map_append, List.map_cons, List.sum_append, List.sum_cons, List.length_append,
    List.length_cons]
  omega

/-- Every step of a thread or of the stop brings the end nearer. -/
theorem OwnStep.weight_lt (step : state.OwnStep next) (started : state.stopping ≠ .idle)
    (quitting : state.quitting = true) :
    next.weight < state.weight ∧ next.stopping ≠ .idle := by
  cases step with
  | wake before after type count workers posted =>
      exact ⟨weight_moved workers (by decide) _ _, started⟩
  | look before after type workers =>
      rw [if_pos quitting]
      exact ⟨weight_moved workers (by decide) _ _, started⟩
  | take before after type mfile queue workers result =>
      exact ⟨weight_moved workers (by simp only [Phase.weight]; omega) _ _, started⟩
  | finish before after type mfile workers =>
      exact ⟨weight_moved workers (by simp only [Phase.weight]; omega) _ _, started⟩
  | postStop cur worker stopping here =>
      have inside := (List.getElem?_eq_some_iff.mp here).1
      refine ⟨?_, nofun⟩
      simp only [weight, stopping, Stopping.weight]
      omega
  | posted cur stopping none =>
      refine ⟨?_, nofun⟩
      simp only [weight, stopping, Stopping.weight]
      omega
  | join cur worker stopping here ended =>
      have inside := (List.getElem?_eq_some_iff.mp here).1
      refine ⟨?_, nofun⟩
      simp only [weight, stopping, Stopping.weight]
      omega
  | joined cur stopping none =>
      refine ⟨?_, nofun⟩
      simp only [weight, stopping, Stopping.weight]
      omega

theorem counts_le (type : TransferType) (workers : List Worker) :
    workers.count ⟨type, .woken⟩ + workers.count ⟨type, .ended⟩ +
      workers.count ⟨type, .waiting⟩ ≤ (workers.map Worker.type).count type := by
  induction workers with
  | nil => exact Nat.le_refl 0
  | cons worker workers inductionHypothesis =>
      obtain ⟨kind, phase⟩ := worker
      simp only [List.map_cons, List.count_cons, beq_iff_eq, Worker.mk.injEq]
      by_cases same : kind = type
      · cases phase <;> simp [same] <;> omega
      · simp only [same, false_and, if_false]
        exact inductionHypothesis

/-- A thread that has not returned can take a step once all posts of the stop are made. -/
theorem Pooled.threadGoes (pooled : state.Pooled threads addresses requests)
    (all : state.stopping.posted threads = threads) {worker : Worker}
    (member : worker ∈ state.workers) (going : worker.phase ≠ .ended) :
    Exists fun next => state.OwnStep next := by
  obtain ⟨before, after, workers⟩ := List.append_of_mem member
  obtain ⟨type, phase⟩ := worker
  cases phase with
  | waiting =>
      -- The threads that were woken or have returned do not account for all posts of the stop.
      have posts := pooled.posts type
      have others : state.workers.count ⟨type, .woken⟩ + state.workers.count ⟨type, .ended⟩ +
          state.workers.count ⟨type, .waiting⟩ ≤ threads.count type :=
        pooled.types ▸ counts_le type state.workers
      have here : 0 < state.workers.count ⟨type, .waiting⟩ := List.count_pos_iff.mpr member
      rw [all] at posts
      obtain ⟨count, posted⟩ := Nat.exists_eq_add_one_of_ne_zero
        (show state.sem type ≠ 0 by omega)
      exact ⟨_, .wake before after type count workers posted⟩
  | woken => exact ⟨_, .look before after type workers⟩
  | taking =>
      obtain ⟨file, files, waiting⟩ := pooled.waiting member
      obtain ⟨rest, taken, -⟩ := ServiceState.getNextFileToBack_filesOf waiting
      obtain ⟨after', addresses', returns, -⟩ := pooled.holds.getNextFileToBackLocked taken
      exact ⟨_, .take before after type _ _ workers returns⟩
  | serving mfile => exact ⟨_, .finish before after type mfile workers⟩
  | ended => exact absurd rfl going

/-- The stop does not wait for ever. -/
theorem Pooled.stopGoes (pooled : state.Pooled threads addresses requests)
    (started : state.stopping ≠ .idle) (unfinished : state.stopping ≠ .done) :
    Exists fun next => state.OwnStep next := by
  cases stopping : state.stopping with
  | idle => exact absurd stopping started
  | posting cur =>
      cases here : state.workers[cur]? with
      | none => exact ⟨_, .posted cur stopping here⟩
      | some worker => exact ⟨_, .postStop cur worker stopping here⟩
  | joining cur =>
      cases here : state.workers[cur]? with
      | none => exact ⟨_, .joined cur stopping here⟩
      | some worker =>
          by_cases ended : worker.phase = .ended
          · exact ⟨_, .join cur worker stopping here ended⟩
          · exact pooled.threadGoes (by rw [stopping, Stopping.posted])
              (List.mem_of_getElem? here) ended
  | done => exact absurd stopping unfinished

/-- Steps on the way of a stop that has begun. -/
theorem Went.goes (went : Went state own next) (pooled : state.AllPooled threads)
    (started : state.stopping ≠ .idle) :
    next.AllPooled threads ∧ next.stopping ≠ .idle ∧ own + next.weight ≤ state.weight := by
  induction went with
  | here => exact ⟨pooled, started, Nat.le_of_eq (Nat.zero_add _)⟩
  | caller before step inductionHypothesis =>
      obtain ⟨⟨addresses, requests, pooled⟩, going, less⟩ := inductionHypothesis
      obtain ⟨same, going⟩ := step.weight_eq going
      exact ⟨pooled.callerStep step, going, same ▸ less⟩
  | own before step inductionHypothesis =>
      obtain ⟨⟨addresses, requests, pooled⟩, going, less⟩ := inductionHypothesis
      obtain ⟨nearer, last⟩ := step.weight_lt going (pooled.quitting going)
      exact ⟨pooled.ownStep step, last, by omega⟩

theorem weight_le (started : state.stopping ≠ .idle) :
    state.weight ≤ 6 * state.workers.length + 2 := by
  have threads : (state.workers.map fun worker => worker.phase.weight).sum ≤
      4 * state.workers.length := by
    induction state.workers with
    | nil => exact Nat.le_refl 0
    | cons worker workers inductionHypothesis =>
        have one : worker.phase.weight ≤ 4 := by
          cases worker.phase <;> simp [Phase.weight]
        simp only [List.map_cons, List.sum_cons, List.length_cons]
        omega
  have stop : state.stopping.weight state.workers.length ≤ 2 * state.workers.length + 2 := by
    cases stopping : state.stopping with
    | idle => exact absurd stopping started
    | posting | joining | done => simp only [Stopping.weight]; omega
  unfold weight
  omega

end Progress

/-- A woken thread that goes on always finds a job.  Once the file system is taken down, there is no
way for callers and threads to interleave in which the stop waits for ever: after any steps a thread
or the stop itself can take one, of which there are at most so many, or all threads have returned
and the stop is through. -/
theorem stop_ends (threadsNb : TransferType -> Nat) (state : PoolState)
    (reachable : Reachable (· = startThreads threadsNb) Step state) :
    (forall worker, worker ∈ state.workers -> worker.phase = .taking ->
      Exists fun result => Returns (state.queue.getNextFileToBackLocked · worker.type) result) ∧
    (state.stopping ≠ .idle -> forall own next, Went state own next ->
      own ≤ 6 * state.workers.length + 2 ∧
        ((Exists fun last => next.OwnStep last) ∨
          next.stopping = .done ∧ forall worker, worker ∈ next.workers -> worker.phase = .ended)) := by
  have pooled : state.AllPooled ((startThreads threadsNb).workers.map Worker.type) := by
    refine reachable.ofInvariant ?_ ?_
    · rintro _ rfl
      exact startThreads_pooled threadsNb
    · rintro state next ⟨addresses, requests, pooled⟩ (step | step)
      · exact pooled.callerStep step
      · exact pooled.ownStep step
  constructor
  · rintro ⟨type, phase⟩ member rfl
    obtain ⟨addresses, requests, pooled⟩ := pooled
    obtain ⟨file, files, waiting⟩ := pooled.waiting member
    obtain ⟨rest, taken, -⟩ := ServiceState.getNextFileToBack_filesOf waiting
    obtain ⟨after, others, returns, -⟩ := pooled.holds.getNextFileToBackLocked taken
    exact ⟨_, returns⟩
  · intro started own next went
    obtain ⟨⟨addresses, requests, pooled⟩, going, less⟩ := went.goes pooled started
    have few := weight_le started
    refine ⟨by omega, ?_⟩
    by_cases through : next.stopping = .done
    · refine Or.inr ⟨through, fun worker member => pooled.joined worker ?_⟩
      rw [through, Stopping.joined, ← pooled.types, List.length_map, List.take_length]
      exact member
    · exact Or.inl (pooled.stopGoes going through)

/-- A thread that was woken for a job returns when the file system is taken down. -/
theorem stop_ends_woken : Exists fun state => Exists fun next =>
    Reachable (· = startThreads fun _ => 1) Step state ∧ Went state 1 next ∧
      next.workers = [⟨.backup, .ended⟩, ⟨.writeback, .waiting⟩, ⟨.metadata, .waiting⟩] ∧
      Exists fun last => next.OwnStep last := by
  have empty : (startThreads fun _ => 1).queue.Holds [] [] := ⟨.nil 0, rfl, rfl⟩
  obtain ⟨queue, -, returns, -⟩ := empty.queueFile 7 .backup rfl (Nat.succ_ne_zero 0)
  have initial : Reachable (· = startThreads fun _ => 1) Step (startThreads fun _ => 1) :=
    .start rfl
  have accepted := initial.step
    (.inl (.accept 1 7 .backup queue rfl (Nat.succ_ne_zero 0) returns))
  have posted := accepted.step (.inl (.post [] [] .backup rfl))
  have woken := posted.step
    (.inr (.wake [] [⟨.writeback, .waiting⟩, ⟨.metadata, .waiting⟩] .backup 0 rfl rfl))
  have destroyed := woken.step (.inl (.destroy rfl))
  have looks : OwnStep { (startThreads fun _ => 1) with
      queue := queue
      sem := fun _ => 0
      quitting := true
      workers := [⟨.backup, .woken⟩, ⟨.writeback, .waiting⟩, ⟨.metadata, .waiting⟩]
      stopping := .posting 0 } _ :=
    .look [] [⟨.writeback, .waiting⟩, ⟨.metadata, .waiting⟩] .backup rfl
  simp only [startThreads, Function.update_idem, zero_add, Function.update_eq_self,
    List.nil_append] at destroyed
  have went := (Went.here _).own looks
  have ends := ((stop_ends _ _ destroyed).2 nofun 1 _ went).2
  exact ⟨_, _, destroyed, went, rfl, ends.resolve_right fun through => nomatch through.1⟩

end PoolState

end Transfer
end Mcachefs
