import Mcachefs.Transfer.LinkedQueue

namespace Mcachefs
namespace Transfer

open Library Journal

/-!
# Callers and threads around the transfer queue

Any number of callers queue files, and any number of threads serve them.  Each
critical section under the transfer lock is one step; posting a semaphore and
passing it are steps of their own, outside the lock.  What a caller or a thread
has in hand between two steps is part of the state, and so are two logs: the
jobs that were accepted and the jobs that were handed out, in this order.

The model covers the states other than `QUITTING`, in which
`mcachefs_transfer_stop_threads` posts semaphores without jobs.
-/

/-- A thread of `mcachefs_transfer_threads`. -/
structure Thread where
  threadid : Nat
  type : TransferType
  deriving DecidableEq, Repr

structure ServiceState where
  queue : LinkedQueue
  sem : TransferType -> Nat
  /-- Callers that have queued a job of this type and have yet to post. -/
  posting : List TransferType
  /-- Threads that have passed their semaphore and have yet to take a job. -/
  woken : List Thread
  /-- Jobs accepted with the result 0. -/
  accepted : List Request
  /-- Jobs handed out, with the thread that got each. -/
  handed : List (Thread × Fh)

namespace ServiceState

/-- After `mcachefs_transfer_start_threads`. -/
def init : ServiceState where
  queue := ⟨fun _ => none, 0, 0⟩
  sem := fun _ => 0
  posting := []
  woken := []
  accepted := []
  handed := []

/-- One step of a caller or a thread. -/
inductive Step (state : ServiceState) : ServiceState -> Prop
  /-- A caller queues a file; `transfer` is the address from `malloc`. -/
  | accept (transfer : Nat) (mfile : Fh) (type : TransferType) (queue : LinkedQueue)
      (unused : state.queue.nodes transfer = none) (notNull : transfer ≠ 0)
      (result : Returns (state.queue.queueFile · transfer mfile type) (0, queue)) :
      Step state { state with
        queue := queue
        posting := type :: state.posting
        accepted := state.accepted ++ [⟨mfile, type⟩] }
  /-- The file is in the queue already. -/
  | refuse (transfer : Nat) (mfile : Fh) (type : TransferType) (res : Int)
      (queue : LinkedQueue) (unused : state.queue.nodes transfer = none) (notNull : transfer ≠ 0)
      (refused : res ≠ 0)
      (result : Returns (state.queue.queueFile · transfer mfile type) (res, queue)) :
      Step state { state with queue := queue }
  /-- `sem_post`, after the lock was given back. -/
  | post (before after : List TransferType) (type : TransferType)
      (posting : state.posting = before ++ type :: after) :
      Step state { state with
        sem := Function.update state.sem type (state.sem type + 1)
        posting := before ++ after }
  /-- `sem_wait` returns. -/
  | wake (thread : Thread) (count : Nat) (posted : state.sem thread.type = count + 1) :
      Step state { state with
        sem := Function.update state.sem thread.type count
        woken := thread :: state.woken }
  /-- A woken thread takes a job. -/
  | take (before after : List Thread) (thread : Thread) (mfile : Fh)
      (queue : LinkedQueue) (woken : state.woken = before ++ thread :: after)
      (result : Returns (state.queue.getNextFileToBackLocked · thread.type) (mfile, queue)) :
      Step state { state with
        queue := queue
        woken := before ++ after
        handed := state.handed ++ [(thread, mfile)] }

/-- The files of the jobs of one type, in order. -/
def filesOf (type : TransferType) (requests : List Request) : List Fh :=
  (requests.filter fun request => request.type = type).map Request.mfile

/-- The files handed to the threads of one type, in order. -/
def handedTo (type : TransferType) (state : ServiceState) : List Fh :=
  (state.handed.filter fun job => job.1.type = type).map Prod.snd

/-- The soundness of the queue: it is one list without a file twice, the jobs
of each type leave it in the order in which they were accepted and go to
threads of that type, and both functions return for every caller. -/
structure Sound (state : ServiceState) : Prop where
  list : Exists fun addresses => Exists fun requests =>
    state.queue.Holds addresses requests ∧
      (requests.map Request.mfile).Nodup ∧
        forall type, filesOf type state.accepted = state.handedTo type ++ filesOf type requests
  ends : state.queue.head = 0 ↔ state.queue.tail = 0
  asks : forall transfer mfile type, state.queue.nodes transfer = none -> transfer ≠ 0 ->
    Exists fun result => Returns (state.queue.queueFile · transfer mfile type) result
  takes : forall thread, thread ∈ state.woken ->
    Exists fun result => Returns (state.queue.getNextFileToBackLocked · thread.type) result

/-! ## The invariant -/

/-- Every job in the queue is counted: by its semaphore, by the caller that
will post it, or by the thread that will take it. -/
structure Counted (state : ServiceState) (addresses : List Nat) (requests : Queue) : Prop where
  holds : state.queue.Holds addresses requests
  nodup : (requests.map Request.mfile).Nodup
  served : forall type, filesOf type state.accepted = state.handedTo type ++ filesOf type requests
  counts : forall type, (filesOf type requests).length =
    state.sem type + state.posting.count type +
      state.woken.countP fun thread => thread.type = type

/-- The invariant of the queue service. -/
def AllCounted (state : ServiceState) : Prop :=
  Exists fun addresses => Exists fun requests => state.Counted addresses requests

theorem counted_init : Counted init [] [] where
  holds := ⟨.nil 0, rfl, rfl⟩
  nodup := List.nodup_nil
  served := fun _ => rfl
  counts := fun _ => rfl

theorem filesOf_append (type : TransferType) (first second : List Request) :
    filesOf type (first ++ second) = filesOf type first ++ filesOf type second := by
  simp [filesOf]

theorem filesOf_cons (type : TransferType) (request : Request) (requests : List Request) :
    filesOf type (request :: requests) =
      if request.type = type then request.mfile :: filesOf type requests
      else filesOf type requests := by
  by_cases same : request.type = type <;> simp [filesOf, same]

/-- The job of a type that the queue gives out is the first one of that type. -/
theorem getNextFileToBack_filesOf {type : TransferType} {requests : Queue} {file : Fh}
    {files : List Fh} (waiting : filesOf type requests = file :: files) :
    Exists fun rest =>
      getNextFileToBack type requests = some (⟨file, type⟩, rest) ∧ rest.Sublist requests ∧
        filesOf type rest = files ∧
        forall other, other ≠ type -> filesOf other rest = filesOf other requests := by
  induction requests with
  | nil => cases waiting
  | cons request requests inductionHypothesis =>
      rw [filesOf_cons] at waiting
      by_cases same : request.type = type
      · rw [if_pos same] at waiting
        obtain ⟨rfl, rfl⟩ := List.cons.inj waiting
        refine ⟨requests, ?_, List.sublist_cons_self _ _, rfl, fun other apart => ?_⟩
        · rw [getNextFileToBack, if_pos same, ← same]
        · rw [filesOf_cons, if_neg fun equal => apart (equal.symm.trans same)]
      · rw [if_neg same] at waiting
        obtain ⟨rest, found, sublist, here, others⟩ := inductionHypothesis waiting
        refine ⟨request :: rest, ?_, sublist.cons_cons request, ?_, fun other apart => ?_⟩
        · rw [getNextFileToBack, if_neg same, found]
          rfl
        · rw [filesOf_cons, if_neg same, here]
        · rw [filesOf_cons, filesOf_cons, others other apart]

section Steps

variable {state next : ServiceState} {addresses : List Nat} {requests : Queue}

/-- A woken thread finds a job of its type. -/
theorem Counted.waiting (counted : state.Counted addresses requests) {thread : Thread}
    (woken : thread ∈ state.woken) :
    Exists fun file => Exists fun files => filesOf thread.type requests = file :: files := by
  have positive : 0 < state.woken.countP fun other => other.type = thread.type :=
    List.countP_pos_iff.mpr ⟨thread, woken, by simp⟩
  have counts := counted.counts thread.type
  exact List.exists_cons_of_length_pos (by omega)

theorem Counted.sound (counted : state.Counted addresses requests) : state.Sound where
  list := ⟨addresses, requests, counted.holds, counted.nodup, counted.served⟩
  ends := counted.holds.tail_zero_iff.symm
  asks := by
    intro transfer mfile type unused notNull
    obtain ⟨after, -, returns, -⟩ := counted.holds.queueFile mfile type unused notNull
    exact ⟨_, returns⟩
  takes := by
    intro thread woken
    obtain ⟨file, files, waiting⟩ := counted.waiting woken
    obtain ⟨rest, taken, -⟩ := getNextFileToBack_filesOf waiting
    obtain ⟨after, -, returns, -⟩ := counted.holds.getNextFileToBackLocked taken
    exact ⟨_, returns⟩

/-- One step keeps every job counted. -/
theorem Counted.step (counted : state.Counted addresses requests) (step : state.Step next) :
    next.AllCounted := by
  cases step with
  | accept transfer mfile type queue unused notNull result =>
      obtain ⟨after, others, returns, holds⟩ := counted.holds.queueFile mfile type unused notNull
      obtain ⟨accepted, rfl⟩ := Prod.mk.inj (returns.unique result)
      have fresh : ¬ (requests.any fun request => request.mfile = mfile) = true := by
        intro already
        simp [queueFile, already, EEXIST] at accepted
      rw [queueFile, if_neg fresh] at holds
      refine ⟨others, _, holds, ?_, fun other => ?_, fun other => ?_⟩
      · have apart : mfile ∉ requests.map Request.mfile := by simpa using fresh
        rw [List.map_append]
        exact counted.nodup.append (List.nodup_singleton _)
          (List.disjoint_singleton.mpr apart)
      · have served := counted.served other
        simp only [filesOf_append, served, List.append_assoc]
        rfl
      · have counts := counted.counts other
        by_cases same : type = other
        · subst same
          simp only [filesOf_append, filesOf_cons, if_pos, List.length_append, counts,
            List.count_cons_self]
          simp [filesOf]
          omega
        · simp only [filesOf_append, filesOf_cons, if_neg same, List.length_append, counts,
            List.count_cons_of_ne same]
          simp [filesOf]
  | refuse transfer mfile type res queue unused notNull refused result =>
      obtain ⟨after, others, returns, holds⟩ := counted.holds.queueFile mfile type unused notNull
      obtain ⟨same, rfl⟩ := Prod.mk.inj (returns.unique result)
      have already : (requests.any fun request => request.mfile = mfile) = true := by
        by_contra fresh
        rw [queueFile, if_neg fresh] at same
        exact refused same.symm
      rw [queueFile, if_pos already] at holds
      exact ⟨others, requests, holds, counted.nodup, counted.served, counted.counts⟩
  | post before after type posting =>
      refine ⟨addresses, requests, counted.holds, counted.nodup, counted.served,
        fun other => ?_⟩
      have counts := counted.counts other
      rw [posting] at counts
      by_cases same : type = other
      · subst same
        simp only [List.count_append, List.count_cons_self] at counts
        simp only [List.count_append, Function.update_self]
        omega
      · simp only [List.count_append, List.count_cons_of_ne same] at counts
        simp only [List.count_append, Function.update_of_ne (Ne.symm same)]
        omega
  | wake thread count posted =>
      refine ⟨addresses, requests, counted.holds, counted.nodup, counted.served,
        fun other => ?_⟩
      have counts := counted.counts other
      by_cases same : thread.type = other
      · subst same
        simp only [Function.update_self, List.countP_cons, decide_true, if_true]
        omega
      · simp only [Function.update_of_ne (Ne.symm same), List.countP_cons, same, decide_false]
        simpa using counts
  | take before after thread mfile queue woken result =>
      have member : thread ∈ state.woken := woken ▸ by simp
      obtain ⟨file, files, waiting⟩ := counted.waiting member
      obtain ⟨rest, taken, sublist, here, others⟩ := getNextFileToBack_filesOf waiting
      obtain ⟨after', addresses', returns, holds⟩ := counted.holds.getNextFileToBackLocked taken
      obtain ⟨rfl, rfl⟩ := Prod.mk.inj (returns.unique result)
      refine ⟨addresses', rest, holds, counted.nodup.sublist (sublist.map _), fun other => ?_,
        fun other => ?_⟩
      · have served := counted.served other
        by_cases same : thread.type = other
        · subst same
          rw [waiting] at served
          simp only [served, handedTo, List.filter_append, List.map_append, here]
          simp
        · rw [← others other (Ne.symm same)] at served
          simp only [served, handedTo, List.filter_append, List.map_append]
          simp [same]
      · have counts := counted.counts other
        rw [woken] at counts
        by_cases same : thread.type = other
        · subst same
          rw [waiting] at counts
          simp only [List.countP_append, List.countP_cons, List.length_cons, decide_true,
            if_true] at counts
          simp only [List.countP_append, here]
          omega
        · rw [others other (Ne.symm same), counts]
          simp [List.countP_append, same]

end Steps

/-- In every state that callers and threads can reach, the queue is sound. -/
theorem queue_sound (state : ServiceState)
    (reachable : Reachable (· = init) Step state) : state.Sound := by
  have counted : state.AllCounted := by
    refine reachable.ofInvariant ?_ ?_
    · rintro _ rfl
      exact ⟨[], [], counted_init⟩
    · rintro state next ⟨addresses, requests, counted⟩ step
      exact counted.step step
  obtain ⟨addresses, requests, counted⟩ := counted
  exact counted.sound

/-- A caller queues a file and posts, and a thread passes its semaphore. -/
theorem queue_sound_woken : Exists fun state => Reachable (· = init) Step state ∧
    state.woken = [⟨0, .backup⟩] ∧ state.Sound := by
  have unused : init.queue.nodes 1 = none := rfl
  obtain ⟨queue, -, returns, -⟩ := counted_init.holds.queueFile 7 .backup unused (by decide)
  have initial : Reachable (· = init) Step init := .start rfl
  have accepted := initial.step (.accept 1 7 .backup queue unused (by decide) returns)
  have posted := accepted.step (.post [] [] .backup rfl)
  have woken := posted.step (.wake ⟨0, .backup⟩ 0 rfl)
  exact ⟨_, woken, rfl, queue_sound _ woken⟩

end ServiceState

end Transfer
end Mcachefs
