import Mcachefs.Library.LinkedList
import Mcachefs.Library.Runs
import Mcachefs.Transfer.Queue

namespace Mcachefs
namespace Transfer

open Library Journal

/-!
# The transfer queue in memory

The queue of `Transfer.Queue` is a singly linked list between two global
pointers, and one semaphore for each type counts its requests.  The list is
only touched under the transfer lock, but a caller of
`mcachefs_transfer_queue_file` posts the semaphore after it has given the lock
back, and a thread that has passed its semaphore has yet to take the lock.  The
count and the list therefore agree only up to the callers and threads on the
way.
-/

/-- `struct mcachefs_transfer_queue_t`. -/
structure Node where
  type : TransferType
  mfile : Fh
  next : Nat
  deriving DecidableEq, Repr

/-- The allocated nodes and the two global pointers; `0` is `NULL`. -/
structure LinkedQueue where
  nodes : Nat -> Option Node
  head : Nat
  tail : Nat

/-- The calls of `Bug`, the use of an address that holds no node, and the end
of the fuel of a loop that goes on. -/
inductive QueueFault
  | nullHead
  | noTransferOfType
  | tailMismatch
  | badAddress
  | fuel
  deriving DecidableEq, Repr

namespace LinkedQueue

/-- The node at an address. -/
def get (queue : LinkedQueue) (address : Nat) : Except QueueFault Node :=
  match queue.nodes address with
  | some node => .ok node
  | none => .error .badAddress

/-- Write one node. -/
def set (queue : LinkedQueue) (address : Nat) (node : Option Node) : LinkedQueue :=
  { queue with nodes := Function.update queue.nodes address node }

/-- The loop of `mcachefs_transfer_queue_file` that looks for the file. -/
def isQueued (queue : LinkedQueue) (mfile : Fh) : (fuel transfer : Nat) -> Except QueueFault Bool
  | 0, _ => .error .fuel
  | fuel + 1, transfer =>
      if transfer = 0 then .ok false
      else do
        let node ← queue.get transfer
        if node.mfile = mfile then .ok true else isQueued queue mfile fuel node.next

/-- `mcachefs_transfer_queue_file` up to the release of the lock; `malloc`
returns the address `transfer`. -/
def queueFile (fuel transfer : Nat) (mfile : Fh) (type : TransferType) (queue : LinkedQueue) :
    Except QueueFault (Int × LinkedQueue) := do
  if ← queue.isQueued mfile fuel queue.head then .ok (-EEXIST, queue)
  else
    let queue := queue.set transfer (some ⟨type, mfile, 0⟩)
    if queue.tail ≠ 0 then
      let last ← queue.get queue.tail
      let queue := queue.set queue.tail (some { last with next := transfer })
      .ok (0, { queue with tail := transfer })
    else .ok (0, { queue with head := transfer, tail := transfer })

/-- The loop of `mcachefs_transfer_get_next_file_to_back_locked`: the first
request of the type, or null, and the one before it. -/
def search (queue : LinkedQueue) (type : TransferType) :
    (fuel last transfer : Nat) -> Except QueueFault (Nat × Nat)
  | 0, _, _ => .error .fuel
  | fuel + 1, last, transfer =>
      if transfer = 0 then .ok (last, 0)
      else do
        let node ← queue.get transfer
        if node.type = type then .ok (last, transfer)
        else search queue type fuel transfer node.next

/-- `mcachefs_transfer_get_next_file_to_back_locked`. -/
def getNextFileToBackLocked (fuel : Nat) (type : TransferType) (queue : LinkedQueue) :
    Except QueueFault (Fh × LinkedQueue) :=
  if queue.head = 0 then .error .nullHead
  else do
    let (last, transfer) ← queue.search type fuel 0 queue.head
    if transfer = 0 then .error .noTransferOfType
    else
      let node ← queue.get transfer
      if last ≠ 0 then
        let previous ← queue.get last
        let queue := queue.set last (some { previous with next := node.next })
        if node.next = 0 then
          if queue.tail ≠ transfer then .error .tailMismatch
          else .ok (node.mfile, { queue with tail := last }.set transfer none)
        else .ok (node.mfile, queue.set transfer none)
      else
        let queue := { queue with head := node.next }
        if node.next = 0 then
          if queue.tail ≠ transfer then .error .tailMismatch
          else .ok (node.mfile, { queue with tail := 0 }.set transfer none)
        else .ok (node.mfile, queue.set transfer none)

/-! ## The list in memory -/

/-- The link of a node. -/
def next (queue : LinkedQueue) (address : Nat) : Nat :=
  ((queue.nodes address).map Node.next).getD 0

/-- The request that a node holds. -/
def request (queue : LinkedQueue) (address : Nat) : Option Request :=
  (queue.nodes address).map fun node => ⟨node.mfile, node.type⟩

/-- The list from head to tail is at `addresses` and holds `requests`. -/
structure Holds (queue : LinkedQueue) (addresses : List Nat) (requests : Queue) : Prop where
  list : Segment queue.next queue.head addresses 0
  tail : queue.tail = addresses.getLastD 0
  contents : addresses.map queue.request = requests.map some

section Links

variable {queue : LinkedQueue} {address : Nat} {node : Node}

theorem get_of_request {request : Request} (holds : queue.request address = some request) :
    queue.get address = .ok ⟨request.type, request.mfile, queue.next address⟩ := by
  obtain ⟨node, allocated, rfl⟩ := Option.map_eq_some_iff.mp holds
  simp [get, next, allocated]

theorem next_set (queue : LinkedQueue) (address : Nat) (node : Node) :
    (queue.set address (some node)).next = Function.update queue.next address node.next := by
  funext other
  by_cases same : other = address
  · subst same
    simp [next, set]
  · simp [next, set, same]

theorem request_set (queue : LinkedQueue) (address : Nat) (node : Node) :
    (queue.set address (some node)).request =
      Function.update queue.request address (some ⟨node.mfile, node.type⟩) := by
  funext other
  by_cases same : other = address
  · subst same
    simp [request, set]
  · simp [request, set, same]

theorem next_free (other : Nat) (apart : other ≠ address) :
    (queue.set address none).next other = queue.next other := by
  simp [next, set, apart]

theorem request_free (other : Nat) (apart : other ≠ address) :
    (queue.set address none).request other = queue.request other := by
  simp [request, set, apart]

/-- Writing a link back leaves the request of the node. -/
theorem request_relink {request : Request} (holds : queue.request address = some request)
    (link : Nat) :
    (queue.set address (some ⟨request.type, request.mfile, link⟩)).request = queue.request := by
  rw [request_set, ← holds]
  exact Function.update_eq_self address _

end Links

/-! ## The two functions on the list -/

section Refinement

variable {queue : LinkedQueue} {fuel first : Nat} {addresses : List Nat} {requests : Queue}
  {type : TransferType}

theorem isQueued_eq (mfile : Fh) (list : Segment queue.next first addresses 0)
    (contents : addresses.map queue.request = requests.map some)
    (enough : addresses.length < fuel) :
    queue.isQueued mfile fuel first =
      .ok (requests.any fun request => request.mfile = mfile) := by
  induction addresses generalizing fuel first requests with
  | nil =>
      obtain rfl : requests = [] := by simpa using contents.symm
      obtain ⟨fuel, rfl⟩ := Nat.exists_eq_add_one_of_ne_zero (by omega : fuel ≠ 0)
      rw [isQueued, if_pos list.nil_inv]
      rfl
  | cons address addresses inductionHypothesis =>
      obtain ⟨rfl, notNull, rest⟩ := list.cons_inv
      obtain ⟨request, requests, rfl⟩ : Exists fun request => Exists fun others =>
          requests = request :: others := by
        cases requests with
        | nil => cases contents
        | cons request requests => exact ⟨request, requests, rfl⟩
      obtain ⟨here, later⟩ := List.cons.inj contents
      obtain ⟨fuel, rfl⟩ := Nat.exists_eq_add_one_of_ne_zero (by omega : fuel ≠ 0)
      have further := @inductionHypothesis fuel _ _ rest later (by simpa using enough)
      rw [isQueued, if_neg notNull, get_of_request here]
      by_cases same : request.mfile = mfile
      · simp [bind, Except.bind, same]
      · simp [bind, Except.bind, same, further]

/-- The search stops at the request that the queue without links gives out. -/
theorem search_eq {request : Request} {rest : Queue} (last : Nat)
    (list : Segment queue.next first addresses 0)
    (contents : addresses.map queue.request = requests.map some)
    (taken : getNextFileToBack type requests = some (request, rest)) :
    Exists fun before => Exists fun address => Exists fun after =>
      addresses = before ++ address :: after ∧
        (forall fuel, addresses.length < fuel ->
          queue.search type fuel last first = .ok (before.getLastD last, address)) ∧
        queue.request address = some request ∧
        (before ++ after).map queue.request = rest.map some := by
  induction addresses generalizing first requests rest last with
  | nil =>
      obtain rfl : requests = [] := by simpa using contents.symm
      cases taken
  | cons address addresses inductionHypothesis =>
      obtain ⟨rfl, notNull, links⟩ := list.cons_inv
      obtain ⟨head, requests, rfl⟩ : Exists fun head => Exists fun others =>
          requests = head :: others := by
        cases requests with
        | nil => cases contents
        | cons request requests => exact ⟨request, requests, rfl⟩
      obtain ⟨here, later⟩ := List.cons.inj contents
      have step : forall fuel, queue.search type (fuel + 1) last first =
          if head.type = type then .ok (last, first)
          else queue.search type fuel first (queue.next first) := by
        intro fuel
        rw [search, if_neg notNull, get_of_request here]
        rfl
      rw [getNextFileToBack] at taken
      by_cases same : head.type = type
      · rw [if_pos same] at taken
        cases taken
        refine ⟨[], first, addresses, rfl, fun fuel enough => ?_, here, later⟩
        obtain ⟨fuel, rfl⟩ := Nat.exists_eq_add_one_of_ne_zero (Nat.ne_zero_of_lt enough)
        rw [step, if_pos same]
        rfl
      · rw [if_neg same] at taken
        obtain ⟨⟨next, others⟩, found, equal⟩ := Option.map_eq_some_iff.mp taken
        cases equal
        obtain ⟨before, address, after, rfl, result, holds, remains⟩ :=
          inductionHypothesis first links later found
        refine ⟨first :: before, address, after, rfl, fun fuel enough => ?_, holds, ?_⟩
        · obtain ⟨fuel, rfl⟩ := Nat.exists_eq_add_one_of_ne_zero (Nat.ne_zero_of_lt enough)
          rw [step, if_neg same, result fuel (by simpa using enough), List.getLastD_cons]
        · simp only [List.cons_append, List.map_cons, here, remains]

namespace Holds

theorem tail_zero_iff (holds : queue.Holds addresses requests) :
    queue.tail = 0 ↔ queue.head = 0 := by
  rw [holds.list.head_zero_iff, holds.tail]
  rcases List.eq_nil_or_concat' addresses with rfl | ⟨before, last, rfl⟩
  · simp
  · have notNull := holds.list.ne_zero (List.mem_append_right before List.mem_cons_self)
    simpa using notNull

/-- Every address of the list holds one of the requests. -/
theorem request_of_mem (holds : queue.Holds addresses requests) {address : Nat}
    (member : address ∈ addresses) :
    Exists fun request => queue.request address = some request := by
  have inside : queue.request address ∈ requests.map some :=
    holds.contents ▸ List.mem_map_of_mem member
  obtain ⟨request, -, equal⟩ := List.mem_map.mp inside
  exact ⟨request, equal.symm⟩

/-- An address that `malloc` can return is not in the list. -/
theorem fresh (holds : queue.Holds addresses requests) {transfer : Nat}
    (unused : queue.nodes transfer = none) : transfer ∉ addresses := by
  intro member
  obtain ⟨request, held⟩ := holds.request_of_mem member
  simp [LinkedQueue.request, unused] at held

/-- Giving back a node that is not in the list. -/
theorem free (holds : queue.Holds addresses requests) {address : Nat}
    (apart : address ∉ addresses) : (queue.set address none).Holds addresses requests := by
  refine ⟨holds.list.congr fun id member => next_free id (ne_of_mem_of_not_mem member apart),
    holds.tail, ?_⟩
  rw [← holds.contents]
  exact List.map_congr_left fun id member => request_free id (ne_of_mem_of_not_mem member apart)

/-- `mcachefs_transfer_queue_file` does to the list what the function of the
same name does to the queue, and reaches no fault. -/
theorem queueFile (holds : queue.Holds addresses requests) {transfer : Nat} (mfile : Fh)
    (type : TransferType) (unused : queue.nodes transfer = none) (notNull : transfer ≠ 0) :
    Exists fun after => Exists fun others =>
      Returns (queue.queueFile · transfer mfile type)
          ((Transfer.queueFile mfile type requests).1, after) ∧
        after.Holds others (Transfer.queueFile mfile type requests).2 := by
  have asked : forall fuel, addresses.length < fuel -> queue.isQueued mfile fuel queue.head =
      .ok (requests.any fun request => request.mfile = mfile) :=
    fun fuel enough => isQueued_eq mfile holds.list holds.contents enough
  unfold LinkedQueue.queueFile Transfer.queueFile
  by_cases already : (requests.any fun request => request.mfile = mfile) = true
  · refine ⟨queue, addresses, ⟨addresses.length + 1, fun fuel enough => ?_⟩, ?_⟩
    · beta_reduce
      rw [asked fuel enough]
      simp only [bind, Except.bind, already, if_true]
    · rw [if_pos already]
      exact holds
  · rw [if_neg already]
    have fresh := holds.fresh unused
    rcases List.eq_nil_or_concat' addresses with rfl | ⟨before, last, rfl⟩
    · have empty : queue.tail = 0 := holds.tail
      obtain rfl : requests = [] := by simpa using holds.contents.symm
      refine ⟨{ queue.set transfer (some ⟨type, mfile, 0⟩) with
          head := transfer, tail := transfer }, [transfer], ⟨1, fun fuel enough => ?_⟩,
        ?_, rfl, ?_⟩
      · beta_reduce
        rw [asked fuel enough]
        simp [bind, Except.bind, set, empty]
      · refine .cons notNull ?_
        have link := congrFun (next_set queue transfer ⟨type, mfile, 0⟩) transfer
        rw [Function.update_self] at link
        exact link ▸ .nil 0
      · have held := congrFun (request_set queue transfer ⟨type, mfile, 0⟩) transfer
        rw [Function.update_self] at held
        exact congrArg (fun entry => [entry]) held
    · have tail : queue.tail = last := by rw [holds.tail]; simp
      have lastSome := holds.list.ne_zero (List.mem_append_right before List.mem_cons_self)
      have apart : last ≠ transfer := fun equal => fresh (by simp [equal])
      -- The last node keeps its request and gets its link.
      obtain ⟨final, finalHeld⟩ := holds.request_of_mem
        (List.mem_append_right before List.mem_cons_self)
      have written := queue.request_set transfer ⟨type, mfile, 0⟩
      have finalKept : (queue.set transfer (some ⟨type, mfile, 0⟩)).request last =
          some final := by
        rw [written, Function.update_of_ne apart, finalHeld]
      refine ⟨{ (queue.set transfer (some ⟨type, mfile, 0⟩)).set last
          (some ⟨final.type, final.mfile, transfer⟩) with tail := transfer },
        before ++ [last, transfer], ⟨(before ++ [last]).length + 1, fun fuel enough => ?_⟩, ?_, ?_, ?_⟩
      · have tailKept : (queue.set transfer (some ⟨type, mfile, 0⟩)).tail = last := tail
        beta_reduce
        rw [asked fuel enough]
        simp only [bind, Except.bind, Bool.not_eq_true _ ▸ already, tailKept, lastSome, ne_eq,
          not_false_iff, if_true, get_of_request finalKept]
        rfl
      · have links := holds.list.concat notNull fresh
        refine links.congr fun id _ => ?_
        change ((queue.set transfer (some ⟨type, mfile, 0⟩)).set last
          (some ⟨final.type, final.mfile, transfer⟩)).next id = _
        rw [next_set, next_set]
      · simp
      · have kept := request_relink finalKept transfer
        change (before ++ [last, transfer]).map ((queue.set transfer (some ⟨type, mfile, 0⟩)).set
          last (some ⟨final.type, final.mfile, transfer⟩)).request = _
        rw [kept, written]
        have earlier : (before ++ [last]).map
            (Function.update queue.request transfer (some ⟨mfile, type⟩)) =
              requests.map some := by
          rw [← holds.contents]
          refine List.map_congr_left fun id member => ?_
          exact Function.update_of_ne (ne_of_mem_of_not_mem member fresh) _ _
        have snoc : before ++ [last, transfer] = (before ++ [last]) ++ [transfer] := by simp
        rw [snoc, List.map_append, earlier, List.map_append]
        simp

/-- `mcachefs_transfer_get_next_file_to_back_locked` takes the request that the
queue without links gives out, and reaches no fault. -/
theorem getNextFileToBackLocked (holds : queue.Holds addresses requests) {request : Request}
    {rest : Queue} (taken : getNextFileToBack type requests = some (request, rest)) :
    Exists fun after => Exists fun others =>
      Returns (queue.getNextFileToBackLocked · type) (request.mfile, after) ∧
        after.Holds others rest := by
  obtain ⟨before, address, after, rfl, found, held, remains⟩ :=
    search_eq 0 holds.list holds.contents taken
  have notNull := holds.list.ne_zero (List.mem_append_right before List.mem_cons_self)
  have headSome : queue.head ≠ 0 := by
    rw [ne_eq, holds.list.head_zero_iff]
    simp
  have link : queue.next address = after.headD 0 := holds.list.next_eq
  have nodup := holds.list.nodup
  have node := get_of_request held
  have apart : address ∉ before ++ after := fun member =>
    (List.nodup_cons.mp (List.nodup_middle.mp nodup)).1 member
  unfold LinkedQueue.getNextFileToBackLocked
  simp only [if_neg headSome]
  rcases List.eq_nil_or_concat' before with rfl | ⟨before, last, rfl⟩
  · obtain ⟨same, -, links⟩ := holds.list.cons_inv
    rw [link] at links node
    cases after with
    | nil =>
        have tail : queue.tail = address := holds.tail
        have emptied : ({ queue with head := 0, tail := 0 } : LinkedQueue).Holds [] rest :=
          ⟨.nil 0, rfl, remains⟩
        refine ⟨_, [], ⟨2, fun fuel enough => ?_⟩, emptied.free apart⟩
        simp only [found fuel enough]
        simp [bind, Except.bind, notNull, node, tail]
    | cons follower after =>
        have followerSome : follower ≠ 0 := links.cons_inv.2.1
        have shortened : ({ queue with head := follower } : LinkedQueue).Holds
            (follower :: after) rest := by
          refine ⟨links, ?_, remains⟩
          change queue.tail = _
          rw [holds.tail]
          simp
        refine ⟨_, follower :: after, ⟨(address :: follower :: after).length + 1,
          fun fuel enough => ?_⟩, shortened.free apart⟩
        simp only [found fuel enough]
        simp [bind, Except.bind, notNull, node, followerSome]
  · have lastSome := holds.list.ne_zero
      (List.mem_append_left (address :: after) (List.mem_append_right before List.mem_cons_self))
    obtain ⟨previous, previousHeld⟩ := holds.request_of_mem
      (List.mem_append_left (address :: after) (List.mem_append_right before List.mem_cons_self))
    have previousNode := get_of_request previousHeld
    have kept := request_relink previousHeld (after.headD 0)
    have unlinked : Segment
        (queue.set last (some ⟨previous.type, previous.mfile, after.headD 0⟩)).next queue.head
        (before ++ last :: after) 0 := by
      have list := holds.list
      rw [List.append_assoc] at list
      rw [next_set, ← link]
      exact list.unlink
    rw [link] at node
    cases after with
    | nil =>
        have tail : queue.tail = address := by rw [holds.tail]; simp
        have shortened : ({ queue.set last (some ⟨previous.type, previous.mfile, 0⟩) with
            tail := last } : LinkedQueue).Holds (before ++ [last]) rest := by
          refine ⟨unlinked, by simp, ?_⟩
          rw [← remains, List.append_nil]
          exact congrArg (List.map · (before ++ [last])) kept
        refine ⟨_, before ++ [last],
          ⟨((before ++ [last]) ++ [address]).length + 1, fun fuel enough => ?_⟩,
          shortened.free (by simpa using apart)⟩
        simp only [found fuel enough]
        simp [bind, Except.bind, notNull, node, lastSome, previousNode, tail, set]
    | cons follower after =>
        have followerSome : follower ≠ 0 := holds.list.ne_zero (by simp)
        have shortened : (queue.set last
            (some ⟨previous.type, previous.mfile, follower⟩)).Holds
            (before ++ last :: follower :: after) rest := by
          refine ⟨unlinked, ?_, ?_⟩
          · change queue.tail = _
            rw [holds.tail]
            simp
          · rw [← remains, List.append_assoc]
            exact congrArg (List.map · (before ++ last :: follower :: after)) kept
        refine ⟨_, before ++ last :: follower :: after,
          ⟨((before ++ [last]) ++ address :: follower :: after).length + 1, fun fuel enough => ?_⟩,
          shortened.free (by simpa using apart)⟩
        simp only [found fuel enough]
        simp [bind, Except.bind, notNull, node, lastSome, previousNode, followerSome]

end Holds

end Refinement

end LinkedQueue

end Transfer
end Mcachefs
