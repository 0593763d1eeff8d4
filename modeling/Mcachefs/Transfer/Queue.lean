import Mcachefs.Journal.Apply

namespace Mcachefs
namespace Transfer

open Journal

/-!
# The transfer queue

One linked list holds the requests of all kinds, and a file has at most one
request in it.  A thread serves one kind: it takes the first request of that
kind, wherever it stands in the list.  Files are known by their handle.
-/

/-- `MCACHEFS_TRANSFER_TYPE_*`. -/
inductive TransferType
  | backup | writeback | metadata
  deriving DecidableEq, Repr

/-- `mcachefs_fh_t`: the address of the `struct mcachefs_file_t`. -/
abbrev Fh := Nat

/-- `struct mcachefs_transfer_queue_t`, without its link. -/
structure Request where
  mfile : Fh
  type : TransferType
  deriving DecidableEq, Repr

/-- The list from `mcachefs_transfer_queue_head` to the tail. -/
abbrev Queue := List Request

/-- `mcachefs_transfer_queue_file`. -/
def queueFile (mfile : Fh) (type : TransferType) (queue : Queue) : Int × Queue :=
  if queue.any fun request => request.mfile = mfile then (-EEXIST, queue)
  else (0, queue ++ [⟨mfile, type⟩])

/-- `mcachefs_transfer_get_next_file_to_back_locked`; `none` stands for its
`Bug` on a queue without a request of the kind. -/
def getNextFileToBack (type : TransferType) : Queue -> Option (Request × Queue)
  | [] => none
  | request :: queue =>
      if request.type = type then some (request, queue)
      else (getNextFileToBack type queue).map fun (next, rest) => (next, request :: rest)

/-- The part of `mcachefs_transfer_writeback` before the queue is asked: the
handle of the file, or the result of a check that failed. -/
abbrev Lookup := Path -> Except Int Fh

/-- `mcachefs_transfer_writeback`. -/
def writeback (lookup : Lookup) (path : Path) (queue : Queue) : Int × Queue :=
  match lookup path with
  | .error res => (res, queue)
  | .ok mfile => queueFile mfile .writeback queue

/-! ## What a queue holds afterwards -/

theorem mem_queueFile {mfile : Fh} {type : TransferType} {queue : Queue} {request : Request}
    (member : request ∈ (queueFile mfile type queue).2) :
    request ∈ queue ∨ request = ⟨mfile, type⟩ := by
  unfold queueFile at member
  split at member
  · exact Or.inl member
  · simpa using member

theorem subset_queueFile (mfile : Fh) (type : TransferType) (queue : Queue) :
    queue ⊆ (queueFile mfile type queue).2 := by
  unfold queueFile
  split
  · exact List.Subset.refl queue
  · exact List.subset_append_left queue _

/-- Afterwards some request of the file is in the queue, new or old. -/
theorem queueFile_queued (mfile : Fh) (type : TransferType) (queue : Queue) :
    Exists fun request => request ∈ (queueFile mfile type queue).2 ∧ request.mfile = mfile := by
  unfold queueFile
  split
  · next already => simpa using already
  · exact ⟨⟨mfile, type⟩, List.mem_append_right queue List.mem_cons_self, rfl⟩

/-- A thread takes one request of its kind and leaves the others in order. -/
theorem getNextFileToBack_some {type : TransferType} {queue rest : Queue} {next : Request}
    (taken : getNextFileToBack type queue = some (next, rest)) :
    next.type = type ∧ Exists fun before => Exists fun after =>
      queue = before ++ next :: after ∧ rest = before ++ after := by
  induction queue generalizing rest with
  | nil => cases taken
  | cons request queue inductionHypothesis =>
      rw [getNextFileToBack] at taken
      split at taken
      · next same =>
          cases taken
          exact ⟨same, [], _, rfl, rfl⟩
      · obtain ⟨both, later, pair⟩ := Option.map_eq_some_iff.mp taken
        cases pair
        obtain ⟨kind, before, after, whole, remains⟩ := inductionHypothesis later
        exact ⟨kind, request :: before, after, by rw [whole]; rfl, by rw [remains]; rfl⟩

end Transfer
end Mcachefs
