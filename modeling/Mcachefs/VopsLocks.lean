import Mcachefs.Library.LockOrder
import Mcachefs.Library.Runs
import Mcachefs.Transfer.Queue

namespace Mcachefs
namespace VopsLocks

open Library Journal Transfer

/-!
# Locks and waits of the callbacks

Every callback of the kernel and every turn of a thread is a thread here: the
locks it holds and the locks that it has yet to take and give back.  The
functions on the files of `/.mcachefs` are followed with what they do to the
use counts.  Everything else takes its locks in the few nested sections of
`Section`, one after the other, so that any list of sections stands for any
callback, action or turn.

The state says which open file each entry of `/.mcachefs` has.  The open files
of other entries only matter for their locks.
-/

inductive Lock
  | journal
  | metadata
  | file
  | transfer
  /-- The lock of one open file. -/
  | mfile (fh : Fh)
  deriving DecidableEq, Repr

/-- The order in which all functions nest the locks. -/
def Lock.rank : Lock -> Nat
  | .journal => 0
  | .metadata => 1
  | .file => 2
  | .transfer => 3
  | .mfile _ => 4

inductive Action
  /-- `mcachefs_fileid_get` for a file of `/.mcachefs`, under the file lock. -/
  | fileidGet (path : Path)
  /-- `mfile->use++`. -/
  | raise (fh : Fh)
  /-- `mfile->use--`. -/
  | lower (fh : Fh)
  /-- The test of `mdata->fh` in `mcachefs_truncate`. -/
  | truncate (path : Path)
  /-- The test of `mfile->use > 1` in `mcachefs_truncate`. -/
  | awaitUse (fh : Fh)
  /-- `mcachefs_metadata_flush` formats the metadata: no entry is open. -/
  | format
  deriving DecidableEq, Repr

abbrev Program := List (Instr Lock Action)

/-- The critical sections of the source, with the sections nested in them. -/
inductive Section
  /-- A section under one lock: `mcachefs_metadata_find` up to the release,
  `mcachefs_journal_append`, `mcachefs_file_getfd_mode`, and most others. -/
  | one (lock : Lock)
  /-- `mcachefs_fileid_get` after a find, and `mcachefs_file_release`. -/
  | fileid (fh : Fh)
  /-- `mcachefs_metadata_rename_entry`, with the open files that it renames. -/
  | renameEntry (moved : List Fh)
  /-- The second section of `mcachefs_metadata_fill_entry`, with the
  directories whose fill it schedules. -/
  | fillEntry (children : List Fh)
  /-- `mcachefs_journal_apply`, with the files that it writes back. -/
  | apply (written : List Fh)
  /-- `mcachefs_metadata_flush`. -/
  | flush
  /-- `mcachefs_file_timeslice_cleanup` and `mcachefs_file_timeslice_update`. -/
  | timeslices (files : List Fh)
  /-- `mcachefs_transfer_thread` takes a request, and `mcachefs_transfer_dump`. -/
  | transfers (files : List Fh)
  deriving DecidableEq, Repr

/-- `mcachefs_fileid_get` for an entry that is already open. -/
def fileid (fh : Fh) : Program :=
  under .file (under (.mfile fh) [])

def Section.program : Section -> Program
  | .one lock => under lock []
  | .fileid fh => under .metadata (VopsLocks.fileid fh)
  | .renameEntry moved => under .metadata (moved.flatMap fun fh => under (.mfile fh) [])
  | .fillEntry children =>
      under .metadata (children.flatMap fun fh => VopsLocks.fileid fh ++ under .transfer [])
  | .apply written =>
      under .journal (written.flatMap fun fh =>
        under .metadata (VopsLocks.fileid fh) ++ under .transfer [])
  | .flush => under .metadata (under .file [] ++ [.act .format])
  | .timeslices files => under .file (files.flatMap fun fh => under (.mfile fh) [])
  | .transfers files => under .transfer (files.flatMap fun fh => under (.mfile fh) [])

inductive Callback
  /-- `mcachefs_open` on a file of `/.mcachefs`, which `mcachefs_vops_build`
  then fills. -/
  | openVops (path : Path) (build : List Section)
  /-- `mcachefs_truncate` on a file of `/.mcachefs`. -/
  | truncate (path : Path)
  /-- `mcachefs_release` on a file of `/.mcachefs`, after the action that
  `mcachefs_vops_parse` calls. -/
  | releaseVops (fh : Fh) (action : List Section)
  | other (sections : List Section)
  deriving DecidableEq, Repr

/-- What `mcachefs_truncate` does under the metadata lock with the open file of
its entry: the wait is a loop around the lock of the file. -/
def truncateFile (fh : Fh) : Program :=
  under (.mfile fh) [.act (.awaitUse fh)]

def Callback.program : Callback -> Program
  | .openVops path build =>
      under .metadata (under .file [.act (.fileidGet path)]) ++ build.flatMap Section.program
  | .truncate path => under .metadata [.act (.truncate path)]
  | .releaseVops fh action =>
      action.flatMap Section.program ++ under .metadata (under .file [.act (.lower fh)])
  | .other sections => sections.flatMap Section.program

/-- `Bug("Zero use")`. -/
inductive Fault
  | zeroUse
  deriving DecidableEq, Repr

structure VopsState where
  threads : List (LockThread Lock Action)
  /-- `mdata->fh` of the entries of `/.mcachefs`. -/
  entryFh : Path -> Option Fh
  /-- The open files of these entries with their use counts. -/
  files : Fh -> Option Nat
  /-- The handles that the kernel has got and not yet released. -/
  handles : Fh -> Nat

inductive Event
  | call (callback : Callback)
  /-- A step of a thread, unless it has to wait for a lock; `fresh` is the
  address that `mcachefs_file_add` would return. -/
  | run (index : Nat) (fresh : Fh)
  deriving DecidableEq, Repr

namespace VopsState

def init : VopsState := ⟨[], fun _ => none, fun _ => none, fun _ => 0⟩

def uses (state : VopsState) (fh : Fh) : Nat :=
  (state.files fh).getD 0

/-- A lock that some thread holds. -/
def Taken (state : VopsState) (lock : Lock) : Prop :=
  Exists fun thread => thread ∈ state.threads ∧ lock ∈ thread.held

instance (state : VopsState) (lock : Lock) : Decidable (state.Taken lock) :=
  inferInstanceAs (Decidable (Exists fun thread => thread ∈ state.threads ∧ lock ∈ thread.held))

/-- The thread at an index has come to another point. -/
def put (state : VopsState) (index : Nat) (held : List Lock) (program : Program) : VopsState :=
  { state with threads := state.threads.set index ⟨held, program⟩ }

/-- A new use for a handle of the kernel. -/
def raise (state : VopsState) (fh : Fh) : VopsState :=
  { state with
    files := Function.update state.files fh (some (state.uses fh + 1))
    handles := Function.update state.handles fh (state.handles fh + 1) }

/-- The action of the thread at an index that holds `held` and has `rest` left. -/
def perform (state : VopsState) (index : Nat) (fresh : Fh) (held : List Lock) (rest : Program) :
    Action -> Except Fault VopsState
  | .fileidGet path =>
      match state.entryFh path with
      | some fh => .ok (state.put index held (under (.mfile fh) [.act (.raise fh)] ++ rest))
      | none =>
          -- An address at which there is a file is never free.
          if (state.files fresh).isSome then .ok state
          else
            .ok { (state.put index held rest).raise fresh with
              entryFh := Function.update state.entryFh path (some fresh) }
  | .raise fh => .ok ((state.put index held rest).raise fh)
  | .lower fh =>
      if state.uses fh = 0 then .error .zeroUse
      else
        .ok { state.put index held rest with
          files := Function.update state.files fh (some (state.uses fh - 1)) }
  | .truncate path =>
      match state.entryFh path with
      | some fh => .ok (state.put index held (truncateFile fh ++ rest))
      | none => .ok (state.put index held rest)
  | .awaitUse fh =>
      if 1 < state.uses fh then
        .ok (state.put index (held.erase (.mfile fh))
          (.acquire (.mfile fh) :: .act (.awaitUse fh) :: rest))
      else .ok (state.put index held rest)
  | .format => .ok { state.put index held rest with entryFh := fun _ => none }

def start (state : VopsState) (callback : Callback) : VopsState :=
  { state with threads := state.threads ++ [⟨[], callback.program⟩] }

def step (state : VopsState) : Event -> Except Fault VopsState
  | .call (.releaseVops fh action) =>
      if state.handles fh = 0 then .ok state
      else
        .ok { state.start (.releaseVops fh action) with
          handles := Function.update state.handles fh (state.handles fh - 1) }
  | .call callback => .ok (state.start callback)
  | .run index fresh =>
      match state.threads[index]? with
      | none => .ok state
      | some ⟨_, []⟩ => .ok state
      | some ⟨held, .acquire lock :: rest⟩ =>
          if state.Taken lock then .ok state else .ok (state.put index (lock :: held) rest)
      | some ⟨held, .release lock :: rest⟩ => .ok (state.put index (held.erase lock) rest)
      | some ⟨held, .act action :: rest⟩ => state.perform index fresh held rest action

/-- The thread still has to see `mfile.use <= 1`, and there are more uses. -/
def AwaitsUse (state : VopsState) (thread : LockThread Lock Action) : Prop :=
  Exists fun fh => Instr.act (Action.awaitUse fh) ∈ thread.program ∧ 1 < state.uses fh

/-- The thread can make a step other than one more turn of its wait. -/
def CanAdvance (state : VopsState) (thread : LockThread Lock Action) : Prop :=
  match thread.program with
  | [] => False
  | .acquire lock :: _ => ¬ state.Taken lock
  | .act (.awaitUse fh) :: _ => state.uses fh ≤ 1
  | _ => True

/-- No thread waits for an end of uses with the metadata lock, and while a
thread has something to do, some thread can do it. -/
def NotStuck (state : VopsState) : Prop :=
  (forall thread, thread ∈ state.threads -> .metadata ∈ thread.held ->
    ¬ state.AwaitsUse thread) ∧
  ((Exists fun thread => thread ∈ state.threads ∧ thread.program ≠ []) ->
    Exists fun thread => thread ∈ state.threads ∧ state.CanAdvance thread)

/-- A truncate finds its file with at most one use. -/
def FindsIdle (state : VopsState) : Event -> Prop
  | .run index _ => forall held path rest fh,
      state.threads[index]? = some ⟨held, .act (.truncate path) :: rest⟩ ->
      state.entryFh path = some fh -> state.uses fh ≤ 1
  | .call _ => True

end VopsState

/-! ## Every program is ordered -/

/-- The locks under which each action takes place. -/
def Allowed (held : List Lock) : Action -> Prop
  | .fileidGet _ => held = [.file, .metadata]
  | .raise _ => .metadata ∈ held
  | .lower _ => .metadata ∈ held
  | .truncate _ => held = [.metadata]
  | .awaitUse fh => held = [.mfile fh, .metadata]
  | .format => .metadata ∈ held

theorem fileid_nested {held : List Lock} (below : forall other, other ∈ held -> other.rank < 2)
    (fh : Fh) : Nested Lock.rank Allowed held (fileid fh) := by
  refine .under (fun other inside => below other inside) (.under (fun other inside => ?_) (.nil _))
  rcases List.mem_cons.mp inside with rfl | inside
  · simp [Lock.rank]
  · exact (below other inside).trans (by simp [Lock.rank])

theorem one_nested {held : List Lock} {lock : Lock}
    (below : forall other, other ∈ held -> other.rank < lock.rank) :
    Nested Lock.rank Allowed held (under lock []) :=
  .under below (.nil _)

/-- Every section nests its locks in order. -/
theorem Section.nested (part : Section) : Nested Lock.rank Allowed [] part.program := by
  cases part with
  | one lock => exact one_nested (by simp)
  | fileid fh => exact .under (by simp) (fileid_nested (by simp [Lock.rank]) fh)
  | renameEntry moved =>
      exact .under (by simp) (.flatMap (fun fh => one_nested (by simp [Lock.rank])) moved)
  | fillEntry children =>
      refine .under (by simp) (.flatMap (fun fh => .append ?_ ?_) children)
      · exact fileid_nested (by simp [Lock.rank]) fh
      · exact one_nested (by simp [Lock.rank])
  | apply written =>
      refine .under (by simp) (.flatMap (fun fh => .append (.under ?_ ?_) ?_) written)
      · simp [Lock.rank]
      · exact fileid_nested (by simp [Lock.rank]) fh
      · exact one_nested (by simp [Lock.rank])
  | flush =>
      refine .under (by simp) (.append (one_nested (by simp [Lock.rank])) (.act ?_))
      exact List.mem_cons_self
  | timeslices files =>
      exact .under (by simp) (.flatMap (fun fh => one_nested (by simp [Lock.rank])) files)
  | transfers files =>
      exact .under (by simp) (.flatMap (fun fh => one_nested (by simp [Lock.rank])) files)

/-- Every callback nests its locks in order, and each of its actions has the
locks that it needs. -/
theorem Callback.ordered (callback : Callback) :
    Ordered Lock.rank Allowed [] callback.program := by
  apply Nested.ordered
  cases callback with
  | openVops path build =>
      refine .append (.under (by simp) (.under (by simp [Lock.rank]) (.act rfl))) ?_
      exact .flatMap Section.nested build
  | truncate path => exact .under (by simp) (.act rfl)
  | releaseVops fh action =>
      refine .append (.flatMap Section.nested action) (.under (by simp) ?_)
      exact .under (by simp [Lock.rank]) (.act (by simp [Allowed]))
  | other sections => exact .flatMap Section.nested sections

/-- A section does nothing to the files of `/.mcachefs` but forget them. -/
theorem Section.act_mem {part : Section} {action : Action}
    (member : Instr.act action ∈ part.program) : action = .format := by
  cases part <;> simp_all [Section.program, VopsLocks.fileid, under]

theorem act_mem_sections {sections : List Section} {action : Action}
    (member : Instr.act action ∈ sections.flatMap Section.program) : action = .format := by
  obtain ⟨part, -, inside⟩ := List.mem_flatMap.mp member
  exact part.act_mem inside

/-! ## The invariant -/

/-- The actions of `mcachefs_truncate`. -/
def OfTruncate : Action -> Prop
  | .truncate _ => True
  | .awaitUse _ => True
  | _ => False

/-- Where a thread is: not in a truncate, or at one point of it.  Once it has
found its file, the file has at most one use. -/
inductive Stage (state : VopsState) : LockThread Lock Action -> Prop
  | plain {thread : LockThread Lock Action}
      (apart : forall action, Instr.act action ∈ thread.program -> ¬ OfTruncate action) :
      Stage state thread
  | before (path : Path) :
      Stage state ⟨[], [.acquire .metadata, .act (.truncate path), .release .metadata]⟩
  | found (path : Path) :
      Stage state ⟨[.metadata], [.act (.truncate path), .release .metadata]⟩
  | locking {fh : Fh} (idle : state.uses fh ≤ 1) :
      Stage state ⟨[.metadata],
        [.acquire (.mfile fh), .act (.awaitUse fh), .release (.mfile fh), .release .metadata]⟩
  | testing {fh : Fh} (idle : state.uses fh ≤ 1) :
      Stage state ⟨[.mfile fh, .metadata],
        [.act (.awaitUse fh), .release (.mfile fh), .release .metadata]⟩

/-- The times that threads will still lower a count. -/
def lowers (fh : Fh) (threads : List (LockThread Lock Action)) : Nat :=
  (threads.map fun thread => thread.program.count (.act (.lower fh))).sum

structure Sound (state : VopsState) : Prop where
  ordered : forall thread, thread ∈ state.threads ->
    Ordered Lock.rank Allowed thread.held thread.program
  exclusive : (state.threads.flatMap LockThread.held).Nodup
  stages : forall thread, thread ∈ state.threads -> Stage state thread
  counted : forall fh, state.uses fh = state.handles fh + lowers fh state.threads

section Steps

variable {state next : VopsState}

theorem Stage.keep {thread : LockThread Lock Action} (stage : Stage state thread)
    (same : .metadata ∈ thread.held -> next.uses = state.uses) : Stage next thread := by
  cases stage with
  | plain apart => exact .plain apart
  | before path => exact .before path
  | found path => exact .found path
  | locking idle => exact .locking (by rwa [same (by simp)])
  | testing idle => exact .testing (by rwa [same (by simp)])

/-- A thread that waits or will wait has the metadata lock and an idle file. -/
theorem Stage.idle {thread : LockThread Lock Action} (stage : Stage state thread) {fh : Fh}
    (waits : Instr.act (Action.awaitUse fh) ∈ thread.program) : state.uses fh ≤ 1 := by
  cases stage with
  | plain apart => exact absurd trivial (apart _ waits)
  | before path => simp at waits
  | found path => simp at waits
  | locking idle => simp_all
  | testing idle => simp_all

/-- One thread moves on. -/
theorem Sound.move (sound : Sound state) {before after : List (LockThread Lock Action)}
    {thread moved : LockThread Lock Action}
    (whole : state.threads = before ++ thread :: after)
    (threads : next.threads = before ++ moved :: after)
    (order : Ordered Lock.rank Allowed moved.held moved.program)
    (locks : (moved.held ++ (before ++ after).flatMap LockThread.held).Nodup)
    (stage : Stage next moved)
    (uses : .metadata ∉ thread.held -> next.uses = state.uses)
    (counts : forall fh, next.uses fh + state.handles fh +
        thread.program.count (.act (.lower fh)) =
      state.uses fh + next.handles fh + moved.program.count (.act (.lower fh))) :
    Sound next := by
  have apart : forall other, other ∈ before ++ after -> .metadata ∈ thread.held ->
      .metadata ∉ other.held := by
    intro other inside holds again
    have exclusive := sound.exclusive
    rw [whole, List.flatMap_append, List.flatMap_cons] at exclusive
    have moved := (List.perm_append_comm_assoc (before.flatMap LockThread.held) thread.held
      (after.flatMap LockThread.held)).nodup_iff.mp exclusive
    rw [← List.flatMap_append] at moved
    exact (List.nodup_append.mp moved).2.2 _ holds _
      (List.mem_flatMap.mpr ⟨other, inside, again⟩) rfl
  have members : forall other, other ∈ next.threads -> other = moved ∨ other ∈ before ++ after := by
    intro other inside
    rw [threads] at inside
    simp only [List.mem_append, List.mem_cons] at inside ⊢
    tauto
  have old : forall other, other ∈ before ++ after -> other ∈ state.threads := by
    intro other inside
    rw [whole]
    simp only [List.mem_append, List.mem_cons] at inside ⊢
    tauto
  refine ⟨fun other inside => ?_, ?_, fun other inside => ?_, fun fh => ?_⟩
  · rcases members other inside with rfl | inside
    · exact order
    · exact sound.ordered other (old other inside)
  · rw [threads, List.flatMap_append, List.flatMap_cons]
    refine (List.perm_append_comm_assoc _ _ _).nodup_iff.mp ?_
    rwa [← List.flatMap_append]
  · rcases members other inside with rfl | inside
    · exact stage
    · refine (sound.stages other (old other inside)).keep fun holds => uses fun taken => ?_
      exact apart other inside taken holds
  · have counted := sound.counted fh
    have count := counts fh
    simp only [lowers, whole, threads, List.map_append, List.map_cons, List.sum_append,
      List.sum_cons] at counted ⊢
    omega

/-- A thread in its place among the others, and its locks before theirs. -/
theorem Sound.around (sound : Sound state) {index : Nat} {thread : LockThread Lock Action}
    (found : state.threads[index]? = some thread) :
    Exists fun before => Exists fun after => state.threads = before ++ thread :: after ∧
      (forall moved, state.threads.set index moved = before ++ moved :: after) ∧
      (thread.held ++ (before ++ after).flatMap LockThread.held).Nodup := by
  obtain ⟨before, after, whole, -, moves⟩ := exists_around found
  refine ⟨before, after, whole, moves, ?_⟩
  have exclusive := sound.exclusive
  rw [whole, List.flatMap_append, List.flatMap_cons] at exclusive
  rw [List.flatMap_append]
  exact (List.perm_append_comm_assoc _ _ _).nodup_iff.mp exclusive

@[simp]
theorem put_uses (index : Nat) (held : List Lock) (program : Program) :
    (state.put index held program).uses = state.uses :=
  rfl

@[simp]
theorem put_handles (index : Nat) (held : List Lock) (program : Program) :
    (state.put index held program).handles = state.handles :=
  rfl

theorem raise_uses (fh other : Fh) :
    (state.raise fh).uses other = state.uses other + if other = fh then 1 else 0 := by
  by_cases same : other = fh
  · subst same
    simp [VopsState.uses, VopsState.raise]
  · simp [VopsState.uses, VopsState.raise, same]

theorem raise_handles (fh other : Fh) :
    (state.raise fh).handles other = state.handles other + if other = fh then 1 else 0 := by
  by_cases same : other = fh
  · subst same
    simp [VopsState.raise]
  · simp [VopsState.raise, same]

/-- A thread that acts outside a truncate is in none after that. -/
theorem Stage.past {held : List Lock} {action : Action} {rest : Program}
    (stage : Stage state ⟨held, .act action :: rest⟩) (apart : ¬ OfTruncate action) :
    forall other, Instr.act other ∈ rest -> ¬ OfTruncate other := by
  cases stage with
  | plain all => exact fun other inside => all other (List.mem_cons_of_mem _ inside)
  | found path => exact absurd trivial apart
  | testing idle => exact absurd trivial apart

/-- The step of a thread that acts, if a truncate only finds an idle file. -/
theorem Sound.perform (sound : Sound state) {index : Nat} {fresh : Fh} {held : List Lock}
    {action : Action} {rest : Program}
    (found : state.threads[index]? = some ⟨held, .act action :: rest⟩)
    (idle : forall path fh, action = .truncate path -> state.entryFh path = some fh ->
      state.uses fh ≤ 1) :
    Exists fun next => state.perform index fresh held rest action = .ok next ∧ Sound next := by
  obtain ⟨before, after, whole, moves, locks⟩ := sound.around found
  have member := List.mem_of_getElem? found
  have order := sound.ordered _ member
  have stage := sound.stages _ member
  obtain ⟨allowed, order⟩ := order
  cases action with
  | fileidGet path =>
      have past := stage.past id
      have holds : .metadata ∈ held := by
        rw [show held = [.file, .metadata] from allowed]
        simp
      simp only [VopsState.perform]
      cases opened : state.entryFh path with
      | some fh =>
          refine ⟨_, rfl, sound.move whole (moves _) ?_ locks (.plain ?_) (fun _ => rfl) ?_⟩
          · refine Nested.ordered_append (.under ?_ (.act ?_)) order
            · rw [show held = [.file, .metadata] from allowed]
              simp [Lock.rank]
            · exact List.mem_cons_of_mem _ holds
          · simp only [under]
            intro other inside
            simp only [List.mem_append, List.mem_cons] at inside
            rcases inside with inside | inside
            · simp_all [OfTruncate]
            · exact past other inside
          · intro other
            simp [under]
      | none =>
          simp only
          split
          · exact ⟨state, rfl, sound⟩
          · refine ⟨_, rfl, sound.move whole (moves _) order locks (.plain past) ?_ ?_⟩
            · exact fun missing => absurd holds missing
            · intro other
              have use : ((state.put index held rest).raise fresh).uses other = _ :=
                raise_uses fresh other
              have handle : ((state.put index held rest).raise fresh).handles other = _ :=
                raise_handles fresh other
              change ((state.put index held rest).raise fresh).uses other + _ + _ =
                _ + ((state.put index held rest).raise fresh).handles other + _
              rw [put_uses] at use
              rw [put_handles] at handle
              rw [use, handle, List.count_cons_of_ne (by simp)]
              dsimp only
              omega
  | raise fh =>
      refine ⟨_, rfl, sound.move whole (moves _) order locks (.plain (stage.past id)) ?_ ?_⟩
      · exact fun missing => absurd allowed missing
      · intro other
        rw [raise_uses, raise_handles, put_uses, put_handles, List.count_cons_of_ne (by simp)]
        dsimp only
        omega
  | lower fh =>
      have used : state.uses fh ≠ 0 := by
        have counted := sound.counted fh
        simp only [lowers, whole, List.map_append, List.map_cons, List.sum_append, List.sum_cons,
          List.count_cons_self] at counted
        omega
      simp only [VopsState.perform, if_neg used]
      refine ⟨_, rfl, sound.move whole (moves _) order locks (.plain (stage.past id)) ?_ ?_⟩
      · exact fun missing => absurd allowed missing
      · intro other
        by_cases same : other = fh
        · subst same
          simp only [VopsState.uses, VopsState.put, Function.update_self, Option.getD_some,
            List.count_cons_self] at used ⊢
          omega
        · simp [VopsState.put, VopsState.uses, same, Ne.symm same]
  | truncate path =>
      have rest_eq : rest = [.release .metadata] := by
        cases stage with
        | plain all => exact absurd trivial (all (.truncate path) List.mem_cons_self)
        | found path => rfl
      subst rest_eq
      have holds : held = [.metadata] := allowed
      subst holds
      simp only [VopsState.perform]
      cases opened : state.entryFh path with
      | some fh =>
          refine ⟨_, rfl, sound.move whole (moves _) ?_ locks (.locking ?_) (fun _ => rfl) ?_⟩
          · refine Nested.ordered_append (.under ?_ (.act rfl)) order
            simp [Lock.rank]
          · exact idle path fh rfl opened
          · intro other
            simp [truncateFile, under]
      | none =>
          refine ⟨_, rfl, sound.move whole (moves _) order locks (.plain ?_) (fun _ => rfl) ?_⟩
          · simp
          · intro other
            simp
  | awaitUse fh =>
      have idle := stage.idle List.mem_cons_self
      simp only [VopsState.perform, if_neg (Nat.not_lt.mpr idle)]
      have past : forall other, Instr.act other ∈ rest -> ¬ OfTruncate other := by
        cases stage with
        | plain all => exact absurd trivial (all (.awaitUse fh) List.mem_cons_self)
        | testing _ => simp
      refine ⟨_, rfl, sound.move whole (moves _) order locks (.plain past) (fun _ => rfl) ?_⟩
      intro other
      simp
  | format =>
      refine ⟨_, rfl, sound.move whole (moves _) order locks (.plain (stage.past id))
        (fun _ => rfl) ?_⟩
      intro other
      simp [VopsState.uses, VopsState.put]

/-- A new callback. -/
theorem Sound.start (sound : Sound state) (callback : Callback)
    (threads : next.threads = state.threads ++ [⟨[], callback.program⟩])
    (uses : next.uses = state.uses)
    (handles : forall fh, state.handles fh =
      next.handles fh + callback.program.count (.act (.lower fh))) :
    Sound next := by
  have members : forall thread, thread ∈ next.threads ->
      thread ∈ state.threads ∨ thread = ⟨[], callback.program⟩ := by
    intro thread inside
    rw [threads] at inside
    simpa only [List.mem_append, List.mem_singleton] using inside
  refine ⟨fun thread inside => ?_, ?_, fun thread inside => ?_, fun fh => ?_⟩
  · rcases members thread inside with inside | rfl
    · exact sound.ordered thread inside
    · exact callback.ordered
  · rw [threads, List.flatMap_append]
    simpa using sound.exclusive
  · rcases members thread inside with inside | rfl
    · exact (sound.stages thread inside).keep fun _ => uses
    · cases callback with
      | truncate path => exact .before path
      | openVops path build =>
          refine .plain fun action inside => ?_
          simp only [Callback.program, under, List.mem_append, List.mem_cons] at inside
          rcases inside with inside | inside
          · simp_all [OfTruncate]
          · rw [act_mem_sections inside]
            exact id
      | releaseVops fh action =>
          refine .plain fun other inside => ?_
          simp only [Callback.program, under, List.mem_append, List.mem_cons] at inside
          rcases inside with inside | inside
          · rw [act_mem_sections inside]
            exact id
          · simp_all [OfTruncate]
      | other sections =>
          refine .plain fun action inside => ?_
          rw [act_mem_sections inside]
          exact id
  · have counted := sound.counted fh
    have handle := handles fh
    rw [uses]
    simp only [lowers, threads, List.map_append, List.sum_append, List.map_cons, List.map_nil,
      List.sum_cons, List.sum_nil] at counted ⊢
    omega

theorem count_sections (sections : List Section) (fh : Fh) :
    (sections.flatMap Section.program).count (.act (.lower fh)) = 0 := by
  refine List.count_eq_zero.mpr fun inside => ?_
  cases act_mem_sections inside

/-- A step keeps the invariant, and no count is lowered below zero. -/
theorem Sound.step (sound : Sound state) {event : Event} (idle : state.FindsIdle event) :
    Exists fun next => state.step event = .ok next ∧ Sound next := by
  cases event with
  | call callback =>
      cases callback with
      | releaseVops fh action =>
          simp only [VopsState.step]
          split
          · exact ⟨state, rfl, sound⟩
          · next some =>
              refine ⟨_, rfl, sound.start (.releaseVops fh action) rfl rfl fun other => ?_⟩
              have actions := count_sections action other
              by_cases same : other = fh
              · subst same
                simp only [Callback.program, under, Function.update_self]
                simp [actions]
                omega
              · simp only [Callback.program, under]
                simp [actions, same, Ne.symm same]
      | openVops path build =>
          refine ⟨_, rfl, sound.start (.openVops path build) rfl rfl fun other => ?_⟩
          simp [Callback.program, under, count_sections, VopsState.start]
      | truncate path =>
          refine ⟨_, rfl, sound.start (.truncate path) rfl rfl fun other => ?_⟩
          simp [Callback.program, under, VopsState.start]
      | other sections =>
          refine ⟨_, rfl, sound.start (.other sections) rfl rfl fun other => ?_⟩
          simp [Callback.program, count_sections, VopsState.start]
  | run index fresh =>
      simp only [VopsState.step]
      cases found : state.threads[index]? with
      | none => exact ⟨state, rfl, sound⟩
      | some thread =>
          obtain ⟨held, program⟩ := thread
          obtain ⟨before, after, whole, moves, locks⟩ := sound.around found
          have member := List.mem_of_getElem? found
          have order := sound.ordered _ member
          have stage := sound.stages _ member
          cases program with
          | nil => exact ⟨state, rfl, sound⟩
          | cons instr rest =>
              cases instr with
              | act action =>
                  refine sound.perform found fun path fh same opened => ?_
                  subst same
                  exact idle held path rest fh found opened
              | acquire lock =>
                  simp only
                  split
                  · exact ⟨state, rfl, sound⟩
                  · next free =>
                      refine ⟨_, rfl, sound.move whole (moves _) order.2 ?_ ?_ (fun _ => rfl) ?_⟩
                      · change (lock :: (held ++ (before ++ after).flatMap LockThread.held)).Nodup
                        refine List.nodup_cons.mpr ⟨fun taken => free ?_, locks⟩
                        simp only [List.mem_append, List.mem_flatMap] at taken
                        rcases taken with taken | ⟨other, inside, taken⟩
                        · exact ⟨_, member, taken⟩
                        · refine ⟨other, ?_, taken⟩
                          rw [whole]
                          simp only [List.mem_append, List.mem_cons] at inside ⊢
                          tauto
                      · cases stage with
                        | plain apart =>
                            exact .plain fun other inside =>
                              apart other (List.mem_cons_of_mem _ inside)
                        | before path => exact .found path
                        | locking idle => exact .testing idle
                      · intro other
                        simp
              | release lock =>
                  refine ⟨_, rfl, sound.move whole (moves _) order.2 ?_ ?_ (fun _ => rfl) ?_⟩
                  · exact locks.sublist (List.Sublist.append_right List.erase_sublist _)
                  · cases stage with
                    | plain apart =>
                        exact .plain fun other inside =>
                          apart other (List.mem_cons_of_mem _ inside)
                  · intro other
                    simp

theorem init_sound : Sound VopsState.init := by
  refine ⟨?_, List.nodup_nil, ?_, fun _ => rfl⟩ <;>
  · intro thread inside
    cases inside

theorem Sound.notStuck (sound : Sound state) : state.NotStuck := by
  have calm : forall thread, thread ∈ state.threads -> ¬ state.AwaitsUse thread := by
    rintro thread inside ⟨fh, waits, more⟩
    exact absurd ((sound.stages thread inside).idle waits) (Nat.not_le.mpr more)
  refine ⟨fun thread inside _ => calm thread inside, fun unfinished => ?_⟩
  obtain ⟨thread, inside, more, free⟩ := exists_unblocked sound.ordered unfinished
  refine ⟨thread, inside, ?_⟩
  unfold VopsState.CanAdvance
  split
  · next ended => exact more ended
  · next lock rest next =>
      rintro ⟨other, member, taken⟩
      exact free lock rest next other member taken
  · next fh rest next =>
      refine Nat.not_lt.mp fun many => calm thread inside ⟨fh, ?_, many⟩
      rw [next]
      exact List.mem_cons_self
  · trivial

/-- A truncate that finds more than one use goes to wait with the metadata lock. -/
theorem waits_of_not_idle {event : Event} (busy : ¬ state.FindsIdle event) (sound : Sound state) :
    Exists fun next => state.step event = .ok next ∧ ¬ next.NotStuck := by
  cases event with
  | call callback => exact absurd trivial busy
  | run index fresh =>
      simp only [VopsState.FindsIdle, not_forall, Nat.not_le] at busy
      obtain ⟨held, path, rest, fh, found, opened, many⟩ := busy
      have member := List.mem_of_getElem? found
      have holds : held = [.metadata] := (sound.ordered _ member).1
      refine ⟨state.put index held (truncateFile fh ++ rest), ?_, fun calm => ?_⟩
      · simp only [VopsState.step, found, VopsState.perform, opened]
      · refine calm.1 ⟨held, truncateFile fh ++ rest⟩ ?_ ?_ ⟨fh, ?_, many⟩
        · exact List.mem_set (List.getElem?_eq_some_iff.mp found).1 _
        · rw [holds]
          exact List.mem_cons_self
        · simp [truncateFile, under]

end Steps

/-- The callbacks and threads are never stuck, and no use is missing, in exactly
the runs in which every truncate of a file of `/.mcachefs` finds it with at most
one use.  Otherwise it keeps the metadata lock, without which no handle can be
released, and waits for a release. -/
theorem VopsState.never_stuck_iff (events : List Event) :
    Throughout step NotStuck (fun _ => False) init events ↔
      EachStep step FindsIdle init events := by
  refine throughout_iff_eachStep (fun _ => Sound.notStuck) ?_ ?_ ?_ events
    init_sound
  · intro state event next sound idle result
    obtain ⟨other, step, sound⟩ := sound.step idle
    rw [step] at result
    cases result
    exact sound
  · intro state event fault sound idle result
    obtain ⟨other, step, -⟩ := sound.step idle
    rw [step] at result
    cases result
  · exact fun state event sound busy => waits_of_not_idle busy sound

/-- Two readers have the file open that a third process truncates.  The release
of the first reader then waits for the metadata lock. -/
theorem VopsState.truncate_waits_for_release :
    ¬ Throughout step NotStuck (fun _ => False) init
      ([.call (.openVops [] [])] ++ List.replicate 5 (.run 0 1) ++
        [.call (.openVops [] [])] ++ List.replicate 8 (.run 1 2) ++
        [.call (.truncate [])] ++ List.replicate 4 (.run 2 2) ++
        [.call (.releaseVops 1 []), .run 3 2]) := by
  intro throughout
  have stuck := throughout.2.2.2.2.2.2.2.2.2.2.2.2.2.2.2.2.2.2.2.2.2.2
  refine stuck.1 ⟨[.metadata], _⟩ (.tail _ (.tail _ (.head _))) List.mem_cons_self ⟨1, ?_, ?_⟩
  · exact .tail _ (.head _)
  · decide

end VopsLocks
end Mcachefs
