import Mathlib.Data.Finset.Max
import Mathlib.Data.List.Basic

namespace Mcachefs
namespace Library

/-!
# Threads that take locks in order

A thread is what is left of its program and the locks it holds.  Every lock has
a rank, and a program is ordered when it only takes a lock whose rank is above
those of all the locks it holds then, and gives everything back in the end.
Among threads with ordered programs there is always one that no lock stops.

Other actions may be allowed only under certain locks, which is a parameter.
-/

/-- One step of a thread. -/
inductive Instr (Lock Act : Type)
  | acquire (lock : Lock)
  | release (lock : Lock)
  | act (action : Act)
  deriving DecidableEq, Repr

/-- The locks a thread holds and the rest of its program. -/
structure LockThread (Lock Act : Type) where
  held : List Lock
  program : List (Instr Lock Act)
  deriving DecidableEq, Repr

section Order

variable {Lock Act : Type} [DecidableEq Lock] (rank : Lock -> Nat)
  (allowed : List Lock -> Act -> Prop)

/-- The rest of a program that holds the locks `held` is ordered. -/
def Ordered : List Lock -> List (Instr Lock Act) -> Prop
  | held, [] => held = []
  | held, .acquire lock :: program =>
      (forall other, other ∈ held -> rank other < rank lock) ∧ Ordered (lock :: held) program
  | held, .release lock :: program => lock ∈ held ∧ Ordered (held.erase lock) program
  | held, .act action :: program => allowed held action ∧ Ordered held program

/-- Take a lock, do something, and give the lock back. -/
def under (lock : Lock) (body : List (Instr Lock Act)) : List (Instr Lock Act) :=
  .acquire lock :: body ++ [.release lock]

/-- A part of a program that ends with the locks it began with. -/
inductive Nested : List Lock -> List (Instr Lock Act) -> Prop
  | nil (held : List Lock) : Nested held []
  | act {held : List Lock} {action : Act} (allows : allowed held action) :
      Nested held [.act action]
  | under {held : List Lock} {lock : Lock} {body : List (Instr Lock Act)}
      (above : forall other, other ∈ held -> rank other < rank lock)
      (inside : Nested (lock :: held) body) : Nested held (Library.under lock body)
  | append {held : List Lock} {first second : List (Instr Lock Act)}
      (one : Nested held first) (two : Nested held second) : Nested held (first ++ second)

variable {rank allowed}

/-- A nested part in front of an ordered rest. -/
theorem Nested.ordered_append {held : List Lock} {body rest : List (Instr Lock Act)}
    (nested : Nested rank allowed held body) (after : Ordered rank allowed held rest) :
    Ordered rank allowed held (body ++ rest) := by
  induction nested generalizing rest with
  | nil => exact after
  | act allows => exact ⟨allows, after⟩
  | under above _ inductionHypothesis =>
      simp only [Library.under, List.cons_append, List.append_assoc]
      refine ⟨above, inductionHypothesis ⟨List.mem_cons_self, ?_⟩⟩
      rw [List.erase_cons_head]
      exact after
  | append _ _ oneHypothesis twoHypothesis =>
      rw [List.append_assoc]
      exact oneHypothesis (twoHypothesis after)

theorem Nested.ordered {body : List (Instr Lock Act)} (nested : Nested rank allowed [] body) :
    Ordered rank allowed [] body := by
  have whole : Ordered rank allowed [] (body ++ []) := nested.ordered_append rfl
  rwa [List.append_nil] at whole

omit [DecidableEq Lock] in
theorem Nested.flatMap {Item : Type} {held : List Lock} {body : Item -> List (Instr Lock Act)}
    (each : forall item, Nested rank allowed held (body item)) (items : List Item) :
    Nested rank allowed held (items.flatMap body) := by
  induction items with
  | nil => exact .nil held
  | cons item items inductionHypothesis =>
      rw [List.flatMap_cons]
      exact .append (each item) inductionHypothesis

/-- Some thread is not stopped by a lock: it gives one back, it acts, or the
lock it takes is free. -/
theorem exists_unblocked {threads : List (LockThread Lock Act)}
    (ordered : forall thread, thread ∈ threads ->
      Ordered rank allowed thread.held thread.program)
    (unfinished : Exists fun thread => thread ∈ threads ∧ thread.program ≠ []) :
    Exists fun thread => thread ∈ threads ∧ thread.program ≠ [] ∧
      forall lock program, thread.program = .acquire lock :: program ->
        forall other, other ∈ threads -> lock ∉ other.held := by
  let locks := (threads.flatMap LockThread.held).toFinset
  have mem_locks : forall lock, lock ∈ locks ↔
      Exists fun thread => thread ∈ threads ∧ lock ∈ thread.held := by
    intro lock
    simp [locks]
  by_cases free : locks = ∅
  · obtain ⟨thread, member, more⟩ := unfinished
    refine ⟨thread, member, more, fun lock program _ other inside holds => ?_⟩
    have taken := (mem_locks lock).mpr ⟨other, inside, holds⟩
    rw [free] at taken
    exact absurd taken (Finset.notMem_empty lock)
  · -- The thread with the highest lock can only be stopped by a higher one.
    obtain ⟨top, topMember, highest⟩ :=
      locks.exists_max_image rank (Finset.nonempty_iff_ne_empty.mpr free)
    obtain ⟨thread, member, holds⟩ := (mem_locks top).mp topMember
    have order := ordered thread member
    have more : thread.program ≠ [] := by
      intro ended
      rw [ended] at order
      have empty : thread.held = [] := order
      rw [empty] at holds
      cases holds
    refine ⟨thread, member, more, fun lock program next other inside again => ?_⟩
    rw [next] at order
    have above := order.1 top holds
    have below := highest lock ((mem_locks lock).mpr ⟨other, inside, again⟩)
    omega

end Order

end Library
end Mcachefs
