import Mcachefs.Library.Runs
import Mathlib.Data.List.Perm.Basic
import Mathlib.Logic.Function.Basic

namespace Mcachefs
namespace DirectoryReads

open Library

/-!
# Descriptors of directory reads

All threads of the process share one table of descriptors, where `open` takes a
free number and `close` gives a number back, whoever opened it.  The two
functions that read a directory open it with `mcachefs_metadata_recurse_open`
and hand the descriptor to `fdopendir`, after which `closedir` closes it.  Every
system call is one step, and other threads open and close descriptors in
between.
-/

/-- The functions that read a directory. -/
inductive Reader
  /-- `mcachefs_metadata_get_child`. -/
  | getChild
  /-- `mcachefs_metadata_fill_entry` with `mcachefs_metadata_browse_dir`. -/
  | fillEntry
  deriving DecidableEq, Repr

/-- How far a directory read is: the next system call that it makes. -/
inductive Stage
  /-- No directory read. -/
  | idle
  /-- `open` of the source, with so many directories to go down from there. -/
  | root (reader : Reader) (levels : Nat)
  /-- `openat`, or `fdopendir` when `levels` is zero. -/
  | opened (reader : Reader) (levels : Nat) (fd : Nat)
  /-- `close` of the father in `mcachefs_metadata_recurse_open`, after `openat`
  has returned `fd2`. -/
  | leaving (reader : Reader) (levels : Nat) (fd : Nat) (fd2 : Option Nat)
  /-- `readdir`, or `closedir` at the end. -/
  | reading (reader : Reader) (fd : Nat)
  /-- `close` after `fdopendir` has failed. -/
  | failed (reader : Reader) (fd : Nat)
  /-- `close` at the end. -/
  | ending (fd : Nat)
  deriving DecidableEq, Repr

/-- A thread in a directory read: what it opened so far, and the numbers it gave
to `close` or had `closedir` close. -/
structure Thread where
  stage : Stage
  opens : List Nat
  closes : List Nat
  deriving DecidableEq, Repr

def Thread.idle : Thread := ⟨.idle, [], []⟩

structure TableState where
  /-- The thread that opened a number, if it is in use. -/
  owner : Nat -> Option Nat
  threads : Nat -> Thread
  /-- A directory read has closed a number of another thread. -/
  stolen : Bool
  /-- The directory reads that are over. -/
  finished : List Thread

inductive Event
  /-- A thread calls one of the two functions for a directory so far below the
  source root. -/
  | begin (thread : Nat) (reader : Reader) (levels : Nat)
  /-- Its next system call: `answer` is the number that `open` returns, whether
  `fdopendir` has a stream, or whether `readdir` has one more entry. -/
  | go (thread : Nat) (answer : Option Nat)
  /-- Another thread opens or closes a descriptor. -/
  | otherOpen (thread : Nat) (number : Nat)
  | otherClose (thread : Nat) (number : Nat)
  deriving DecidableEq, Repr

namespace TableState

def init : TableState := ⟨fun _ => none, fun _ => .idle, false, []⟩

/-- The thread goes on to another call. -/
def goTo (state : TableState) (thread : Nat) (stage : Stage) : TableState :=
  { state with
    threads := Function.update state.threads thread { state.threads thread with stage := stage } }

/-- `open` returns a free number to the thread. -/
def acquire (state : TableState) (thread number : Nat) : TableState :=
  { state with
    owner := Function.update state.owner number (some thread)
    threads := Function.update state.threads thread
      { state.threads thread with opens := (state.threads thread).opens ++ [number] } }

/-- The thread calls `close` on a number. -/
def release (state : TableState) (thread number : Nat) : TableState :=
  { state with
    owner := Function.update state.owner number none
    threads := Function.update state.threads thread
      { state.threads thread with closes := (state.threads thread).closes ++ [number] }
    stolen := state.stolen || (state.owner number).any (· ≠ thread) }

/-- The function returns. -/
def finish (state : TableState) (thread : Nat) : TableState :=
  { state with
    threads := Function.update state.threads thread .idle
    finished := state.threads thread :: state.finished }

/-- The next system call of a thread. -/
def go (state : TableState) (thread : Nat) (answer : Option Nat) : TableState :=
  match (state.threads thread).stage with
  | .idle => state
  | .root reader levels =>
      match answer with
      | none => state.finish thread
      | some fd =>
          if state.owner fd = none then (state.acquire thread fd).goTo thread (.opened reader levels fd)
          else state
  | .opened reader (levels + 1) fd =>
      match answer with
      | none => state.goTo thread (.leaving reader levels fd none)
      | some fd2 =>
          if state.owner fd2 = none then
            (state.acquire thread fd2).goTo thread (.leaving reader levels fd (some fd2))
          else state
  | .leaving reader levels fd fd2 =>
      let state := state.release thread fd
      match fd2 with
      | none => state.finish thread
      | some fd2 => state.goTo thread (.opened reader levels fd2)
  | .opened reader 0 fd =>
      match answer with
      | none => state.goTo thread (.failed reader fd)
      | some _ => state.goTo thread (.reading reader fd)
  | .reading _ fd =>
      match answer with
      | some _ => state
      | none => (state.release thread fd).goTo thread (.ending fd)
  | .failed reader fd =>
      let state := state.release thread fd
      match reader with
      | .getChild => state.finish thread
      -- `mcachefs_metadata_browse_dir` closes `fd`, and so does its caller.
      | .fillEntry => state.goTo thread (.ending fd)
  | .ending fd => (state.release thread fd).finish thread

def step (state : TableState) : Event -> Except Empty TableState
  | .begin thread reader levels =>
      if (state.threads thread).stage = .idle then
        .ok { state with
          threads := Function.update state.threads thread ⟨.root reader levels, [], []⟩ }
      else .ok state
  | .go thread answer => .ok (state.go thread answer)
  | .otherOpen thread number =>
      if (state.threads thread).stage = .idle ∧ state.owner number = none then
        .ok { state with owner := Function.update state.owner number (some thread) }
      else .ok state
  | .otherClose thread number =>
      if (state.threads thread).stage = .idle ∧ state.owner number = some thread then
        .ok { state with owner := Function.update state.owner number none }
      else .ok state

/-- No directory read has closed a number of another thread, and those that are
over have closed every descriptor they opened exactly once. -/
def ClosesOwnOnce (state : TableState) : Prop :=
  state.stolen = false ∧
    forall thread, thread ∈ state.finished -> thread.closes.Perm thread.opens

/-- A read that has its directory open goes no further, except that `fdopendir`
may fail in `mcachefs_metadata_get_child`. -/
def NoStream (state : TableState) : Event -> Prop
  | .go thread answer => forall reader fd, (state.threads thread).stage = .opened reader 0 fd ->
      reader = .getChild ∧ answer = none
  | _ => True

/-- The number that an `open` returns in this step, if the step is one. -/
def newNumber (state : TableState) : Event -> Option Nat
  | .go thread answer =>
      match (state.threads thread).stage with
      | .root _ _ => answer
      | .opened _ (_ + 1) _ => answer
      | _ => none
  | .otherOpen _ number => some number
  | _ => none

/-- No `open` returns a number that a directory read has closed already and is
about to close again. -/
def KeepsClear (state : TableState) (event : Event) : Prop :=
  forall number, state.newNumber event = some number ->
    forall thread, (state.threads thread).stage ≠ .ending number

end TableState

/-! ## What a call has to close -/

/-- The descriptors that the call has open. -/
def Stage.held : Stage -> List Nat
  | .opened _ _ fd => [fd]
  | .leaving _ _ fd fd2 => fd :: fd2.toList
  | .reading _ fd => [fd]
  | .failed _ fd => [fd]
  | _ => []

namespace TableState

variable {state next : TableState} {thread number fd : Nat} {event : Event}

/-- What a call opened is what it closed and what it has open. -/
def Balanced (thread : Thread) : Prop :=
  (thread.closes ++ thread.stage.held).Perm thread.opens

/-- What a call has open is its own, and nobody has the number that it is about
to close again. -/
structure Owned (state : TableState) : Prop where
  held : forall thread number, number ∈ (state.threads thread).stage.held ->
    state.owner number = some thread
  nodup : forall thread, (state.threads thread).stage.held.Nodup
  ending : forall thread fd, (state.threads thread).stage = .ending fd -> state.owner fd = none
  stolen : state.stolen = false

/-- Only one thread goes on, and it takes nothing away from the others. -/
theorem Owned.change (owned : Owned state) (thread : Nat)
    (others : forall other, other ≠ thread -> next.threads other = state.threads other)
    (kept : forall other number, other ≠ thread -> state.owner number = some other ->
      next.owner number = some other)
    (clear : forall other fd, other ≠ thread -> (state.threads other).stage = .ending fd ->
      next.owner fd = none)
    (held : forall number, number ∈ (next.threads thread).stage.held ->
      next.owner number = some thread)
    (nodup : (next.threads thread).stage.held.Nodup)
    (ending : forall fd, (next.threads thread).stage = .ending fd -> next.owner fd = none)
    (stolen : next.stolen = false) : Owned next where
  held other number inside := by
    by_cases same : other = thread
    · subst same
      exact held number inside
    · rw [others other same] at inside
      exact kept other number same (owned.held other number inside)
  nodup other := by
    by_cases same : other = thread
    · subst same
      exact nodup
    · rw [others other same]
      exact owned.nodup other
  ending other fd ends := by
    by_cases same : other = thread
    · subst same
      exact ending fd ends
    · rw [others other same] at ends
      exact clear other fd same ends
  stolen := stolen

/-- The thread opens a free number. -/
theorem Owned.acquire (owned : Owned state) (free : state.owner number = none)
    (clear : forall other, (state.threads other).stage ≠ .ending number) {stage : Stage}
    (held : forall other, other ∈ stage.held ->
      other = number ∨ other ∈ (state.threads thread).stage.held)
    (nodup : stage.held.Nodup) (goesOn : forall fd, stage ≠ .ending fd) :
    Owned ((state.acquire thread number).goTo thread stage) := by
  have owner : ((state.acquire thread number).goTo thread stage).owner =
      Function.update state.owner number (some thread) := rfl
  have here : (((state.acquire thread number).goTo thread stage).threads thread).stage = stage := by
    simp [goTo]
  refine owned.change thread ?_ ?_ ?_ ?_ ?_ ?_ owned.stolen
  · intro other apart
    simp [goTo, TableState.acquire, apart]
  · intro other held apart known
    have different : held ≠ number := by
      rintro rfl
      rw [free] at known
      cases known
    rw [owner, Function.update_of_ne different, known]
  · intro other fd apart ends
    have different : fd ≠ number := by
      rintro rfl
      exact clear other ends
    rw [owner, Function.update_of_ne different, owned.ending other fd ends]
  · intro other inside
    rw [here] at inside
    rw [owner]
    rcases held other inside with rfl | mine
    · exact Function.update_self ..
    · by_cases same : other = number
      · rw [same, Function.update_self]
      · rw [Function.update_of_ne same, owned.held thread other mine]
  · rw [here]
    exact nodup
  · intro fd ends
    rw [here] at ends
    exact absurd ends (goesOn fd)

/-- The thread closes a number that is its own, or that nobody has. -/
theorem Owned.release (owned : Owned state)
    (mine : state.owner number = some thread ∨ state.owner number = none)
    (owner : next.owner = Function.update state.owner number none)
    (others : forall other, other ≠ thread -> next.threads other = state.threads other)
    (stolen : next.stolen = (state.stolen || (state.owner number).any (· ≠ thread)))
    (held : forall other, other ∈ (next.threads thread).stage.held ->
      other ≠ number ∧ other ∈ (state.threads thread).stage.held)
    (nodup : (next.threads thread).stage.held.Nodup)
    (ending : forall fd, (next.threads thread).stage = .ending fd -> fd = number) : Owned next := by
  refine owned.change thread others ?_ ?_ ?_ nodup ?_ ?_
  · intro other held apart known
    have different : held ≠ number := by
      rintro rfl
      rcases mine with mine | nobody
      · exact apart (Option.some.inj (known.symm.trans mine))
      · rw [nobody] at known
        cases known
    rw [owner, Function.update_of_ne different, known]
  · intro other fd apart ends
    rw [owner]
    by_cases same : fd = number
    · rw [same, Function.update_self]
    · rw [Function.update_of_ne same, owned.ending other fd ends]
  · intro other inside
    obtain ⟨different, before⟩ := held other inside
    rw [owner, Function.update_of_ne different, owned.held thread other before]
  · intro fd ends
    rw [owner, ending fd ends, Function.update_self]
  · rw [stolen, owned.stolen]
    rcases mine with mine | nobody
    · simp [mine]
    · simp [nobody]

/-- The thread does nothing to the table. -/
theorem Owned.calm (owned : Owned state) (owner : next.owner = state.owner)
    (others : forall other, other ≠ thread -> next.threads other = state.threads other)
    (stolen : next.stolen = state.stolen)
    (held : (next.threads thread).stage.held = (state.threads thread).stage.held ∨
      (next.threads thread).stage.held = [])
    (goesOn : forall fd, (next.threads thread).stage ≠ .ending fd) : Owned next := by
  refine owned.change thread others ?_ ?_ ?_ ?_ (fun fd ends => absurd ends (goesOn fd))
    (stolen.trans owned.stolen)
  · exact fun _ _ _ known => owner ▸ known
  · exact fun other fd _ ends => owner ▸ owned.ending other fd ends
  · intro number inside
    rcases held with same | none
    · rw [owner]
      exact owned.held thread number (same ▸ inside)
    · rw [none] at inside
      cases inside
  · rcases held with same | none
    · exact same ▸ owned.nodup thread
    · simp [none]

theorem release_goTo_other {other : Nat} (stage : Stage) (apart : other ≠ thread) :
    ((state.release thread number).goTo thread stage).threads other = state.threads other := by
  simp [goTo, TableState.release, apart]

theorem release_finish_other {other : Nat} (apart : other ≠ thread) :
    ((state.release thread number).finish thread).threads other = state.threads other := by
  simp [finish, TableState.release, apart]

theorem Owned.go (owned : Owned state) {answer : Option Nat}
    (clear : state.KeepsClear (.go thread answer)) : Owned (state.go thread answer) := by
  have others : forall stage, forall other, other ≠ thread ->
      (state.goTo thread stage).threads other = state.threads other :=
    fun _ _ apart => Function.update_of_ne apart _ _
  have held := owned.held thread
  have nodup := owned.nodup thread
  have ending := owned.ending thread
  unfold TableState.go
  unfold KeepsClear newNumber at clear
  cases stage : (state.threads thread).stage with
  | idle => exact owned
  | root reader levels =>
      simp only [stage] at clear
      cases answer with
      | none =>
          refine owned.calm rfl (fun _ apart => Function.update_of_ne apart _ _) rfl (.inr ?_) ?_
          all_goals simp [finish, Thread.idle, Stage.held]
      | some fd =>
          simp only
          split
          · rename_i free
            refine owned.acquire free (clear fd rfl) ?_ ?_ ?_
            all_goals simp [Stage.held]
          · exact owned
  | opened reader levels fd =>
      simp only [stage] at clear held nodup
      cases levels with
      | zero =>
          cases answer <;>
          · refine owned.calm rfl (others _) rfl (.inl ?_) ?_
            all_goals simp [goTo, stage, Stage.held]
      | succ levels =>
          cases answer with
          | none =>
              refine owned.calm rfl (others _) rfl (.inl ?_) ?_
              all_goals simp [goTo, stage, Stage.held]
          | some fd2 =>
              simp only
              split
              · rename_i free
                have apart : fd ≠ fd2 := by
                  rintro rfl
                  rw [held fd List.mem_cons_self] at free
                  cases free
                refine owned.acquire free (clear fd2 rfl) ?_ ?_ ?_
                all_goals simp [stage, Stage.held, apart]
              · exact owned
  | leaving reader levels fd fd2 =>
      rw [stage] at held nodup
      have mine := held fd List.mem_cons_self
      cases fd2 with
      | none =>
          refine owned.release (.inl mine) rfl (fun _ apart => release_finish_other apart) rfl ?_ ?_ ?_
          all_goals simp [finish, Thread.idle, Stage.held]
      | some fd2 =>
          have apart : fd2 ≠ fd := by
            rintro rfl
            simp [Stage.held] at nodup
          refine owned.release (.inl mine) rfl (fun _ apart => release_goTo_other _ apart) rfl ?_ ?_ ?_
          all_goals simp [goTo, stage, Stage.held, apart]
  | reading reader fd =>
      rw [stage] at held
      cases answer with
      | none =>
          refine owned.release (.inl (held fd List.mem_cons_self)) rfl (fun _ apart => release_goTo_other _ apart) rfl ?_ ?_ ?_
          all_goals simp [goTo, Stage.held]
      | some entry => exact owned
  | failed reader fd =>
      rw [stage] at held
      have mine := held fd List.mem_cons_self
      cases reader with
      | getChild =>
          refine owned.release (.inl mine) rfl (fun _ apart => release_finish_other apart) rfl ?_ ?_ ?_
          all_goals simp [finish, Thread.idle, Stage.held]
      | fillEntry =>
          refine owned.release (.inl mine) rfl (fun _ apart => release_goTo_other _ apart) rfl ?_ ?_ ?_
          all_goals simp [goTo, Stage.held]
  | ending fd =>
      refine owned.release (.inr (ending fd stage)) rfl (fun _ apart => release_finish_other apart) rfl ?_ ?_ ?_
      all_goals simp [finish, Thread.idle, Stage.held]

/-- A step that opens no number that is about to be closed again. -/
theorem Owned.step (owned : Owned state) (clear : state.KeepsClear event)
    (result : state.step event = .ok next) : Owned next := by
  cases event with
  | begin thread reader levels =>
      simp only [TableState.step] at result
      split at result
      · cases result
        refine owned.change thread ?_ ?_ ?_ ?_ ?_ ?_ owned.stolen
        · exact fun other apart => Function.update_of_ne apart _ _
        · exact fun _ _ _ known => known
        · exact fun other fd _ ends => owned.ending other fd ends
        all_goals simp [Stage.held]
      · cases result
        exact owned
  | otherOpen thread number =>
      simp only [TableState.step] at result
      split at result
      · rename_i free
        cases result
        have unused := clear number rfl
        refine ⟨fun other held inside => ?_, owned.nodup, fun other fd ends => ?_, owned.stolen⟩
        · have known := owned.held other held inside
          have different : held ≠ number := by
            rintro rfl
            rw [free.2] at known
            cases known
          exact (Function.update_of_ne different _ _).trans known
        · have different : fd ≠ number := by
            rintro rfl
            exact unused other ends
          exact (Function.update_of_ne different _ _).trans (owned.ending other fd ends)
      · cases result
        exact owned
  | otherClose thread number =>
      simp only [TableState.step] at result
      split at result
      · rename_i mine
        cases result
        refine ⟨fun other held inside => ?_, owned.nodup, fun other fd ends => ?_, owned.stolen⟩
        · have known := owned.held other held inside
          have different : held ≠ number := by
            rintro rfl
            obtain rfl := Option.some.inj (known.symm.trans mine.2)
            rw [mine.1] at inside
            cases inside
          exact (Function.update_of_ne different _ _).trans known
        · by_cases same : fd = number
          · exact same ▸ Function.update_self ..
          · exact (Function.update_of_ne same _ _).trans (owned.ending other fd ends)
      · cases result
        exact owned
  | go thread answer =>
      cases result
      exact owned.go clear

theorem owned_init : Owned init :=
  ⟨fun _ _ impossible => (nomatch impossible), fun _ => List.nodup_nil,
    fun _ _ impossible => (nomatch impossible), rfl⟩

/-- As long as no other `open` comes in between, no number of another thread is
closed. -/
theorem never_stolen (events : List Event) (clear : EachStep step KeepsClear init events) :
    Throughout step (fun state => state.stolen = false) (fun _ => False) init events := by
  have enough : forall state, Owned state -> state.stolen = false := fun _ owned => owned.stolen
  exact Throughout.ofInvariant enough (fun _ _ _ owned clear result => owned.step clear result)
    (fun _ _ fault => nomatch fault) owned_init clear

/-! ## Calls that close a number twice -/

end TableState

/-- The call goes on to close a number that it has closed already. -/
def Stage.Doomed : Stage -> Prop
  | .reading _ _ => True
  | .failed .fillEntry _ => True
  | .ending _ => True
  | _ => False

namespace TableState

variable {state next : TableState} {thread number : Nat} {answer : Option Nat} {event : Event}

/-- Where the thread is after a step, and what it leaves when it returns. -/
inductive Went (state : TableState) (thread : Nat) (next : TableState) : Prop
  | on (same : next.finished = state.finished) (balanced : Balanced (next.threads thread))
      (doomed : (state.threads thread).stage.Doomed -> (next.threads thread).stage.Doomed)
  | over (log : Thread) (more : next.finished = log :: state.finished)
      (idle : next.threads thread = .idle)
      (closes : log.closes.Perm log.opens ↔ ¬ (state.threads thread).stage.Doomed)

theorem Balanced.opens {call : Thread} {stage : Stage} (balanced : Balanced call)
    (held : stage.held.Perm (call.stage.held ++ [number])) :
    Balanced ⟨stage, call.opens ++ [number], call.closes⟩ := by
  have one := held.append_left call.closes
  have two := balanced.append_right [number]
  rw [List.append_assoc] at two
  exact one.trans two

theorem Balanced.closes {call : Thread} {stage : Stage} (balanced : Balanced call)
    (held : call.stage.held.Perm (number :: stage.held)) :
    Balanced ⟨stage, call.opens, call.closes ++ [number]⟩ := by
  have one := (held.symm.append_left call.closes).trans balanced
  unfold Balanced
  rw [List.append_assoc]
  exact one

/-- A call that has nothing open any more has closed what it opened. -/
theorem Balanced.over {call : Thread} (balanced : Balanced call) (none : call.stage.held = []) :
    call.closes.Perm call.opens := by
  unfold Balanced at balanced
  rwa [none, List.append_nil] at balanced

theorem Went.goTo {call : Thread} (next : TableState) (here : next.threads thread = call)
    (same : next.finished = state.finished) (balanced : Balanced call)
    (doomed : (state.threads thread).stage.Doomed -> call.stage.Doomed) :
    Went state thread next :=
  .on same (here ▸ balanced) (here ▸ doomed)

theorem acquire_goTo_self (stage : Stage) :
    ((state.acquire thread number).goTo thread stage).threads thread =
      ⟨stage, (state.threads thread).opens ++ [number], (state.threads thread).closes⟩ := by
  simp [goTo, acquire]

theorem release_goTo_self (stage : Stage) :
    ((state.release thread number).goTo thread stage).threads thread =
      ⟨stage, (state.threads thread).opens, (state.threads thread).closes ++ [number]⟩ := by
  simp [goTo, release]

theorem goTo_self (stage : Stage) : (state.goTo thread stage).threads thread =
    ⟨stage, (state.threads thread).opens, (state.threads thread).closes⟩ := by
  simp [goTo]

theorem release_finish : ((state.release thread number).finish thread).finished =
    ⟨(state.threads thread).stage, (state.threads thread).opens,
      (state.threads thread).closes ++ [number]⟩ :: state.finished := by
  simp [finish, release]

/-- The last `close` is of the only descriptor left. -/
theorem Went.last (balanced : Balanced (state.threads thread))
    (held : (state.threads thread).stage.held = [number])
    (sane : ¬ (state.threads thread).stage.Doomed) :
    Went state thread ((state.release thread number).finish thread) := by
  refine .over _ release_finish (Function.update_self ..) (iff_of_true ?_ sane)
  have closed : Balanced ⟨.idle, (state.threads thread).opens,
      (state.threads thread).closes ++ [number]⟩ :=
    balanced.closes (by rw [held]; exact .refl _)
  exact closed.over rfl

theorem go_went (balanced : Balanced (state.threads thread)) (answer : Option Nat) :
    Went state thread (state.go thread answer) := by
  unfold TableState.go
  cases stage : (state.threads thread).stage with
  | idle => exact .on rfl balanced id
  | root reader levels =>
      cases answer with
      | none =>
          refine .over (state.threads thread) rfl (Function.update_self ..) (iff_of_true ?_ ?_)
          · exact balanced.over (by simp [stage, Stage.held])
          · simp [stage, Stage.Doomed]
      | some fd =>
          simp only
          split
          · refine .goTo _ (acquire_goTo_self _) rfl (balanced.opens ?_) ?_
            all_goals simp [stage, Stage.held, Stage.Doomed]
          · exact .on rfl balanced id
  | opened reader levels fd =>
      have sane : ¬ (state.threads thread).stage.Doomed := by simp [stage, Stage.Doomed]
      have still : forall next : Stage, next.held = [fd] ->
          Balanced ⟨next, (state.threads thread).opens, (state.threads thread).closes⟩ := by
        intro next held
        unfold Balanced at balanced ⊢
        rw [stage] at balanced
        rw [held]
        exact balanced
      cases levels with
      | zero =>
          cases answer with
          | none => exact .goTo _ (goTo_self _) rfl (still _ rfl) fun doomed => absurd doomed sane
          | some entry =>
              exact .goTo _ (goTo_self _) rfl (still _ rfl) fun doomed => absurd doomed sane
      | succ levels =>
          cases answer with
          | none => exact .goTo _ (goTo_self _) rfl (still _ rfl) fun doomed => absurd doomed sane
          | some fd2 =>
              simp only
              split
              · refine .goTo _ (acquire_goTo_self _) rfl (balanced.opens ?_) ?_
                all_goals simp [stage, Stage.held, Stage.Doomed]
              · exact .on rfl balanced id
  | leaving reader levels fd fd2 =>
      have sane : ¬ (state.threads thread).stage.Doomed := by simp [stage, Stage.Doomed]
      cases fd2 with
      | none => exact .last balanced (by simp [stage, Stage.held]) sane
      | some fd2 =>
          refine .goTo _ (release_goTo_self _) rfl (balanced.closes ?_) ?_
          all_goals simp [stage, Stage.held, Stage.Doomed]
  | reading reader fd =>
      cases answer with
      | none =>
          refine .goTo _ (release_goTo_self _) rfl (balanced.closes ?_) ?_
          all_goals simp [stage, Stage.held, Stage.Doomed]
      | some entry => exact .on rfl balanced id
  | failed reader fd =>
      cases reader with
      | getChild =>
          exact .last balanced (by simp [stage, Stage.held]) (by simp [stage, Stage.Doomed])
      | fillEntry =>
          refine .goTo _ (release_goTo_self _) rfl (balanced.closes ?_) ?_
          all_goals simp [stage, Stage.held, Stage.Doomed]
  | ending fd =>
      have closed := balanced.over (by simp [stage, Stage.held])
      refine .over _ release_finish (Function.update_self ..) (iff_of_false (fun again => ?_) ?_)
      · have lengths := (again.trans closed.symm).length_eq
        simp at lengths
      · simp [stage, Stage.Doomed]

theorem go_other {other : Nat} (apart : other ≠ thread) (answer : Option Nat) :
    (state.go thread answer).threads other = state.threads other := by
  unfold TableState.go
  split <;> (try split) <;> (try split) <;>
    simp [goTo, acquire, release, finish, apart]

/-- Every call closes what it opened, up to what it has open. -/
def Accounted (state : TableState) : Prop :=
  forall thread, Balanced (state.threads thread)

/-- The calls that are over have closed every descriptor they opened once. -/
def ClosedOnce (state : TableState) : Prop :=
  forall thread, thread ∈ state.finished -> thread.closes.Perm thread.opens

/-- What a step can do to the calls. -/
theorem step_cases (result : state.step event = .ok next) :
    (next.threads = state.threads ∧ next.finished = state.finished) ∨
    (Exists fun thread => Exists fun reader => Exists fun levels =>
      next.threads = Function.update state.threads thread ⟨.root reader levels, [], []⟩ ∧
        (state.threads thread).stage = .idle ∧ next.finished = state.finished) ∨
    Exists fun thread => Exists fun answer =>
      event = .go thread answer ∧ next = state.go thread answer := by
  cases event with
  | begin thread reader levels =>
      simp only [TableState.step] at result
      split at result <;> cases result
      · rename_i idle
        exact .inr (.inl ⟨thread, reader, levels, rfl, idle, rfl⟩)
      · exact .inl ⟨rfl, rfl⟩
  | go thread answer =>
      cases result
      exact .inr (.inr ⟨thread, answer, rfl, rfl⟩)
  | otherOpen thread number =>
      simp only [TableState.step] at result
      split at result <;> cases result <;> exact .inl ⟨rfl, rfl⟩
  | otherClose thread number =>
      simp only [TableState.step] at result
      split at result <;> cases result <;> exact .inl ⟨rfl, rfl⟩

theorem Accounted.step (accounted : Accounted state) (result : state.step event = .ok next) :
    Accounted next := by
  intro other
  rcases step_cases result with
    ⟨threads, -⟩ | ⟨thread, reader, levels, threads, -, -⟩ | ⟨thread, answer, -, rfl⟩
  · rw [threads]
    exact accounted other
  · rw [threads]
    by_cases same : other = thread
    · rw [same, Function.update_self]
      exact .refl _
    · rw [Function.update_of_ne same]
      exact accounted other
  · by_cases same : other = thread
    · subst same
      rcases go_went (accounted other) answer with ⟨-, balanced, -⟩ | ⟨-, -, idle, -⟩
      · exact balanced
      · rw [idle]
        exact .refl _
    · rw [go_other same]
      exact accounted other

theorem go_doomed_iff (sane : ¬ (state.threads thread).stage.Doomed) :
    ((state.go thread answer).threads thread).stage.Doomed ↔
      ¬ state.NoStream (.go thread answer) := by
  unfold NoStream TableState.go
  cases stage : (state.threads thread).stage with
  | idle => simp [stage, Stage.Doomed]
  | root reader levels =>
      cases answer with
      | none => simp [finish, stage, Thread.idle, Stage.Doomed]
      | some fd =>
          simp only
          split <;> simp [goTo, stage, Stage.Doomed]
  | opened reader levels fd =>
      cases levels with
      | zero => cases answer <;> cases reader <;> simp [goTo, stage, Stage.Doomed]
      | succ levels =>
          cases answer with
          | none => simp [goTo, stage, Stage.Doomed]
          | some fd2 =>
              simp only
              split <;> simp [goTo, stage, Stage.Doomed]
  | leaving reader levels fd fd2 =>
      cases fd2 <;> simp [goTo, finish, stage, Thread.idle, Stage.Doomed]
  | reading reader fd =>
      rw [stage] at sane
      exact absurd trivial sane
  | failed reader fd =>
      rw [stage] at sane
      cases reader with
      | getChild => simp [finish, stage, Thread.idle, Stage.Doomed]
      | fillEntry => exact absurd trivial sane
  | ending fd =>
      rw [stage] at sane
      exact absurd trivial sane

/-- No call is about to close a number twice, and none has done it. -/
structure Clean (state : TableState) : Prop where
  sane : forall thread, ¬ (state.threads thread).stage.Doomed
  once : ClosedOnce state

theorem Clean.step (clean : Clean state) (accounted : Accounted state)
    (noStream : state.NoStream event) (result : state.step event = .ok next) : Clean next := by
  rcases step_cases result with
    ⟨threads, finished⟩ | ⟨thread, reader, levels, threads, -, finished⟩ |
      ⟨thread, answer, rfl, rfl⟩
  · exact ⟨fun other => threads ▸ clean.sane other, fun log member =>
      clean.once log (finished ▸ member)⟩
  · refine ⟨fun other => ?_, fun log member => clean.once log (finished ▸ member)⟩
    rw [threads]
    by_cases same : other = thread
    · rw [same, Function.update_self]
      exact id
    · rw [Function.update_of_ne same]
      exact clean.sane other
  · have still : ¬ ((state.go thread answer).threads thread).stage.Doomed := fun doomed =>
      (go_doomed_iff (clean.sane thread)).mp doomed noStream
    refine ⟨fun other => ?_, fun log member => ?_⟩
    · by_cases same : other = thread
      · exact same ▸ still
      · rw [go_other same]
        exact clean.sane other
    · rcases go_went (accounted thread) answer with ⟨same, -, -⟩ | ⟨last, more, -, closes⟩
      · exact clean.once log (same ▸ member)
      · rw [more] at member
        rcases List.mem_cons.mp member with rfl | member
        · exact closes.mpr (clean.sane thread)
        · exact clean.once log member

/-- A call that closes a number twice is on its way, or was there. -/
def Spoiled (state : TableState) : Prop :=
  (Exists fun thread => (state.threads thread).stage.Doomed) ∨ ¬ ClosedOnce state

theorem Spoiled.step (spoiled : Spoiled state) (accounted : Accounted state)
    (result : state.step event = .ok next) : Spoiled next := by
  rcases step_cases result with
    ⟨threads, finished⟩ | ⟨thread, reader, levels, threads, idle, finished⟩ |
      ⟨thread, answer, rfl, rfl⟩
  · unfold Spoiled ClosedOnce
    rw [threads, finished]
    exact spoiled
  · rcases spoiled with ⟨other, doomed⟩ | bad
    · have apart : other ≠ thread := by
        rintro rfl
        rw [idle] at doomed
        exact doomed
      refine .inl ⟨other, ?_⟩
      rw [threads, Function.update_of_ne apart]
      exact doomed
    · exact .inr fun once => bad fun log member => once log (finished ▸ member)
  · rcases go_went (accounted thread) answer with ⟨same, -, goesOn⟩ | ⟨last, more, -, closes⟩
    · rcases spoiled with ⟨other, doomed⟩ | bad
      · refine .inl ⟨other, ?_⟩
        by_cases equal : other = thread
        · subst equal
          exact goesOn doomed
        · rw [go_other equal]
          exact doomed
      · exact .inr fun once => bad fun log member => once log (same ▸ member)
    · rcases spoiled with ⟨other, doomed⟩ | bad
      · by_cases equal : other = thread
        · subst equal
          exact .inr fun once => closes.mp (once last (more ▸ List.mem_cons_self)) doomed
        · refine .inl ⟨other, ?_⟩
          rw [go_other equal]
          exact doomed
      · exact .inr fun once => bad fun log member =>
          once log (more ▸ List.mem_cons_of_mem _ member)

/-- Once a call is bound to close a number twice, a run that ends with all calls
over has one that did. -/
theorem Spoiled.run {events : List Event} {final : TableState} (spoiled : Spoiled state)
    (accounted : Accounted state) (result : events.foldlM TableState.step state = .ok final)
    (idle : forall thread, (final.threads thread).stage = .idle) : ¬ ClosedOnce final := by
  induction events generalizing state with
  | nil =>
      cases result
      rcases spoiled with ⟨thread, doomed⟩ | bad
      · rw [idle thread] at doomed
        exact absurd doomed id
      · exact bad
  | cons event events inductionHypothesis =>
      rw [List.foldlM_cons] at result
      obtain ⟨next, taken, later⟩ := bind_eq_ok.mp result
      exact inductionHypothesis (spoiled.step accounted taken) (accounted.step taken) later

/-- A run that ends with all calls over and every descriptor closed once had no
read with a directory stream. -/
theorem noStream_of_closedOnce {events : List Event} {final : TableState}
    (accounted : Accounted state) (sane : forall thread, ¬ (state.threads thread).stage.Doomed)
    (result : events.foldlM TableState.step state = .ok final)
    (idle : forall thread, (final.threads thread).stage = .idle) (once : ClosedOnce final) :
    EachStep TableState.step NoStream state events := by
  induction events generalizing state with
  | nil => trivial
  | cons event events inductionHypothesis =>
      rw [List.foldlM_cons] at result
      obtain ⟨next, taken, later⟩ := bind_eq_ok.mp result
      have accounted := accounted.step taken
      have unspoiled : ¬ Spoiled next := fun spoiled => spoiled.run accounted later idle once
      rw [EachStep, taken]
      refine ⟨?_, inductionHypothesis accounted (fun thread doomed =>
        unspoiled (.inl ⟨thread, doomed⟩)) later⟩
      cases event with
      | go thread answer =>
          cases taken
          by_contra stream
          exact unspoiled (.inl ⟨thread, (go_doomed_iff (sane thread)).mpr stream⟩)
      | begin thread reader levels => trivial
      | otherOpen thread number => trivial
      | otherClose thread number => trivial

/-- A run in which no read gets a directory stream closes its own descriptors
once, and a run that ends with all calls over does so only if no read got one. -/
theorem closesOwnOnce (events : List Event) :
    (EachStep TableState.step NoStream init events ->
      Throughout TableState.step ClosesOwnOnce (fun _ => False) init events) ∧
    forall final, events.foldlM TableState.step init = .ok final ->
      (forall thread, (final.threads thread).stage = .idle) ->
      Throughout TableState.step ClosesOwnOnce (fun _ => False) init events ->
      EachStep TableState.step NoStream init events := by
  have accounted : Accounted init := fun _ => .refl _
  constructor
  · have begins : Owned init ∧ Accounted init ∧ Clean init :=
      ⟨owned_init, accounted, fun _ => id, fun _ impossible => nomatch impossible⟩
    have enough : forall state, Owned state ∧ Accounted state ∧ Clean state ->
        ClosesOwnOnce state := fun _ all => ⟨all.1.stolen, all.2.2.once⟩
    refine Throughout.ofInvariant enough ?_ (fun _ _ fault => nomatch fault) begins
    rintro state event next ⟨owned, accounted, clean⟩ noStream result
    have clear : state.KeepsClear event := fun number _ thread ends => by
      have sane := clean.sane thread
      rw [ends] at sane
      exact sane trivial
    exact ⟨owned.step clear result, accounted.step result, clean.step accounted noStream result⟩
  · intro final result idle throughout
    exact noStream_of_closedOnce accounted (fun _ => id) result idle (throughout.final result).2

/-- A read of the root that fails in `fdopendir`, next to another thread. -/
theorem closesOwnOnce_failed : Throughout TableState.step ClosesOwnOnce (fun _ => False) init
    [.begin 1 .getChild 0, .go 1 (some 3), .otherOpen 2 4, .go 1 none, .go 1 none] :=
  (closesOwnOnce _).1 ⟨trivial, fun _ _ stage => (nomatch stage), trivial,
    fun _ _ stage => by cases stage; exact ⟨rfl, rfl⟩, fun _ _ stage => (nomatch stage), trivial⟩

/-- Between `closedir` and `close` another thread gets the number, and loses it. -/
theorem steals_of_stream : Exists fun state =>
    [Event.begin 1 .getChild 0, .go 1 (some 3), .go 1 (some 0), .go 1 none, .otherOpen 2 3,
      .go 1 none].foldlM TableState.step init = .ok state ∧
      state.stolen = true ∧ ¬ ClosedOnce state := by
  refine ⟨_, rfl, by decide, fun once => ?_⟩
  have lengths := (once _ List.mem_cons_self).length_eq
  exact absurd lengths (by decide)

end TableState

end DirectoryReads
end Mcachefs
