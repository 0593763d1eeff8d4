import Mathlib.Logic.Basic
import Mathlib.Order.Nat

namespace Mcachefs
namespace Library

/-!
# Runs of a deterministic system with faults

A system is a step function: a state and an event give the next state or a
fault, after which nothing more happens.  The choices of a scheduler and the
answers of an environment are part of the event, so that a statement about
every list of events is a statement about every interleaving.  A step that is
not a function is a relation between states; see the last section.

Two predicates speak of a whole run.  `Throughout` says that every state on
the way satisfies a property and that a fault, if there is one, is of an
allowed kind; `EachStep` says that every event of the run is taken in a state
that suits it.  An invariant connects the two.
-/

variable {State Event Fault : Type*}

/-- Every state of the run from `state` satisfies `good`, and if the run ends
in a fault, the fault satisfies `allowed`. -/
def Throughout (step : State -> Event -> Except Fault State) (good : State -> Prop)
    (allowed : Fault -> Prop) : State -> List Event -> Prop
  | state, [] => good state
  | state, event :: events =>
      good state ∧
        match step state event with
        | .ok next => Throughout step good allowed next events
        | .error fault => allowed fault

/-- Every event of the run from `state` meets `condition` where it happens. -/
def EachStep (step : State -> Event -> Except Fault State)
    (condition : State -> Event -> Prop) : State -> List Event -> Prop
  | _, [] => True
  | state, event :: events =>
      condition state event ∧
        match step state event with
        | .ok next => EachStep step condition next events
        | .error _ => True

section Invariant

variable {step : State -> Event -> Except Fault State} {good : State -> Prop}
  {allowed : Fault -> Prop} {condition requirement : State -> Event -> Prop}
  {invariant : State -> Prop}

/-- The invariant rule: a property that follows from an invariant holds
throughout every run whose steps meet the condition that keeps the invariant. -/
theorem Throughout.ofInvariant
    (enough : forall state, invariant state -> good state)
    (preserved : forall state event next, invariant state -> condition state event ->
      step state event = .ok next -> invariant next)
    (faults : forall state event fault, invariant state -> condition state event ->
      step state event = .error fault -> allowed fault)
    {state : State} {events : List Event} (start : invariant state)
    (conditions : EachStep step condition state events) :
    Throughout step good allowed state events := by
  induction events generalizing state with
  | nil => exact enough state start
  | cons event events inductionHypothesis =>
      obtain ⟨here, later⟩ := conditions
      refine ⟨enough state start, ?_⟩
      cases result : step state event with
      | ok next =>
          rw [result] at later
          exact inductionHypothesis (preserved state event next start here result) later
      | error fault => exact faults state event fault start here result

/-- If a step that misses the condition leads out of the good states, then the
good runs are exactly those whose steps all meet the condition. -/
theorem throughout_iff_eachStep
    (enough : forall state, invariant state -> good state)
    (preserved : forall state event next, invariant state -> condition state event ->
      step state event = .ok next -> invariant next)
    (faults : forall state event fault, invariant state -> condition state event ->
      step state event = .error fault -> allowed fault)
    (escape : forall state event, invariant state -> ¬ condition state event ->
      Exists fun next => step state event = .ok next ∧ ¬ good next)
    {state : State} (events : List Event) (start : invariant state) :
    Throughout step good allowed state events ↔ EachStep step condition state events := by
  refine ⟨?_, Throughout.ofInvariant enough preserved faults start⟩
  intro throughout
  induction events generalizing state with
  | nil => trivial
  | cons event events inductionHypothesis =>
      obtain ⟨-, later⟩ := throughout
      by_cases here : condition state event
      · refine ⟨here, ?_⟩
        cases result : step state event with
        | ok next =>
            rw [result] at later
            exact inductionHypothesis (preserved state event next start here result) later
        | error fault => trivial
      · obtain ⟨next, result, bad⟩ := escape state event start here
        rw [result] at later
        cases events with
        | nil => exact absurd later bad
        | cons _ _ => exact absurd later.1 bad

/-- An invariant that a condition keeps also discharges a stronger requirement
on every step. -/
theorem EachStep.ofInvariant
    (preserved : forall state event next, invariant state -> condition state event ->
      step state event = .ok next -> invariant next)
    (enough : forall state event, invariant state -> condition state event ->
      requirement state event)
    {state : State} {events : List Event} (start : invariant state)
    (conditions : EachStep step condition state events) :
    EachStep step requirement state events := by
  induction events generalizing state with
  | nil => trivial
  | cons event events inductionHypothesis =>
      obtain ⟨here, later⟩ := conditions
      refine ⟨enough state event start here, ?_⟩
      cases result : step state event with
      | ok next =>
          rw [result] at later
          exact inductionHypothesis (preserved state event next start here result) later
      | error fault => trivial

/-- A condition that holds of these events in every state holds at each step. -/
theorem EachStep.ofAll {events : List Event}
    (all : forall event, event ∈ events -> forall state, condition state event) (state : State) :
    EachStep step condition state events := by
  induction events generalizing state with
  | nil => trivial
  | cons event events inductionHypothesis =>
      refine ⟨all event List.mem_cons_self state, ?_⟩
      split
      · exact inductionHypothesis (fun other member => all other (List.mem_cons_of_mem _ member)) _
      · trivial

/-- One run goes on where another has ended. -/
theorem EachStep.append {state middle : State} {events more : List Event}
    (first : EachStep step condition state events)
    (result : events.foldlM step state = .ok middle)
    (rest : EachStep step condition middle more) :
    EachStep step condition state (events ++ more) := by
  induction events generalizing state with
  | nil =>
      cases result
      exact rest
  | cons event events inductionHypothesis =>
      obtain ⟨here, later⟩ := first
      refine ⟨here, ?_⟩
      rw [List.foldlM_cons] at result
      cases taken : step state event with
      | ok next =>
          rw [taken] at result later
          exact inductionHypothesis later result
      | error fault => trivial

/-- The first step of a run that goes on. -/
theorem eachStep_cons {state next : State} {event : Event} {events : List Event}
    (taken : step state event = .ok next) :
    EachStep step condition state (event :: events) ↔
      condition state event ∧ EachStep step condition next events := by
  rw [EachStep, taken]

/-- The last state of a run is one of its states. -/
theorem Throughout.final {state final : State} {events : List Event}
    (throughout : Throughout step good allowed state events)
    (result : events.foldlM step state = .ok final) : good final := by
  induction events generalizing state with
  | nil =>
      cases result
      exact throughout
  | cons event events inductionHypothesis =>
      obtain ⟨-, later⟩ := throughout
      rw [List.foldlM_cons] at result
      cases taken : step state event with
      | ok next =>
          rw [taken] at result later
          exact inductionHypothesis later result
      | error fault =>
          rw [taken] at result
          cases result

end Invariant

/-! ## Loops with fuel

A loop of the source that need not end gets an amount of fuel.  It returns a
result when every amount from some point on gives that result.
-/

/-- The computation ends with this result. -/
def Returns {Result : Type*} (computation : Nat -> Except Fault Result) (result : Result) : Prop :=
  Exists fun enough => forall fuel, enough ≤ fuel -> computation fuel = .ok result

theorem Returns.unique {Result : Type*} {computation : Nat -> Except Fault Result}
    {one two : Result} (first : Returns computation one) (second : Returns computation two) :
    one = two := by
  obtain ⟨enough, first⟩ := first
  obtain ⟨more, second⟩ := second
  have same := (first (max enough more) (le_max_left _ _)).symm.trans
    (second (max enough more) (le_max_right _ _))
  exact Except.ok.inj same

/-- A loop that goes from one cursor to the next until there is none. -/
def iterate {State Fault Cursor : Type} (noFuel : Fault)
    (turn : Cursor -> State -> Except Fault (Option Cursor × State)) :
    (fuel : Nat) -> Cursor -> State -> Except Fault State
  | 0, _, _ => .error noFuel
  | fuel + 1, cursor, state => do
      match ← turn cursor state with
      | (none, state) => .ok state
      | (some cursor, state) => iterate noFuel turn fuel cursor state

/-- A sequence of two computations ends with a result when the first does and
the second does from there. -/
theorem bind_eq_ok {One Two : Type} {first : Except Fault One} {second : One -> Except Fault Two}
    {result : Two} : (first >>= second) = .ok result ↔
      Exists fun middle => first = .ok middle ∧ second middle = .ok result := by
  cases first with
  | error fault =>
      exact ⟨(nomatch ·), fun ⟨_, impossible, _⟩ => nomatch impossible⟩
  | ok middle => exact ⟨fun taken => ⟨middle, rfl, taken⟩, fun ⟨_, rfl, taken⟩ => taken⟩

/-- Only the second part of a result is kept. -/
theorem map_snd_eq_ok {One Two : Type} {computation : Except Fault (One × Two)} {result : Two} :
    Prod.snd <$> computation = .ok result ↔
      Exists fun value => computation = .ok (value, result) := by
  cases computation with
  | error fault => exact ⟨(nomatch ·), fun ⟨_, impossible⟩ => nomatch impossible⟩
  | ok both =>
      constructor
      · rintro same
        exact ⟨both.1, congrArg _ (Prod.ext rfl (Except.ok.inj same))⟩
      · rintro ⟨value, same⟩
        exact congrArg (Except.map Prod.snd) same

/-- The invariant rule for loops. -/
theorem iterate_ok {State Fault Cursor : Type} {noFuel : Fault}
    {turn : Cursor -> State -> Except Fault (Option Cursor × State)}
    {invariant : Cursor -> State -> Prop} {good : State -> Prop}
    (goesOn : forall cursor state other next, invariant cursor state ->
      turn cursor state = .ok (some other, next) -> invariant other next)
    (ends : forall cursor state next, invariant cursor state ->
      turn cursor state = .ok (none, next) -> good next)
    {fuel : Nat} {cursor : Cursor} {state final : State} (holds : invariant cursor state)
    (result : iterate noFuel turn fuel cursor state = .ok final) : good final := by
  induction fuel generalizing cursor state with
  | zero => cases result
  | succ fuel inductionHypothesis =>
      rw [iterate, bind_eq_ok] at result
      obtain ⟨⟨more, next⟩, taken, result⟩ := result
      cases more with
      | none =>
          cases result
          exact ends cursor state _ holds taken
      | some other =>
          exact inductionHypothesis (goesOn cursor state other next holds taken) result

/-- A loop over states that are seen as those of another loop. -/
theorem iterate_map {State Other Fault Cursor : Type} {noFuel : Fault} (view : Other -> State)
    {turn : Cursor -> State -> Except Fault (Option Cursor × State)}
    {finer : Cursor -> Other -> Except Fault (Option Cursor × Other)}
    (seen : forall cursor state, (finer cursor state).map (Prod.map id view) =
      turn cursor (view state)) (fuel : Nat) (cursor : Cursor) (state : Other) :
    (iterate noFuel finer fuel cursor state).map view =
      iterate noFuel turn fuel cursor (view state) := by
  induction fuel generalizing cursor state with
  | zero => rfl
  | succ fuel inductionHypothesis =>
      rw [iterate, iterate, ← seen]
      cases finer cursor state with
      | error fault => rfl
      | ok taken =>
          obtain ⟨more, next⟩ := taken
          cases more with
          | none => rfl
          | some other => exact inductionHypothesis other next

/-- The loop gets from one cursor and state to another cursor and state. -/
def Leads {State Fault Cursor : Type} (noFuel : Fault)
    (turn : Cursor -> State -> Except Fault (Option Cursor × State)) (cursor : Cursor)
    (state : State) (other : Cursor) (next : State) : Prop :=
  Exists fun turns => forall fuel,
    iterate noFuel turn (fuel + turns) cursor state = iterate noFuel turn fuel other next

section Leads

variable {State Fault Cursor : Type} {noFuel : Fault}
  {turn : Cursor -> State -> Except Fault (Option Cursor × State)} {one two three : Cursor}
  {state middle last : State}

theorem Leads.refl : Leads noFuel turn one state one state :=
  ⟨0, fun _ => rfl⟩

theorem Leads.trans (first : Leads noFuel turn one state two middle)
    (second : Leads noFuel turn two middle three last) : Leads noFuel turn one state three last := by
  obtain ⟨turns, first⟩ := first
  obtain ⟨more, second⟩ := second
  refine ⟨more + turns, fun fuel => ?_⟩
  rw [← Nat.add_assoc, first, second]

/-- One turn that goes on. -/
theorem Leads.step (goesOn : turn one state = .ok (some two, middle)) :
    Leads noFuel turn one state two middle := by
  refine ⟨1, fun fuel => ?_⟩
  rw [iterate, goesOn]
  rfl

/-- The loop ends where it leads to a turn that ends it. -/
theorem Leads.returns (leads : Leads noFuel turn one state two middle)
    (ends : turn two middle = .ok (none, last)) :
    Returns (fun fuel => iterate noFuel turn fuel one state) last := by
  obtain ⟨turns, leads⟩ := leads
  refine ⟨1 + turns, fun fuel enough => ?_⟩
  obtain ⟨rest, rfl⟩ := Nat.exists_eq_add_of_le enough
  have shape : 1 + turns + rest = (rest + 1) + turns := by omega
  simp only [shape, leads, iterate, ends]
  rfl

end Leads

section Ends

variable {State Fault Cursor : Type} {noFuel : Fault}
  {turn : Nat -> Cursor -> State -> Except Fault (Option Cursor × State)} {cursor : Cursor}
  {state next : State}

/-- A loop whose turns need fuel as well ends with a state. -/
inductive Ends (turn : Nat -> Cursor -> State -> Except Fault (Option Cursor × State)) :
    Cursor -> State -> State -> Prop
  | last {cursor : Cursor} {state next : State}
      (taken : Returns (turn · cursor state) (none, next)) : Ends turn cursor state next
  | turn {cursor other : Cursor} {state middle next : State}
      (taken : Returns (turn · cursor state) (some other, middle))
      (rest : Ends turn other middle next) : Ends turn cursor state next

theorem ends_iff_of_none {middle : State} (taken : Returns (turn · cursor state) (none, middle)) :
    Ends turn cursor state next ↔ next = middle := by
  constructor
  · intro ends
    cases ends with
    | last other => exact (Prod.mk.inj (other.unique taken)).2
    | turn other _ => cases (Prod.mk.inj (other.unique taken)).1
  · rintro rfl
    exact .last taken

theorem ends_iff_of_some {other : Cursor} {middle : State}
    (taken : Returns (turn · cursor state) (some other, middle)) :
    Ends turn cursor state next ↔ Ends turn other middle next := by
  constructor
  · intro ends
    cases ends with
    | last second => cases (Prod.mk.inj (second.unique taken)).1
    | turn second rest =>
        obtain ⟨same, rfl⟩ := Prod.mk.inj (second.unique taken)
        obtain rfl := Option.some.inj same
        exact rest
  · exact .turn taken

theorem Ends.iterate_eq (ends : Ends turn cursor state next) :
    Exists fun enough => forall fuel turns, enough ≤ fuel -> enough ≤ turns ->
      iterate noFuel (turn fuel) turns cursor state = .ok next := by
  induction ends with
  | @last cursor state next taken =>
      obtain ⟨enough, taken⟩ := taken
      refine ⟨enough + 1, fun fuel turns fuelLe turnsLe => ?_⟩
      obtain ⟨turns, rfl⟩ := Nat.exists_eq_add_of_le' (Nat.le_trans (Nat.le_add_left 1 enough) turnsLe)
      have now : turn fuel cursor state = .ok (none, next) := taken fuel (Nat.le_of_succ_le fuelLe)
      rw [iterate, now]
      rfl
  | @turn cursor other state middle next taken _ inductionHypothesis =>
      obtain ⟨enough, taken⟩ := taken
      obtain ⟨more, rest⟩ := inductionHypothesis
      refine ⟨max enough more + 1, fun fuel turns fuelLe turnsLe => ?_⟩
      obtain ⟨turns, rfl⟩ := Nat.exists_eq_add_of_le'
        (Nat.le_trans (Nat.le_add_left 1 (max enough more)) turnsLe)
      have now : turn fuel cursor state = .ok (some other, middle) := taken fuel (by omega)
      rw [iterate, now]
      exact rest fuel turns (by omega) (by omega)

/-- With more fuel a turn does what it did. -/
theorem returns_iterate_iff
    (more : forall fuel cursor state result, turn fuel cursor state = .ok result ->
      Returns (turn · cursor state) result) :
    Returns (fun fuel => iterate noFuel (turn fuel) fuel cursor state) next ↔
      Ends turn cursor state next := by
  constructor
  · rintro ⟨enough, result⟩
    have run : forall turns cursor state, iterate noFuel (turn enough) turns cursor state = .ok next ->
        Ends turn cursor state next := by
      intro turns
      induction turns with
      | zero =>
          intro cursor state result
          cases result
      | succ turns inductionHypothesis =>
          intro cursor state result
          rw [iterate, bind_eq_ok] at result
          obtain ⟨⟨other, middle⟩, taken, result⟩ := result
          cases other with
          | none =>
              obtain rfl := Except.ok.inj result
              exact .last (more enough cursor state _ taken)
          | some other =>
              exact .turn (more enough cursor state _ taken) (inductionHypothesis other middle result)
    exact run enough cursor state (result enough le_rfl)
  · intro ends
    obtain ⟨enough, result⟩ := ends.iterate_eq
    exact ⟨enough, fun fuel large => result fuel fuel large large⟩

end Ends

/-! ## Reachable states

Where a step can do one of several things, it is a relation, and what a system
can do is the set of states it can reach.
-/

section Reachable

/-- The states that steps lead to from a state to start in. -/
inductive Reachable (start : State -> Prop) (step : State -> State -> Prop) : State -> Prop
  | start {state : State} (first : start state) : Reachable start step state
  | step {state next : State} (before : Reachable start step state) (taken : step state next) :
      Reachable start step next

variable {start : State -> Prop} {step : State -> State -> Prop} {invariant : State -> Prop}

/-- The invariant rule for reachable states. -/
theorem Reachable.ofInvariant (first : forall state, start state -> invariant state)
    (preserved : forall state next, invariant state -> step state next -> invariant next)
    {state : State} (reachable : Reachable start step state) : invariant state := by
  induction reachable with
  | start begins => exact first _ begins
  | step _ taken inductionHypothesis => exact preserved _ _ inductionHypothesis taken

end Reachable

/-! ## One item of a list

An event often concerns one of several threads or requests, which it names by
its place in a list.
-/

theorem exists_around {Item : Type*} {items : List Item} {index : Nat} {item : Item}
    (found : items[index]? = some item) :
    Exists fun before => Exists fun after => items = before ++ item :: after ∧
      items.eraseIdx index = before ++ after ∧
      forall other, items.set index other = before ++ other :: after := by
  obtain ⟨inside, rfl⟩ := List.getElem?_eq_some_iff.mp found
  refine ⟨items.take index, items.drop (index + 1), ?_, List.eraseIdx_eq_take_drop_succ _ _, ?_⟩
  · rw [← List.drop_eq_getElem_cons inside, List.take_append_drop]
  · exact fun other => List.set_eq_take_append_cons_drop.trans (if_pos inside)

end Library
end Mcachefs
