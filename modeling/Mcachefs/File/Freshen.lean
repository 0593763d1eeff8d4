import Mcachefs.File.Timeslices

namespace Mcachefs
namespace Timeslices

open Library

/-!
# Freshened files

`mcachefs_file_timeslice_freshen` takes a file with the number of the present slice for
one that is in its list.  That is so for the files of the ring.  When a slice goes to
garbage, only its first file gets another number, and the others have their old one when
the ring has come round to it.
-/

namespace TsState

/-- `mcachefs_file_timeslice_freshen`. -/
def freshen (mfile : Nat) (state : TsState) : Except Fault TsState := do
  let file ← state.get mfile
  if file.timeslice = state.current then .ok state else state.doFreshen mfile

/-- The file is in the list of the present slice afterwards. -/
def Freshens (state : TsState) (mfile : Nat) : Prop :=
  Exists fun next => state.freshen mfile = .ok next ∧ next.InSlice next.current mfile

variable {state : TsState} {file : TsFile} {mfile : Nat} {lists : Int -> List Nat}

/-- A list of the store is in the ring, in garbage or in freed. -/
theorem ring_or {slice : Int} (isSlice : Slice slice) (notFreed : slice ≠ freed) :
    slice = garbage ∨ Ring slice := by
  unfold Slice freed garbage Ring FILE_TIMESLICE_NB at *
  omega

theorem Listed.current_ne_garbage (listed : Listed state lists) : state.current ≠ garbage := by
  have current := listed.current
  unfold garbage FILE_TIMESLICE_NB at *
  omega

/-- In every state that is reached, a file that is not freed is in the present slice after
it is freshened exactly when it is not one of garbage with the number of that slice. -/
theorem freshens_iff (state : TsState) (reachable : Reachable (· = init) Step state)
    (mfile : Nat) (file : TsFile) (found : state.mfiles mfile = some file)
    (notFreed : ¬ state.InSlice freed mfile) :
    state.Freshens mfile ↔ ¬ (state.InSlice garbage mfile ∧ file.timeslice = state.current) := by
  obtain ⟨lists, listed, numbered⟩ := reachable_listed reachable
  obtain ⟨slice, member, apart⟩ := listed.place found notFreed
  have isSlice := listed.isSlice member
  by_cases recent : file.timeslice = state.current
  · -- The file stays where it is.
    have freshened : state.freshen mfile = .ok state := by
      simp only [freshen, get_eq found, Bind.bind, Except.bind, if_pos recent]
    have stays : state.Freshens mfile ↔ mfile ∈ lists state.current := by
      rw [← listed.inSlice listed.currentSlice]
      constructor
      · rintro ⟨next, result, inside⟩
        rw [freshened] at result
        cases result
        exact inside
      · exact fun inside => ⟨state, freshened, inside⟩
    rw [stays, listed.inSlice (by decide)]
    rcases ring_or isSlice apart with rfl | ring
    · refine iff_of_false (fun again => ?_) (not_not.mpr ⟨member, recent⟩)
      exact listed.current_ne_garbage (listed.apart _ _ mfile again member)
    · have own : file.timeslice = slice := by
        have same := numbered slice mfile ring member
        rw [TsState.number, found] at same
        exact Option.some.inj same
      obtain rfl : slice = state.current := own.symm.trans recent
      refine iff_of_true member fun both => listed.current_ne_garbage ?_
      exact listed.apart _ _ mfile member both.1
  · obtain ⟨next, others, fresh, nextListed, -, current, inside⟩ :=
      doFreshen_ok listed member apart
    have freshened : state.freshen mfile = .ok next := by
      simp only [freshen, get_eq found, Bind.bind, Except.bind, if_neg recent]
      exact fresh
    refine iff_of_true ⟨next, freshened, ?_⟩ fun both => recent both.2
    rw [current, nextListed.inSlice listed.currentSlice]
    exact inside

/-- While only the slice of the start holds files, the ring goes round without touching
them. -/
theorem reachable_idle (reachable : Reachable (· = init) Step state)
    (start : state.current = 0) (empty : forall slice, slice ≠ 0 -> state.timeslices slice = 0)
    {turns : Nat} (less : turns < 1024) :
    Reachable (· = init) Step { state with current := turns } := by
  induction turns with
  | zero =>
      have same : { state with current := ((0 : Nat) : Int) } = state := by
        rw [Nat.cast_zero, ← start]
      rw [same]
      exact reachable
  | succ turns inductionHypothesis =>
      refine .step (inductionHypothesis (Nat.lt_of_succ_lt less)) (.update _ ⟨0, fun fuel _ => ?_⟩)
      have index : ((turns : Int) + FILE_TIMESLICE_NB + 1) % FILE_TIMESLICE_NB = turns + 1 := by
        unfold FILE_TIMESLICE_NB
        omega
      have now : ((turns : Int) + 1) % FILE_TIMESLICE_NB = turns + 1 := by
        unfold FILE_TIMESLICE_NB
        omega
      have isSlice : Slice ((turns : Int) + 1) := by
        unfold Slice FILE_TIMESLICE_NB
        omega
      have none : state.timeslices ((turns : Int) + 1) = 0 := empty _ (by omega)
      have head : TsState.head { state with current := (turns : Int) } (turns + 1) = .ok 0 :=
        (head_eq isSlice).trans (congrArg Except.ok none)
      simp only [update, index, head, now, Bind.bind, Except.bind]
      rfl

/-- The slice of two files goes to garbage when the ring comes round to it. -/
theorem two_opened : Exists fun one => Exists fun two => Exists fun last => Exists fun old =>
    Exists fun head =>
    (init.create 8 3 .file = .ok one ∧ one.mfiles 9 = none) ∧
    (one.create 9 4 .file = .ok two ∧ two.current = 0 ∧
      two.timeslices = Function.update (Function.update (fun _ => 0) 0 8) 0 9) ∧
    (forall fuel, update fuel { two with current := (1023 : Nat) } = .ok last) ∧
    last.current = 0 ∧ last.timeslices 0 = 0 ∧ last.timeslices freed = 0 ∧
    (last.mfiles 8 = some old ∧ old.timeslice = 0) ∧
    last.mfiles 9 = some head ∧ head.timeslice = garbage :=
  ⟨_, _, _, _, _, ⟨rfl, rfl⟩, ⟨rfl, rfl, rfl⟩, fun _ => rfl, rfl, rfl, rfl, ⟨rfl, rfl⟩, rfl, rfl⟩

/-- Nothing is used while the ring goes round once. -/
theorem two_discarded : Exists fun last => Exists fun old => Exists fun head =>
    Reachable (· = init) Step last ∧
      last.current = 0 ∧ last.timeslices 0 = 0 ∧ last.timeslices freed = 0 ∧
      (last.mfiles 8 = some old ∧ old.timeslice = 0) ∧
      last.mfiles 9 = some head ∧ head.timeslice = garbage := by
  obtain ⟨one, two, last, old, head, ⟨first, unused⟩, ⟨second, start, heads⟩, round, ends⟩ :=
    two_opened
  have opened : Reachable (· = init) Step two :=
    .step (.step (.start rfl) (.create 8 3 .file _ rfl (by decide) first))
      (.create 9 4 .file _ unused (by decide) second)
  have others : forall slice, slice ≠ 0 -> two.timeslices slice = 0 := fun slice apart => by
    rw [heads, Function.update_of_ne apart, Function.update_of_ne apart]
  have idle := reachable_idle opened start others (show 1023 < 1024 by decide)
  exact ⟨last, old, head, .step idle (.update last ⟨0, fun fuel _ => round fuel⟩), ends⟩

/-- The head of the garbage list comes back to the current slice. -/
theorem freshens_garbage : Exists fun (state : TsState) => Exists fun (file : TsFile) =>
    state.mfiles 9 = some file ∧ file.timeslice = garbage ∧ state.Freshens 9 := by
  obtain ⟨last, -, head, reachable, now, -, nothing, -, found, number⟩ := two_discarded
  refine ⟨last, head, found, number, ?_⟩
  refine (freshens_iff last reachable 9 head found (not_inSlice nothing)).mpr fun both => ?_
  exact absurd (number.symm.trans (both.2.trans now)) (by decide)

/-- The file behind it does not. -/
theorem freshens_misses : Exists fun state => Exists fun file =>
    Reachable (· = init) Step state ∧ state.mfiles 8 = some file ∧
      ¬ state.InSlice freed 8 ∧ ¬ state.Freshens 8 := by
  obtain ⟨last, old, -, reachable, now, empty, nothing, ⟨found, number⟩, -⟩ := two_discarded
  refine ⟨last, old, reachable, found, not_inSlice nothing, ?_⟩
  rintro ⟨next, result, inside⟩
  have stays : last.freshen 8 = .ok last := by
    simp only [freshen, get_eq found, Bind.bind, Except.bind, number, now, if_true]
  rw [stays] at result
  cases result
  rw [now] at inside
  exact not_inSlice empty inside

end TsState

end Timeslices
end Mcachefs
