import Mathlib.Data.List.Infix
import Mathlib.Logic.Function.Basic

namespace Mcachefs
namespace Library

/-!
# Namespaces

A namespace tells what there is at each list of names, and `directory` which
kinds of things have names below them.  Entering, erasing and moving are total
here; the conditions under which a file system does them come after them, and
those are what keeps a namespace closed under going up.
-/

/-- What there is at each list of names. -/
abbrev Namespace (Name Kind : Type*) := List Name -> Option Kind

namespace Namespace

variable {Name Kind : Type*} {directory : Kind -> Prop} {space : Namespace Name Kind}
  {names other rest : List Name} {name : Name} {kind : Kind}

/-- There is a directory at these names. -/
def HasDirectory (directory : Kind -> Prop) (space : Namespace Name Kind) (names : List Name) :
    Prop :=
  Exists fun kind => space names = some kind ∧ directory kind

/-- The root is a directory, and so is everything that has something below it. -/
structure Closed (directory : Kind -> Prop) (space : Namespace Name Kind) : Prop where
  root : HasDirectory directory space []
  above : forall names name, space (names ++ [name]) ≠ none -> HasDirectory directory space names

theorem HasDirectory.ne_none (there : HasDirectory directory space names) :
    space names ≠ none := by
  obtain ⟨kind, here, -⟩ := there
  rw [here]
  exact Option.some_ne_none kind

namespace Closed

variable (closed : Closed directory space)
include closed

/-- Nothing is below what is not there. -/
theorem below_none (missing : space names = none) : forall rest, space (names ++ rest) = none := by
  intro rest
  induction rest using List.reverseRecOn with
  | nil => rw [List.append_nil, missing]
  | append_singleton rest last inductionHypothesis =>
      by_contra there
      rw [← List.append_assoc] at there
      exact (closed.above _ _ there).ne_none inductionHypothesis

end Closed

section Changes

variable [DecidableEq Name]

/-- Something of this kind is put at these names. -/
def enter (names : List Name) (kind : Kind) (space : Namespace Name Kind) : Namespace Name Kind :=
  Function.update space names (some kind)

/-- What is at these names goes. -/
def erase (names : List Name) (space : Namespace Name Kind) : Namespace Name Kind :=
  Function.update space names none

/-- All that is at and below `source` goes to `target`. -/
def move (source target : List Name) (space : Namespace Name Kind) : Namespace Name Kind :=
  fun names =>
    if target <+: names then space (source ++ names.drop target.length)
    else if source <+: names then none
    else space names

theorem enter_self : enter names kind space names = some kind :=
  Function.update_self ..

theorem enter_other (apart : other ≠ names) : enter names kind space other = space other :=
  Function.update_of_ne apart ..

theorem erase_self : erase names space names = none :=
  Function.update_self ..

theorem erase_other (apart : other ≠ names) : erase names space other = space other :=
  Function.update_of_ne apart ..

variable {source target : List Name}

theorem move_inside : move source target space (target ++ rest) = space (source ++ rest) := by
  unfold move
  rw [if_pos (List.prefix_append _ _), List.drop_left]

theorem move_left (apart : ¬ target <+: names) (inside : source <+: names) :
    move source target space names = none := by
  unfold move
  rw [if_neg apart, if_pos inside]

theorem move_outside (apart : ¬ target <+: names) (away : ¬ source <+: names) :
    move source target space names = space names := by
  unfold move
  rw [if_neg apart, if_neg away]

end Changes

/-! ## What a file system asks for -/

/-- Something new can be made here: the name is free, and it is in a directory. -/
def CanEnter (directory : Kind -> Prop) (space : Namespace Name Kind) (names : List Name) : Prop :=
  space names = none ∧ Exists fun above => Exists fun name =>
    names = above ++ [name] ∧ HasDirectory directory space above

/-- What is here can be unlinked: it is not a directory. -/
def CanUnlink (directory : Kind -> Prop) (space : Namespace Name Kind) (names : List Name) : Prop :=
  Exists fun kind => space names = some kind ∧ ¬ directory kind

/-- What is here is an empty directory below the root. -/
def CanRemove (directory : Kind -> Prop) (space : Namespace Name Kind) (names : List Name) : Prop :=
  names ≠ [] ∧ HasDirectory directory space names ∧ forall name, space (names ++ [name]) = none

/-- Something can be moved to a free place that is not below it. -/
def CanMove (directory : Kind -> Prop) (space : Namespace Name Kind) (source target : List Name) :
    Prop :=
  source ≠ [] ∧ space source ≠ none ∧ CanEnter directory space target ∧ ¬ source <+: target

namespace Closed

variable [DecidableEq Name] {source target : List Name}

theorem enter (closed : Closed directory space) (can : CanEnter directory space names)
    (kind : Kind) : Closed directory (space.enter names kind) := by
  obtain ⟨missing, last, own, rfl, holds⟩ := can
  -- A directory that was there is there still, and nothing is below what is new.
  have still : forall other, HasDirectory directory space other ->
      HasDirectory directory (space.enter (last ++ [own]) kind) other := by
    rintro other ⟨old, here, isDirectory⟩
    refine ⟨old, ?_, isDirectory⟩
    rw [enter_other]
    · exact here
    · rintro rfl
      rw [missing] at here
      cases here
  refine ⟨still [] closed.root, fun names name there => ?_⟩
  by_cases same : names ++ [name] = last ++ [own]
  · obtain ⟨rfl, -⟩ := List.append_inj' same rfl
    exact still names holds
  · rw [enter_other same] at there
    exact still names (closed.above names name there)

theorem erase (closed : Closed directory space) (below : names ≠ [])
    (empty : forall name, space (names ++ [name]) = none) :
    Closed directory (space.erase names) := by
  refine ⟨?_, fun other name there => ?_⟩
  · obtain ⟨kind, here, isDirectory⟩ := closed.root
    exact ⟨kind, by rw [erase_other below.symm]; exact here, isDirectory⟩
  · have kept : other ++ [name] ≠ names := by
      intro same
      rw [same, erase_self] at there
      exact there rfl
    rw [erase_other kept] at there
    obtain ⟨kind, here, isDirectory⟩ := closed.above other name there
    refine ⟨kind, ?_, isDirectory⟩
    rw [erase_other]
    · exact here
    · rintro rfl
      exact there (empty name)

theorem unlink (closed : Closed directory space) (can : CanUnlink directory space names) :
    Closed directory (space.erase names) := by
  obtain ⟨kind, here, file⟩ := can
  have noDirectory : ¬ HasDirectory directory space names := by
    rintro ⟨other, there, isDirectory⟩
    rw [here] at there
    exact file (Option.some.inj there ▸ isDirectory)
  refine closed.erase (fun isRoot => noDirectory (isRoot ▸ closed.root)) fun name => ?_
  by_contra there
  exact noDirectory (closed.above names name there)

theorem move (closed : Closed directory space) (can : CanMove directory space source target) :
    Closed directory (space.move source target) := by
  obtain ⟨below, there, ⟨missing, last, own, rfl, holds⟩, apart⟩ := can
  have ofTarget : forall names, ¬ last ++ [own] <+: names -> ¬ source <+: names ->
      HasDirectory directory space names ->
      HasDirectory directory (space.move source (last ++ [own])) names := by
    rintro names outside away ⟨kind, here, isDirectory⟩
    exact ⟨kind, by rw [move_outside outside away]; exact here, isDirectory⟩
  refine ⟨ofTarget [] (by simp) (fun inside => below (List.prefix_nil.mp inside)) closed.root,
    fun names name present => ?_⟩
  by_cases inside : last ++ [own] <+: names ++ [name]
  · rcases List.prefix_concat_iff.mp inside with same | within
    · obtain ⟨rfl, -⟩ := List.append_inj' same rfl
      refine ofTarget last (fun long => ?_) (fun within => apart ?_) holds
      · have longer := long.length_le
        rw [List.length_append, List.length_singleton] at longer
        exact absurd longer (Nat.not_succ_le_self _)
      · exact within.trans (List.prefix_append _ _)
    · obtain ⟨rest, rfl⟩ := within
      rw [List.append_assoc, move_inside, ← List.append_assoc] at present
      obtain ⟨kind, here, isDirectory⟩ := closed.above _ _ present
      exact ⟨kind, by rw [move_inside]; exact here, isDirectory⟩
  · have outside : ¬ last ++ [own] <+: names := fun within =>
      inside (within.trans (List.prefix_append _ _))
    have away : ¬ source <+: names := by
      intro within
      exact present (move_left inside (within.trans (List.prefix_append _ _)))
    by_cases left : source <+: names ++ [name]
    · exact absurd (move_left inside left) present
    · rw [move_outside inside left] at present
      exact ofTarget names outside away (closed.above names name present)

end Closed

end Namespace

end Library
end Mcachefs
