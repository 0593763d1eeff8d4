import Mathlib.Data.List.Perm.Basic
import Mathlib.Order.Lattice

namespace Mcachefs
namespace Library

/-!
# Exchanges of neighbours

A sort that exchanges two neighbours whenever the second one has the smaller key
permutes its input and never carries an element past another one of its key.  Each
exchange removes one inversion, so that there is an end to them.
-/

variable {Value Key : Type*} [LinearOrder Key]

/-- Two neighbours that are out of order change places. -/
inductive Exchange (key : Value -> Key) : List Value -> List Value -> Prop
  | swap (before : List Value) (one two : Value) (after : List Value) (less : key two < key one) :
      Exchange key (before ++ one :: two :: after) (before ++ two :: one :: after)

/-- How many pairs are out of order. -/
def inversions (key : Value -> Key) : List Value -> Nat
  | [] => 0
  | value :: values => values.countP (fun other => key other < key value) + inversions key values

/-- The same values, and those of one key in the same order. -/
structure Rearranged (key : Value -> Key) (values others : List Value) : Prop where
  perm : others.Perm values
  stable : forall bound, others.filter (fun value => key value = bound) =
    values.filter fun value => key value = bound

/-- A stable sort of the values by their keys. -/
structure StablySorted (key : Value -> Key) (values sorted : List Value) : Prop
    extends Rearranged key values sorted where
  ordered : sorted.Pairwise fun one two => key one ≤ key two

variable {key : Value -> Key} {values others more : List Value}

theorem Rearranged.refl (values : List Value) : Rearranged key values values :=
  ⟨List.Perm.refl values, fun _ => rfl⟩

theorem Rearranged.trans (one : Rearranged key values others) (two : Rearranged key others more) :
    Rearranged key values more :=
  ⟨two.perm.trans one.perm, fun bound => (two.stable bound).trans (one.stable bound)⟩

namespace Exchange

theorem rearranged (exchange : Exchange key values others) : Rearranged key values others := by
  cases exchange with
  | swap before one two after less =>
      refine ⟨(List.Perm.swap one two after).append_left before, fun bound => ?_⟩
      have apart : ¬ (key one = bound ∧ key two = bound) := by
        rintro ⟨rfl, same⟩
        exact less.ne same
      simp only [List.filter_append, List.filter_cons, decide_eq_true_eq]
      by_cases first : key one = bound
      · have second : key two ≠ bound := fun second => apart ⟨first, second⟩
        simp only [first, second, if_true, if_false]
      · simp only [first, if_false]

theorem inversions_lt (exchange : Exchange key values others) :
    inversions key others < inversions key values := by
  cases exchange with
  | swap before one two after less =>
      induction before with
      | nil =>
          have notBack : ¬ key one < key two := not_lt_of_gt less
          simp only [List.nil_append, inversions, List.countP_cons, less, notBack, decide_true,
            decide_false, if_true, Bool.false_eq_true, if_false]
          omega
      | cons value before inductionHypothesis =>
          have same := ((List.Perm.swap one two after).append_left before).countP_eq
            fun other => decide (key other < key value)
          simp only [List.cons_append, inversions, same]
          omega

end Exchange

end Library
end Mcachefs
