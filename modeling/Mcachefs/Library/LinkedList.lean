import Mathlib.Data.List.Nodup
import Mathlib.Logic.Function.Basic

namespace Mcachefs
namespace Library

/-!
# Linked lists in a store

A store gives every address the address that follows it, and `0` is the null
address.  `Segment next first ids last` says that the links lead from `first`
through exactly the addresses `ids` to `last`; a whole list is a segment that
ends in null.  Links are a function, so that an address heads at most one list,
and a list that ends cannot pass an address twice.
-/

/-- The links lead from `first` through `ids` to `last`. -/
inductive Segment (next : Nat -> Nat) : Nat -> List Nat -> Nat -> Prop
  | nil (last : Nat) : Segment next last [] last
  | cons {first last : Nat} {ids : List Nat} (some : first ≠ 0)
      (rest : Segment next (next first) ids last) : Segment next first (first :: ids) last

namespace Segment

variable {next other : Nat -> Nat} {first middle last id : Nat} {ids before after : List Nat}

theorem nil_inv (segment : Segment next first [] last) : first = last := by
  cases segment
  rfl

theorem cons_inv (segment : Segment next first (id :: ids) last) :
    first = id ∧ id ≠ 0 ∧ Segment next (next id) ids last := by
  cases segment with
  | cons some rest => exact ⟨rfl, some, rest⟩

theorem append (one : Segment next first before middle) (two : Segment next middle after last) :
    Segment next first (before ++ after) last := by
  induction one with
  | nil => exact two
  | cons some _ inductionHypothesis => exact .cons some (inductionHypothesis two)

theorem split (segment : Segment next first (before ++ after) last) :
    Exists fun middle => Segment next first before middle ∧ Segment next middle after last := by
  induction before generalizing first with
  | nil => exact ⟨first, .nil first, segment⟩
  | cons id before inductionHypothesis =>
      obtain ⟨rfl, some, rest⟩ := segment.cons_inv
      obtain ⟨middle, one, two⟩ := inductionHypothesis rest
      exact ⟨middle, .cons some one, two⟩

theorem ne_zero (segment : Segment next first ids last) (member : id ∈ ids) : id ≠ 0 := by
  induction segment with
  | nil => cases member
  | cons some _ inductionHypothesis =>
      rcases List.mem_cons.mp member with rfl | member
      · exact some
      · exact inductionHypothesis member

/-- A segment depends only on the links of the addresses on it. -/
theorem congr (segment : Segment next first ids last)
    (same : forall id, id ∈ ids -> other id = next id) : Segment other first ids last := by
  induction segment with
  | nil => exact .nil _
  | cons some _ inductionHypothesis =>
      refine .cons some ?_
      rw [same _ List.mem_cons_self]
      exact inductionHypothesis fun id member => same id (List.mem_cons_of_mem _ member)

/-- A link that leaves from elsewhere does not matter. -/
theorem update (segment : Segment next first ids last) (apart : id ∉ ids) (target : Nat) :
    Segment (Function.update next id target) first ids last :=
  segment.congr fun _ member => Function.update_of_ne (ne_of_mem_of_not_mem member apart) _ _

/-! ## Whole lists -/

/-- An address heads one list at most. -/
theorem unique {others : List Nat} (one : Segment next first ids 0)
    (two : Segment next first others 0) : ids = others := by
  induction ids generalizing first others with
  | nil =>
      cases others with
      | nil => rfl
      | cons other others => exact absurd (two.cons_inv.1.symm.trans one.nil_inv) two.cons_inv.2.1
  | cons id ids inductionHypothesis =>
      obtain ⟨rfl, some, rest⟩ := one.cons_inv
      cases others with
      | nil => exact absurd two.nil_inv some
      | cons other others =>
          obtain ⟨rfl, -, tail⟩ := two.cons_inv
          rw [inductionHypothesis rest tail]

/-- A list that ends passes no address twice. -/
theorem nodup (list : Segment next first ids 0) : ids.Nodup := by
  induction ids generalizing first with
  | nil => exact List.nodup_nil
  | cons id ids inductionHypothesis =>
      obtain ⟨rfl, some, rest⟩ := list.cons_inv
      refine List.nodup_cons.mpr ⟨fun again => ?_, inductionHypothesis rest⟩
      obtain ⟨before, after, rfl⟩ := List.append_of_mem again
      obtain ⟨middle, -, tail⟩ := rest.split
      -- The list would have to be its own proper suffix.
      have same := list.unique (tail.cons_inv.1 ▸ tail)
      have lengths := congrArg List.length same
      simp only [List.length_cons, List.length_append] at lengths
      omega

theorem head_zero_iff (list : Segment next first ids 0) : first = 0 ↔ ids = [] := by
  cases ids with
  | nil => simp [list.nil_inv]
  | cons id ids => simp [list.cons_inv.1, list.cons_inv.2.1]

theorem first_eq (list : Segment next first ids 0) : first = ids.headD 0 := by
  cases ids with
  | nil => exact list.nil_inv
  | cons id ids => exact list.cons_inv.1

/-- What follows an address of a list. -/
theorem next_eq (list : Segment next first (before ++ id :: after) 0) :
    next id = after.headD 0 := by
  obtain ⟨middle, -, tail⟩ := list.split
  exact tail.cons_inv.2.2.first_eq

/-- The list from the address `id` on. -/
theorem suffix (list : Segment next first (before ++ id :: after) 0) :
    Segment next id (id :: after) 0 := by
  obtain ⟨middle, -, tail⟩ := list.split
  exact tail.cons_inv.1 ▸ tail

/-! ## Updates -/

/-- A new first address. -/
theorem push (list : Segment next first ids 0) (some : id ≠ 0) (fresh : id ∉ ids) :
    Segment (Function.update next id first) id (id :: ids) 0 := by
  refine .cons some ?_
  rw [Function.update_self]
  exact list.update fresh first

/-- A new last address. -/
theorem concat {tail : Nat} (list : Segment next first (before ++ [tail]) 0) (some : id ≠ 0)
    (fresh : id ∉ before ++ [tail]) :
    Segment (Function.update (Function.update next id 0) tail id) first
      (before ++ [tail, id]) 0 := by
  have nodup := list.nodup
  obtain ⟨middle, one, two⟩ := list.split
  obtain ⟨rfl, tailSome, -⟩ := two.cons_inv
  have outside : middle ∉ before := fun member =>
    List.disjoint_of_nodup_append nodup member List.mem_cons_self
  have apart : id ≠ middle := fun equal => fresh (by simp [equal])
  refine ((one.update (fun member => fresh (List.mem_append_left _ member)) 0).update outside
    id).append (.cons tailSome ?_)
  rw [Function.update_self]
  refine .cons some ?_
  rw [Function.update_of_ne apart, Function.update_self]
  exact .nil 0

/-- The address after `previous` is taken out of the list. -/
theorem unlink {previous : Nat}
    (list : Segment next first (before ++ previous :: id :: after) 0) :
    Segment (Function.update next previous (next id)) first (before ++ previous :: after) 0 := by
  have nodup := list.nodup
  obtain ⟨middle, one, two⟩ := list.split
  obtain ⟨rfl, some, rest⟩ := two.cons_inv
  obtain ⟨-, -, tail⟩ := rest.cons_inv
  have outside : middle ∉ before := fun member =>
    List.disjoint_of_nodup_append nodup member List.mem_cons_self
  have later : middle ∉ after := by
    have inside := (List.nodup_append.mp nodup).2.1
    exact fun member => (List.nodup_cons.mp inside).1 (List.mem_cons_of_mem _ member)
  refine (one.update outside _).append (.cons some ?_)
  rw [Function.update_self]
  exact tail.update later _

end Segment

/-! ## Doubly linked lists

Links backward agree with a list when each address points to the one before it.
-/

/-- Each address of the list points back to the one before it, the first one to
`before`. -/
def Back (previous : Nat -> Nat) : Nat -> List Nat -> Prop
  | _, [] => True
  | before, id :: ids => previous id = before ∧ Back previous id ids

/-- The links lead through the list in both directions, and end in null. -/
structure Doubly (next previous : Nat -> Nat) (first : Nat) (ids : List Nat) : Prop where
  forward : Segment next first ids 0
  backward : Back previous 0 ids

section Doubly

variable {next previous next' previous' : Nat -> Nat} {first id : Nat}
  {ids before after : List Nat}

theorem back_append {start : Nat} : Back previous start (before ++ after) ↔
    Back previous start before ∧ Back previous (before.getLastD start) after := by
  induction before generalizing start with
  | nil => simp [Back]
  | cons id before inductionHypothesis =>
      rw [List.cons_append, Back, Back, inductionHypothesis, List.getLastD_cons, and_assoc]

theorem Back.congr {start : Nat} (back : Back previous start ids)
    (same : forall id, id ∈ ids -> previous' id = previous id) : Back previous' start ids := by
  induction ids generalizing start with
  | nil => trivial
  | cons id ids inductionHypothesis =>
      refine ⟨(same id List.mem_cons_self).trans back.1, ?_⟩
      exact inductionHypothesis back.2 fun other member => same other (List.mem_cons_of_mem _ member)

/-- What the first address points back to does not matter to the others. -/
theorem Back.restart {start other : Nat} (back : Back previous start ids)
    (nodup : ids.Nodup) (first : ids ≠ []) :
    Back (Function.update previous (ids.headD 0) other) other ids := by
  cases ids with
  | nil => exact absurd rfl first
  | cons id ids =>
      refine ⟨Function.update_self .., back.2.congr fun member inside => ?_⟩
      exact Function.update_of_ne (ne_of_mem_of_not_mem inside (List.nodup_cons.mp nodup).1) _ _

namespace Doubly

theorem congr (list : Doubly next previous first ids)
    (forth : forall id, id ∈ ids -> next' id = next id)
    (back : forall id, id ∈ ids -> previous' id = previous id) :
    Doubly next' previous' first ids :=
  ⟨list.forward.congr forth, list.backward.congr back⟩

theorem nil : Doubly next previous 0 [] := ⟨.nil 0, trivial⟩

theorem nodup (list : Doubly next previous first ids) : ids.Nodup := list.forward.nodup

theorem next_eq (list : Doubly next previous first (before ++ id :: after)) :
    next id = after.headD 0 :=
  list.forward.next_eq

theorem previous_eq (list : Doubly next previous first (before ++ id :: after)) :
    previous id = before.getLastD 0 :=
  (back_append.mp list.backward).2.1

/-- A new first address, that points back to null. -/
theorem push (list : Doubly next previous first ids) (some : id ≠ 0) (fresh : id ∉ ids)
    (alone : previous id = 0) :
    Doubly (Function.update next id first) (Function.update previous first id) id (id :: ids) := by
  refine ⟨list.forward.push some fresh, ?_⟩
  cases ids with
  | nil =>
      rw [list.forward.nil_inv]
      exact ⟨(Function.update_of_ne some _ _).trans alone, trivial⟩
  | cons head ids =>
      obtain ⟨rfl, -, -⟩ := list.forward.cons_inv
      have apart : id ≠ first := fun equal => fresh (equal ▸ List.mem_cons_self)
      refine ⟨(Function.update_of_ne apart _ _).trans alone, ?_⟩
      exact list.backward.restart list.nodup (List.cons_ne_nil _ _)

/-- The first address is taken out of the list. -/
theorem pop (list : Doubly next previous first (id :: after)) :
    Doubly next (Function.update previous (next id) (previous id)) (next id) after := by
  obtain ⟨-, -, rest⟩ := list.forward.cons_inv
  refine ⟨rest, ?_⟩
  cases after with
  | nil => trivial
  | cons head after =>
      have inside := (List.nodup_cons.mp list.nodup).2
      rw [list.backward.1, rest.cons_inv.1]
      exact list.backward.2.restart inside (List.cons_ne_nil _ _)

/-- A later address is taken out of the list. -/
theorem unlink {last : Nat}
    (list : Doubly next previous first (before ++ last :: id :: after)) :
    Doubly (Function.update next last (next id)) (Function.update previous (next id) (previous id))
      first (before ++ last :: after) := by
  refine ⟨list.forward.unlink, ?_⟩
  have whole : Doubly next previous first ((before ++ [last]) ++ id :: after) := by
    simpa using list
  have follows : next id = after.headD 0 := whole.next_eq
  obtain ⟨start, pointed, between, rest⟩ := back_append.mp list.backward
  have nodup := list.nodup
  cases after with
  | nil =>
      have apart : forall member, member ∈ before ++ [last] -> member ≠ next id :=
        fun member inside equal =>
          whole.forward.ne_zero (List.mem_append_left _ inside) (equal.trans follows)
      have kept : Back previous 0 (before ++ [last]) :=
        back_append.mpr ⟨start, pointed, trivial⟩
      refine kept.congr ?_
      exact fun member inside => Function.update_of_ne (apart member inside) _ _
  | cons head after =>
      rw [follows, List.headD_cons, between]
      have before_apart : head ∉ before ++ [last] := by
        intro inside
        simp only [List.nodup_append, List.nodup_cons, List.mem_append, List.mem_cons] at nodup inside
        grind
      refine back_append.mpr ⟨start.congr fun member inside => ?_, ?_, ?_⟩
      · refine Function.update_of_ne (fun equal => before_apart ?_) _ _
        exact equal ▸ List.mem_append_left _ inside
      · refine (Function.update_of_ne (fun equal => before_apart ?_) _ _).trans pointed
        exact equal ▸ List.mem_append_right _ List.mem_cons_self
      · have inside : (head :: after).Nodup := by
          simp only [List.nodup_append, List.nodup_cons] at nodup ⊢
          grind
        exact rest.restart inside (List.cons_ne_nil _ _)

/-- The links backward once an address is left out. -/
theorem back_without (list : Doubly next previous first (before ++ id :: after)) :
    Back (Function.update previous (next id) (previous id)) 0 (before ++ after) := by
  rcases List.eq_nil_or_concat' before with rfl | ⟨start, last, rfl⟩
  · obtain ⟨rfl, -, -⟩ := list.forward.cons_inv
    exact list.pop.backward
  · simp only [List.append_assoc, List.cons_append, List.nil_append] at list ⊢
    exact list.unlink.backward

/-- One list is linked to the end of another. -/
theorem append {last head : Nat} {others : List Nat}
    (list : Doubly next previous first (before ++ [last]))
    (other : Doubly next previous head (head :: others))
    (apart : forall id, id ∈ before ++ [last] -> id ∉ head :: others) :
    Doubly (Function.update next last head) (Function.update previous head last)
      first ((before ++ [last]) ++ head :: others) := by
  have outside : head ∉ before ++ [last] := fun inside => apart head inside List.mem_cons_self
  have later : last ∉ head :: others := apart last (List.mem_append_right _ List.mem_cons_self)
  constructor
  · obtain ⟨middle, one, two⟩ := list.forward.split
    obtain ⟨rfl, some, -⟩ := two.cons_inv
    have inside : middle ∉ before := fun member =>
      List.disjoint_of_nodup_append list.nodup member List.mem_cons_self
    rw [List.append_assoc]
    refine (one.update inside head).append (.cons some ?_)
    rw [Function.update_self]
    exact other.forward.update later head
  · refine back_append.mpr ⟨list.backward.congr fun member inside => ?_, ?_⟩
    · exact Function.update_of_ne (ne_of_mem_of_not_mem inside outside) _ _
    · rw [List.getLastD_concat]
      exact other.backward.restart other.nodup (List.cons_ne_nil _ _)

/-- Two neighbours change places. -/
theorem exchange {one two start : Nat}
    (list : Doubly next previous first (before ++ one :: two :: after))
    (head : start = if previous one = 0 then two else first)
    (forthOne : next' one = next two) (forthTwo : next' two = one)
    (forth : forall id, id ≠ 0 -> id ≠ one -> id ≠ two ->
      next' id = if id = previous one then two else next id)
    (backOne : previous' one = two) (backTwo : previous' two = previous one)
    (back : forall id, id ≠ 0 -> id ≠ one -> id ≠ two ->
      previous' id = if id = next two then one else previous id) :
    Doubly next' previous' start (before ++ two :: one :: after) := by
  have nodup := list.nodup
  have some : forall id, id ∈ before ++ one :: two :: after -> id ≠ 0 := fun id member =>
    list.forward.ne_zero member
  have whole : Doubly next previous first ((before ++ [one]) ++ two :: after) := by
    simpa using list
  have follows : next two = after.headD 0 := whole.next_eq
  have precedes : previous one = before.getLastD 0 := list.previous_eq
  have apart : forall id, id ∈ before ∨ id ∈ after -> id ≠ one ∧ id ≠ two := by
    intro id member
    simp only [List.nodup_append, List.nodup_cons, List.mem_cons] at nodup
    grind
  obtain ⟨middle, upTo, onward⟩ := list.forward.split
  obtain ⟨rfl, oneSome, onward⟩ := onward.cons_inv
  obtain ⟨-, twoSome, rest⟩ := onward.cons_inv
  constructor
  · have later : Segment next' (next two) after 0 := by
      refine rest.congr fun id member => ?_
      rw [forth id (some id (by simp [member])) (apart id (Or.inr member)).1
        (apart id (Or.inr member)).2, if_neg]
      rintro rfl
      rcases List.eq_nil_or_concat' before with rfl | ⟨start, last, rfl⟩
      · exact some _ (by simp [member]) precedes
      · rw [List.getLastD_concat] at precedes
        simp only [List.nodup_append, List.mem_cons, List.mem_append] at nodup
        grind
    have tail : Segment next' two (two :: middle :: after) 0 := by
      refine .cons twoSome ?_
      rw [forthTwo]
      refine .cons oneSome ?_
      rw [forthOne]
      exact later
    refine Segment.append ?_ tail
    rcases List.eq_nil_or_concat' before with rfl | ⟨others, last, rfl⟩
    · have none : previous middle = 0 := precedes
      rw [head, if_pos none]
      exact .nil _
    · rw [List.getLastD_concat] at precedes
      have lastSome : last ≠ 0 := some last (by simp)
      rw [head, if_neg (precedes.symm ▸ lastSome)]
      obtain ⟨previousLast, upToLast, lastly⟩ := upTo.split
      obtain ⟨rfl, -, -⟩ := lastly.cons_inv
      have lastApart := apart previousLast (Or.inl (by simp))
      refine Segment.append (upToLast.congr fun id member => ?_) (.cons lastSome ?_)
      · have idApart := apart id (Or.inl (List.mem_append_left _ member))
        rw [forth id (some id (by simp [member])) idApart.1 idApart.2, if_neg]
        rintro rfl
        simp only [List.nodup_append, List.mem_cons, List.mem_append] at nodup
        grind
      · rw [forth _ lastSome lastApart.1 lastApart.2, if_pos precedes.symm]
        exact .nil _
  · obtain ⟨front, -, -, later⟩ := back_append.mp list.backward
    refine back_append.mpr ⟨front.congr fun id member => ?_, backTwo.trans precedes, backOne, ?_⟩
    · have idApart := apart id (Or.inl member)
      rw [back id (some id (by simp [member])) idApart.1 idApart.2, if_neg]
      rintro rfl
      cases after with
      | nil => exact some _ (by simp [member]) follows
      | cons other after =>
          rw [List.headD_cons] at follows
          simp only [List.nodup_append, List.mem_cons] at nodup
          grind
    · cases after with
      | nil => trivial
      | cons other after =>
          rw [List.headD_cons] at follows
          have otherApart := apart other (Or.inr List.mem_cons_self)
          refine ⟨?_, later.2.congr fun id member => ?_⟩
          · rw [back other (some other (by simp)) otherApart.1 otherApart.2, if_pos follows.symm]
          · have idApart := apart id (Or.inr (List.mem_cons_of_mem _ member))
            rw [back id (some id (by simp [member])) idApart.1 idApart.2, if_neg]
            rintro rfl
            simp only [List.nodup_append, List.nodup_cons, List.mem_cons] at nodup
            grind

end Doubly

end Doubly

end Library
end Mcachefs
