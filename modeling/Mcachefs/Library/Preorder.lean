import Mcachefs.Library.SiblingForest

namespace Mcachefs
namespace Library

/-!
# Walks without a stack

A walk over everything below an address `stop` goes down to the first child of
an address that has children, and otherwise on to the next sibling, or to that
of the nearest address above that has one.  Where the walk is, it has still to
visit what is below its position, and what `Later` says: what is below a later
sibling of the position, or of an address between it and `stop`.  Both together
are `Pending`.

Each of the ways a walk can go on leaves pending what was, up to the address that
it leaves.
-/

/-- What a walk below `stop` visits after everything below `id`. -/
inductive Later (father : Nat -> Nat) (kids : Nat -> List Nat) (stop : Nat) : Nat -> Nat -> Prop
  | sibling {id sibling other : Nat} {before after : List Nat}
      (split : kids (father id) = before ++ id :: after) (member : sibling ∈ after)
      (below : Climbs father sibling other) : Later father kids stop id other
  | above {id other : Nat} (inside : father id ≠ stop)
      (later : Later father kids stop (father id) other) : Later father kids stop id other

/-- What a walk below `stop` visits from `id` on. -/
def Pending (father : Nat -> Nat) (kids : Nat -> List Nat) (stop id other : Nat) : Prop :=
  Climbs father id other ∨ id ≠ stop ∧ Later father kids stop id other

namespace Forest

variable {father first next : Nat -> Nat} {node top : Nat -> Prop} {kids : Nat -> List Nat}
  {stop id child other : Nat}

/-- What is below an address is the address or below one of its children. -/
theorem climbs_child (forest : Forest father first next node top kids) (inside : node other)
    (tops : forall id, top id -> father id = 0) (climbs : Climbs father id other) :
    other = id ∨ Exists fun child => child ∈ kids id ∧ Climbs father child other := by
  induction climbs with
  | here => exact Or.inl rfl
  | @up other some _ inductionHypothesis =>
      have below : ¬ top other := fun isTop => some (tops other isTop)
      obtain ⟨fatherNode, member⟩ := forest.listed other inside below
      rcases inductionHypothesis fatherNode with same | ⟨child, isChild, climbs⟩
      · exact Or.inr ⟨other, same ▸ member, .here⟩
      · exact Or.inr ⟨child, isChild, .up some climbs⟩

/-- A walk goes down: what is below an address is visited from its first child on. -/
theorem later_down (forest : Forest father first next node top kids) (inside : node other)
    (isNode : node id) (tops : forall id, top id -> father id = 0) {rest : List Nat}
    (split : kids id = child :: rest) (climbs : Climbs father id other) :
    other = id ∨ Climbs father child other ∨ Later father kids stop child other := by
  rcases forest.climbs_child inside tops climbs with same | ⟨sibling, member, climbs⟩
  · exact Or.inl same
  · refine Or.inr ?_
    have link := (forest.child id child isNode (split ▸ List.mem_cons_self)).2.2
    rw [split] at member
    rcases List.mem_cons.mp member with rfl | later
    · exact Or.inl climbs
    · have own : kids (father child) = [] ++ child :: rest := by
        rw [link, split, List.nil_append]
      exact Or.inr (.sibling own later climbs)

/-- A walk goes down: what was to be visited later still is. -/
theorem later_child (forest : Forest father first next node top kids) (isNode : node id)
    (member : child ∈ kids id) (inside : id ≠ stop) (later : Later father kids stop id other) :
    Later father kids stop child other := by
  have link := (forest.child id child isNode member).2.2
  exact .above (link.symm ▸ inside) (link.symm ▸ later)

/-- A walk goes on to the next sibling. -/
theorem later_next (forest : Forest father first next node top kids) (isNode : node id)
    (below : ¬ top id) (some : next id ≠ 0) (later : Later father kids stop id other) :
    Climbs father (next id) other ∨ Later father kids stop (next id) other := by
  obtain ⟨fatherNode, member⟩ := forest.listed id isNode below
  have list := forest.list _ fatherNode
  have link := (forest.child _ _ fatherNode (forest.next_mem fatherNode member some)).2.2
  cases later with
  | @sibling _ sibling _ before after split inAfter climbs =>
      rw [split] at list
      have follows := list.next_eq
      cases after with
      | nil => cases inAfter
      | cons head after =>
          obtain rfl : next id = head := follows
          rcases List.mem_cons.mp inAfter with rfl | inAfter
          · exact Or.inl climbs
          · have own : kids (father (next id)) = (before ++ [id]) ++ next id :: after := by
              rw [link, split, List.append_assoc, List.singleton_append]
            exact Or.inr (.sibling own inAfter climbs)
  | above inside later => exact Or.inr (.above (link.symm ▸ inside) (link.symm ▸ later))

/-- A walk goes up from a last sibling. -/
theorem later_up (forest : Forest father first next node top kids) (isNode : node id)
    (below : ¬ top id) (last : next id = 0) (later : Later father kids stop id other) :
    father id ≠ stop ∧ Later father kids stop (father id) other := by
  cases later with
  | @sibling _ sibling _ before after split inAfter climbs =>
      have list := forest.list _ (forest.listed id isNode below).1
      rw [split] at list
      have follows := list.next_eq
      cases after with
      | nil => cases inAfter
      | cons head after =>
          have present := list.ne_zero (List.mem_append_right before
            (List.mem_cons_of_mem id List.mem_cons_self))
          exact absurd (follows.symm.trans last) present
  | above inside later => exact ⟨inside, later⟩

/-! ## Ways on -/

/-- The walk goes down to the first child. -/
theorem pending_down (forest : Forest father first next node top kids)
    (tops : forall id, top id -> father id = 0) (inside : node other) (isNode : node id)
    (below : Climbs father stop id) {rest : List Nat} (split : kids id = child :: rest)
    (pending : Pending father kids stop id other) :
    other = id ∨ Pending father kids stop child other := by
  have member : child ∈ kids id := split ▸ List.mem_cons_self
  have apart : child ≠ stop := fun same =>
    forest.not_climbs tops isNode member (same.symm ▸ below)
  rcases pending with climbs | ⟨notStop, later⟩
  · rcases forest.later_down inside isNode tops split climbs with same | under | later
    · exact Or.inl same
    · exact Or.inr (Or.inl under)
    · exact Or.inr (Or.inr ⟨apart, later⟩)
  · exact Or.inr (Or.inr ⟨apart, forest.later_child isNode member notStop later⟩)

/-- The walk leaves an address without children. -/
theorem pending_leaf (forest : Forest father first next node top kids)
    (tops : forall id, top id -> father id = 0) (inside : node other) (leaf : kids id = [])
    (pending : Pending father kids stop id other) :
    other = id ∨ id ≠ stop ∧ Later father kids stop id other := by
  rcases pending with climbs | later
  · rcases forest.climbs_child inside tops climbs with same | ⟨child, member, -⟩
    · exact Or.inl same
    · rw [leaf] at member
      cases member
  · exact Or.inr later

/-- Below `stop`, the way up leads to `stop` or goes on below it. -/
theorem climbs_up (below : Climbs father stop id) (apart : id ≠ stop) :
    Climbs father stop (father id) :=
  (below.inv.resolve_left apart).2

/-- The walk goes on to the next sibling. -/
theorem pending_next (forest : Forest father first next node top kids)
    (tops : forall id, top id -> father id = 0) (isNode : node id) (notTop : ¬ top id)
    (below : Climbs father stop id) (apart : id ≠ stop) (some : next id ≠ 0) :
    Climbs father stop (next id) ∧ (Later father kids stop id other ->
      Pending father kids stop (next id) other) := by
  obtain ⟨fatherNode, member⟩ := forest.listed id isNode notTop
  have sibling := forest.next_mem fatherNode member some
  have link := (forest.child _ _ fatherNode sibling).2.2
  have above := climbs_up below apart
  have notStop : next id ≠ stop := fun same =>
    forest.not_climbs tops fatherNode sibling (same.symm ▸ above)
  refine ⟨.up (link.symm ▸ forest.some _ fatherNode) (link.symm ▸ above), fun later => ?_⟩
  rcases forest.later_next isNode notTop some later with climbs | later
  · exact Or.inl climbs
  · exact Or.inr ⟨notStop, later⟩

/-! ## Forests that grow -/

/-- Fathers are the same where they are the same for all addresses of the forest. -/
theorem climbs_congr {father' : Nat -> Nat} (forest : Forest father first next node top kids)
    (tops : forall id, top id -> father id = 0)
    (same : forall id, node id -> father' id = father id) (inside : node other) :
    Climbs father' id other ↔ Climbs father id other := by
  constructor
  · intro climbs
    induction climbs with
    | here => exact .here
    | @up other some _ inductionHypothesis =>
        rw [same other inside] at some inductionHypothesis
        have below : ¬ top other := fun isTop => some (tops other isTop)
        exact .up some (inductionHypothesis (forest.listed other inside below).1)
  · intro climbs
    induction climbs with
    | here => exact .here
    | @up other some _ inductionHypothesis =>
        have below : ¬ top other := fun isTop => some (tops other isTop)
        rw [← same other inside] at some inductionHypothesis
        refine .up some (inductionHypothesis ?_)
        rw [same other inside]
        exact (forest.listed other inside below).1

/-- What is to be visited later is so in a forest where only an address without
children has got some. -/
theorem later_congr {father' : Nat -> Nat} {kids' : Nat -> List Nat}
    (forest : Forest father first next node top kids) (tops : forall id, top id -> father id = 0)
    (same : forall id, node id -> father' id = father id)
    (lists : forall id, kids id ≠ [] -> kids' id = kids id) (isNode : node id)
    (below : Climbs father stop id) (apart : id ≠ stop) (inside : node other)
    (later : Later father kids stop id other) : Later father' kids' stop id other := by
  induction later with
  | @sibling id sibling other before after split member climbs =>
      have own : kids' (father' id) = before ++ id :: after := by
        rw [same id isNode, lists _ (by rw [split]; simp), split]
      exact .sibling own member ((forest.climbs_congr tops same inside).mpr climbs)
  | @above id other notStop _ inductionHypothesis =>
      obtain ⟨some, above⟩ := below.inv.resolve_left apart
      have notTop : ¬ top id := fun isTop => some (tops id isTop)
      refine .above (by rwa [same id isNode]) ?_
      rw [same id isNode]
      exact inductionHypothesis (forest.listed id isNode notTop).1 above notStop inside

theorem pending_congr {father' : Nat -> Nat} {kids' : Nat -> List Nat}
    (forest : Forest father first next node top kids) (tops : forall id, top id -> father id = 0)
    (same : forall id, node id -> father' id = father id)
    (lists : forall id, kids id ≠ [] -> kids' id = kids id) (isNode : node id)
    (below : Climbs father stop id) (inside : node other)
    (pending : Pending father kids stop id other) : Pending father' kids' stop id other := by
  rcases pending with climbs | ⟨apart, later⟩
  · exact Or.inl ((forest.climbs_congr tops same inside).mpr climbs)
  · exact Or.inr ⟨apart, forest.later_congr tops same lists isNode below apart inside later⟩

end Forest

end Library
end Mcachefs
