import Mathlib.Data.Finset.Card
import Mathlib.Data.Finset.Filter
import Mathlib.Data.Finset.Range
import Mcachefs.Library.Preorder

namespace Mcachefs
namespace Library

/-!
# Postorder

A walk over everything below a list of siblings leaves an address when it has
left all that is below it.  `Postorder` is the order in which it leaves them.  In a
forest of finitely many addresses there is such a walk below every one, it leaves
each address once, and none before an address that is below it.
-/

/-- The order in which a walk over the siblings `ids` leaves what is below them. -/
inductive Postorder (kids : Nat -> List Nat) : List Nat -> List Nat -> Prop
  | nil : Postorder kids [] []
  | cons {id : Nat} {ids inner outer : List Nat} (below : Postorder kids (kids id) inner)
      (after : Postorder kids ids outer) : Postorder kids (id :: ids) (inner ++ id :: outer)

namespace Forest

variable {father first next : Nat -> Nat} {node top : Nat -> Prop} {kids : Nat -> List Nat}
  {id one two other : Nat}

/-- What is below a child is below its father. -/
theorem climbs_of_child (forest : Forest father first next node top kids) (inside : node id)
    (member : one ∈ kids id) (climbs : Climbs father one other) : Climbs father id other := by
  obtain ⟨-, -, link⟩ := forest.child id one inside member
  have step : Climbs father id one := .up (link.symm ▸ forest.some id inside) (link.symm ▸ .here)
  exact step.trans climbs

/-- Nothing is below two children of an address. -/
theorem siblings_apart (forest : Forest father first next node top kids)
    (tops : forall id, top id -> father id = 0) (inside : node id) (oneIn : one ∈ kids id)
    (twoIn : two ∈ kids id) (left : Climbs father one other) (right : Climbs father two other) :
    one = two := by
  have oneLink := (forest.child id one inside oneIn).2.2
  have twoLink := (forest.child id two inside twoIn).2.2
  induction left with
  | here =>
      rcases right.inv with same | ⟨-, above⟩
      · exact same
      · exact absurd (oneLink ▸ above) (forest.not_climbs tops inside twoIn)
  | up _ above inductionHypothesis =>
      rcases right.inv with rfl | ⟨-, right⟩
      · exact absurd (twoLink ▸ above) (forest.not_climbs tops inside oneIn)
      · exact inductionHypothesis right

/-- There is a walk below every address, by the number of addresses below it. -/
theorem exists_postorder (forest : Forest father first next node top kids)
    (tops : forall id, top id -> father id = 0) {bound : Nat} (small : forall id, node id -> id < bound)
    (inside : node id) : Exists fun order => Postorder kids (kids id) order := by
  classical
  have smaller : forall id child, node id -> child ∈ kids id ->
      ((Finset.range bound).filter (Climbs father child)).card <
        ((Finset.range bound).filter (Climbs father id)).card := by
    intro id child inside member
    refine Finset.card_lt_card (Finset.ssubset_iff_of_subset ?_ |>.mpr ⟨id, ?_, ?_⟩)
    · intro other below
      rw [Finset.mem_filter] at below ⊢
      exact ⟨below.1, forest.climbs_of_child inside member below.2⟩
    · exact Finset.mem_filter.mpr ⟨Finset.mem_range.mpr (small id inside), .here⟩
    · intro below
      exact forest.not_climbs tops inside member (Finset.mem_filter.mp below).2
  induction size : ((Finset.range bound).filter (Climbs father id)).card using Nat.strong_induction_on
    generalizing id with
  | _ size inductionHypothesis =>
      have walks : forall ids : List Nat, (forall child, child ∈ ids -> child ∈ kids id) ->
          Exists fun order => Postorder kids ids order := by
        intro ids listed
        induction ids with
        | nil => exact ⟨[], .nil⟩
        | cons child ids rest =>
            have member := listed child List.mem_cons_self
            have childNode := (forest.child id child inside member).1
            obtain ⟨inner, below⟩ := inductionHypothesis _ (size ▸ smaller id child inside member)
              childNode rfl
            obtain ⟨outer, after⟩ := rest fun other later => listed other (List.mem_cons_of_mem _ later)
            exact ⟨_, .cons below after⟩
      exact walks (kids id) fun _ member => member

theorem exists_postorder_of_list (forest : Forest father first next node top kids)
    (tops : forall id, top id -> father id = 0) {bound : Nat} (small : forall id, node id -> id < bound)
    {ids : List Nat} (inside : forall id, id ∈ ids -> node id) :
    Exists fun order => Postorder kids ids order := by
  induction ids with
  | nil => exact ⟨[], .nil⟩
  | cons id ids inductionHypothesis =>
      obtain ⟨inner, below⟩ := forest.exists_postorder tops small (inside id List.mem_cons_self)
      obtain ⟨outer, after⟩ := inductionHypothesis fun other later =>
        inside other (List.mem_cons_of_mem id later)
      exact ⟨_, .cons below after⟩

end Forest

namespace Postorder

variable {father first next : Nat -> Nat} {node top : Nat -> Prop} {kids : Nat -> List Nat}
  {ids order : List Nat} {id other : Nat}

theorem nil_inv (walk : Postorder kids [] order) : order = [] := by
  cases walk
  rfl

/-- A walk leaves what is below its siblings. -/
theorem mem_iff (walk : Postorder kids ids order)
    (forest : Forest father first next node top kids) (tops : forall id, top id -> father id = 0)
    (inside : forall id, id ∈ ids -> node id) :
    other ∈ order ↔ Exists fun id => id ∈ ids ∧ node other ∧ Climbs father id other := by
  induction walk with
  | nil => exact ⟨fun member => absurd member List.not_mem_nil, fun found => absurd found.choose_spec.1
      List.not_mem_nil⟩
  | @cons id ids inner outer below after innerHypothesis outerHypothesis =>
      have isNode := inside id List.mem_cons_self
      have children := innerHypothesis fun child member => (forest.child id child isNode member).1
      have siblings := outerHypothesis fun id later => inside id (List.mem_cons_of_mem _ later)
      rw [List.mem_append, List.mem_cons, children, siblings]
      constructor
      · rintro (⟨child, member, otherNode, climbs⟩ | rfl | ⟨sibling, later, found⟩)
        · exact ⟨id, List.mem_cons_self, otherNode, forest.climbs_of_child isNode member climbs⟩
        · exact ⟨other, List.mem_cons_self, isNode, .here⟩
        · exact ⟨sibling, List.mem_cons_of_mem _ later, found⟩
      · rintro ⟨above, member, otherNode, climbs⟩
        rcases List.mem_cons.mp member with rfl | later
        · rcases forest.climbs_child otherNode tops climbs with same | ⟨child, isChild, climbs⟩
          · exact Or.inr (Or.inl same)
          · exact Or.inl ⟨child, isChild, otherNode, climbs⟩
        · exact Or.inr (Or.inr ⟨above, later, otherNode, climbs⟩)

/-- A walk leaves nothing that is below an address that it has left. -/
theorem pairwise (walk : Postorder kids ids order)
    (forest : Forest father first next node top kids) (tops : forall id, top id -> father id = 0)
    (nodup : forall id, node id -> (kids id).Nodup) (above : node id)
    (listed : forall child, child ∈ ids -> child ∈ kids id) (once : ids.Nodup) :
    order.Pairwise fun one two => ¬ Climbs father one two := by
  induction walk generalizing id with
  | nil => exact .nil
  | @cons child ids inner outer below after innerHypothesis outerHypothesis =>
      have member := listed child List.mem_cons_self
      have isNode := (forest.child id child above member).1
      obtain ⟨fresh, once⟩ := List.nodup_cons.mp once
      have later : forall sibling, sibling ∈ ids -> sibling ∈ kids id := fun sibling inIds =>
        listed sibling (List.mem_cons_of_mem _ inIds)
      have within : forall other, other ∈ inner ->
          Exists fun grandchild => grandchild ∈ kids child ∧ Climbs father grandchild other := by
        intro other inInner
        obtain ⟨grandchild, inKids, -, climbs⟩ := (below.mem_iff forest tops fun grandchild inKids =>
          (forest.child child grandchild isNode inKids).1).mp inInner
        exact ⟨grandchild, inKids, climbs⟩
      have outside : forall other, other ∈ outer -> ¬ Climbs father child other := by
        intro other inOuter climbs
        obtain ⟨sibling, inIds, -, lower⟩ := (after.mem_iff forest tops fun sibling inIds =>
          (forest.child id sibling above (later sibling inIds)).1).mp inOuter
        have same := forest.siblings_apart tops above member (later sibling inIds) climbs lower
        exact fresh (same ▸ inIds)
      have inside := innerHypothesis isNode (fun _ inKids => inKids) (nodup child isNode)
      refine List.pairwise_append.mpr ⟨inside, List.pairwise_cons.mpr
        ⟨outside, outerHypothesis above later once⟩, fun one inInner two inRest climbs => ?_⟩
      obtain ⟨grandchild, inKids, lower⟩ := within one inInner
      rcases List.mem_cons.mp inRest with rfl | inOuter
      · exact forest.not_climbs tops isNode inKids (lower.trans climbs)
      · exact outside two inOuter (forest.climbs_of_child isNode inKids (lower.trans climbs))

end Postorder

end Library
end Mcachefs
