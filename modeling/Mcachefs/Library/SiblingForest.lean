import Mcachefs.Library.LinkedList

namespace Mcachefs
namespace Library

/-!
# Forests of first children and next siblings

A store gives every address its father, its first child and its next sibling,
and `0` is the null address.  The children of an address are the linked list
that begins with its first child.  An address that is in no such list is a top:
the root, or an address that has been taken out of its list or not yet put into
one.  The father of a top means nothing, so that an address that is taken out
may keep the one it had.

There are four changes of a forest: a new address becomes a top, a top is put
into a list, an address is taken out of its list, and a top without children
goes.  Each is a change of the three links that keeps `Forest`.
-/

/-- The fathers lead from an address up to `top`. -/
inductive Climbs (father : Nat -> Nat) (top : Nat) : Nat -> Prop
  | here : Climbs father top top
  | up {id : Nat} (some : father id ≠ 0) (above : Climbs father top (father id)) :
      Climbs father top id

/-- The fathers lead to a top and end there. -/
inductive Held (father : Nat -> Nat) (top : Nat -> Prop) : Nat -> Prop
  | here {id : Nat} (isTop : top id) : Held father top id
  | up {id : Nat} (below : ¬ top id) (above : Held father top (father id)) : Held father top id

/-- The links make the addresses that satisfy `node` a forest with these lists
of children. -/
structure Forest (father first next : Nat -> Nat) (node top : Nat -> Prop)
    (kids : Nat -> List Nat) : Prop where
  some : forall id, node id -> id ≠ 0
  list : forall id, node id -> Segment next (first id) (kids id) 0
  child : forall id child, node id -> child ∈ kids id ->
    node child ∧ ¬ top child ∧ father child = id
  listed : forall id, node id -> ¬ top id -> node (father id) ∧ id ∈ kids (father id)
  ends : forall id, node id -> Held father top id

theorem Climbs.trans {father : Nat -> Nat} {one two three : Nat} (upper : Climbs father one two)
    (lower : Climbs father two three) : Climbs father one three := by
  induction lower with
  | here => exact upper
  | up some _ inductionHypothesis => exact .up some inductionHypothesis

theorem Climbs.inv {father : Nat -> Nat} {top id : Nat} (climbs : Climbs father top id) :
    id = top ∨ father id ≠ 0 ∧ Climbs father top (father id) := by
  cases climbs with
  | here => exact Or.inl rfl
  | up some above => exact Or.inr ⟨some, above⟩

/-- Where there are more tops the fathers lead to one of them earlier. -/
theorem Held.mono {father : Nat -> Nat} {top more : Nat -> Prop}
    (weaker : forall id, top id -> more id) {id : Nat} (held : Held father top id) :
    Held father more id := by
  induction held with
  | here isTop => exact .here (weaker _ isTop)
  | @up id _ _ inductionHypothesis =>
      by_cases isTop : more id
      · exact .here isTop
      · exact .up isTop inductionHypothesis

namespace Forest

variable {father first next : Nat -> Nat} {node top : Nat -> Prop} {kids : Nat -> List Nat}

/-- Only the links of the addresses in the forest matter. -/
theorem congr {father' first' next' : Nat -> Nat} {node' top' : Nat -> Prop}
    {kids' : Nat -> List Nat} (forest : Forest father first next node top kids)
    (nodes : forall id, node' id ↔ node id) (tops : forall id, node id -> (top' id ↔ top id))
    (fathers : forall id, node id -> father' id = father id)
    (firsts : forall id, node id -> first' id = first id)
    (nexts : forall id, node id -> next' id = next id)
    (lists : forall id, node id -> kids' id = kids id) :
    Forest father' first' next' node' top' kids' where
  some id inside := forest.some id ((nodes id).mp inside)
  list id inside := by
    have old := (nodes id).mp inside
    rw [firsts id old, lists id old]
    exact (forest.list id old).congr fun other member =>
      nexts other (forest.child id other old member).1
  child id child inside member := by
    have old := (nodes id).mp inside
    rw [lists id old] at member
    obtain ⟨isNode, below, above⟩ := forest.child id child old member
    exact ⟨(nodes child).mpr isNode, fun isTop => below ((tops child isNode).mp isTop),
      (fathers child isNode).trans above⟩
  listed id inside below := by
    have old := (nodes id).mp inside
    obtain ⟨isNode, member⟩ := forest.listed id old fun isTop => below ((tops id old).mpr isTop)
    rw [fathers id old, lists _ isNode]
    exact ⟨(nodes _).mpr isNode, member⟩
  ends id inside := by
    have old := (nodes id).mp inside
    have held := forest.ends id old
    clear inside
    induction held with
    | here isTop => exact .here ((tops _ old).mpr isTop)
    | @up id below _ inductionHypothesis =>
        refine .up (fun isTop => below ((tops id old).mp isTop)) ?_
        rw [fathers id old]
        exact inductionHypothesis (forest.listed id old below).1

/-- No address is above itself, unless tops have fathers. -/
theorem acyclic (forest : Forest father first next node top kids)
    (tops : forall id, top id -> father id = 0) {id : Nat} (inside : node id) (below : ¬ top id) :
    ¬ Climbs father id (father id) := by
  have held := forest.ends id inside
  induction held with
  | here isTop => exact absurd isTop below
  | @up id _ _ inductionHypothesis =>
      intro cycle
      have fatherNode := (forest.listed id inside below).1
      have step : Climbs father (father id) id := .up (forest.some _ fatherNode) .here
      rcases cycle.inv with same | ⟨some, above⟩
      · exact inductionHypothesis fatherNode (same.symm ▸ below)
          (by rw [same, same]; exact .here)
      · by_cases isTop : top (father id)
        · exact some (tops _ isTop)
        · exact inductionHypothesis fatherNode isTop (step.trans above)

/-- A child is not above its father. -/
theorem not_climbs (forest : Forest father first next node top kids)
    (tops : forall id, top id -> father id = 0) {id child : Nat} (inside : node id)
    (member : child ∈ kids id) : ¬ Climbs father child id := by
  obtain ⟨childNode, below, link⟩ := forest.child id child inside member
  exact link ▸ forest.acyclic tops childNode below

/-! ## Changes -/

/-- A new address without children is a top. -/
theorem grow {fresh : Nat} (forest : Forest father first next node top kids) (some : fresh ≠ 0)
    (outside : ¬ node fresh) (leaf : first fresh = 0) (none : kids fresh = []) :
    Forest father first next (fun id => node id ∨ id = fresh) (fun id => top id ∨ id = fresh)
      kids where
  some := by
    rintro id (inside | rfl)
    · exact forest.some id inside
    · exact some
  list := by
    rintro id (inside | rfl)
    · exact forest.list id inside
    · rw [leaf, none]
      exact .nil 0
  child := by
    rintro id child (inside | rfl) member
    · obtain ⟨isNode, below, above⟩ := forest.child id child inside member
      refine ⟨Or.inl isNode, ?_, above⟩
      rintro (isTop | rfl)
      · exact below isTop
      · exact outside isNode
    · rw [none] at member
      cases member
  listed := by
    rintro id (inside | rfl) below
    · obtain ⟨isNode, member⟩ := forest.listed id inside fun isTop => below (Or.inl isTop)
      exact ⟨Or.inl isNode, member⟩
    · exact absurd (Or.inr rfl) below
  ends := by
    rintro id (inside | rfl)
    · exact (forest.ends id inside).mono fun _ => Or.inl
    · exact .here (Or.inr rfl)

/-- A top becomes the first child of an address that is not below it. -/
theorem link {above fresh : Nat} (forest : Forest father first next node top kids)
    (inside : node above) (isNode : node fresh) (isTop : top fresh)
    (apart : ¬ Climbs father fresh above) :
    Forest (Function.update father fresh above) (Function.update first above fresh)
      (Function.update next fresh (first above)) node (fun id => top id ∧ id ≠ fresh)
      (Function.update kids above (fresh :: kids above)) := by
  have unlisted : forall id, node id -> fresh ∉ kids id := fun id inside member =>
    (forest.child id fresh inside member).2.1 isTop
  refine ⟨forest.some, fun id isNode' => ?_, fun id child isNode' member => ?_,
    fun id isNode' below => ?_, fun id isNode' => ?_⟩
  · by_cases same : id = above
    · subst same
      rw [Function.update_self, Function.update_self]
      exact (forest.list id inside).push (forest.some fresh isNode) (unlisted id inside)
    · rw [Function.update_of_ne same, Function.update_of_ne same]
      exact (forest.list id isNode').update (unlisted id isNode') _
  · by_cases new : child = fresh
    · subst new
      by_cases same : id = above
      · subst same
        exact ⟨isNode, fun isTop => isTop.2 rfl, Function.update_self _ _ _⟩
      · rw [Function.update_of_ne same] at member
        exact absurd member (unlisted id isNode')
    · have old : child ∈ kids id := by
        by_cases same : id = above
        · subst same
          rw [Function.update_self] at member
          exact (List.mem_cons.mp member).resolve_left new
        · rwa [Function.update_of_ne same] at member
      obtain ⟨childNode, below, link⟩ := forest.child id child isNode' old
      exact ⟨childNode, fun isTop => below isTop.1, (Function.update_of_ne new _ _).trans link⟩
  · by_cases new : id = fresh
    · subst new
      rw [Function.update_self, Function.update_self]
      exact ⟨inside, List.mem_cons_self⟩
    · obtain ⟨fatherNode, member⟩ := forest.listed id isNode' fun isTop => below ⟨isTop, new⟩
      rw [Function.update_of_ne new]
      refine ⟨fatherNode, ?_⟩
      by_cases same : father id = above
      · rw [same, Function.update_self]
        exact List.mem_cons_of_mem _ (same ▸ member)
      · rwa [Function.update_of_ne same]
  · -- From `above` upwards nothing changes, since the fresh address is not met there.
    have upper : forall other, node other -> Held father top other -> ¬ Climbs father fresh other ->
        Held (Function.update father fresh above) (fun id => top id ∧ id ≠ fresh) other := by
      intro other otherNode held
      induction held with
      | here otherTop =>
          refine fun away => .here ⟨otherTop, ?_⟩
          rintro rfl
          exact away .here
      | @up other below _ inductionHypothesis =>
          intro away
          have different : other ≠ fresh := fun same => away (same ▸ .here)
          have fatherNode := (forest.listed other otherNode below).1
          refine .up (fun isTop => below isTop.1) ?_
          rw [Function.update_of_ne different]
          exact inductionHypothesis fatherNode fun climbs =>
            away (.up (forest.some _ fatherNode) climbs)
    have held := forest.ends id isNode'
    clear isNode'
    have again : Held (Function.update father fresh above) (fun id => top id ∧ id ≠ fresh) fresh := by
      refine .up (fun isTop => isTop.2 rfl) ?_
      rw [Function.update_self]
      exact upper above inside (forest.ends above inside) apart
    induction held with
    | @here id otherTop =>
        by_cases same : id = fresh
        · exact same ▸ again
        · exact .here ⟨otherTop, same⟩
    | @up id below _ inductionHypothesis =>
        refine .up (fun isTop => below isTop.1) ?_
        rwa [Function.update_of_ne (fun same : id = fresh => below (same ▸ isTop))]

/-- Taking an address out of its list, however the list is relinked. -/
private theorem unlinkWith {first' next' : Nat -> Nat} {gone : Nat} {before after : List Nat}
    (forest : Forest father first next node top kids) (isNode : node gone)
    (split : kids (father gone) = before ++ gone :: after)
    (list : forall id, node id -> Segment next' (first' id)
      (Function.update kids (father gone) (before ++ after) id) 0) (below : ¬ top gone) :
    Forest father first' next' node (fun id => top id ∨ id = gone)
      (Function.update kids (father gone) (before ++ after)) := by
  have nodup := (forest.list _ (forest.listed gone isNode below).1).nodup
  rw [split, List.nodup_middle, List.nodup_cons] at nodup
  have kept : forall id child, child ∈ Function.update kids (father gone) (before ++ after) id ->
      child ∈ kids id := by
    intro id child member
    by_cases same : id = father gone
    · subst same
      rw [Function.update_self] at member
      rw [split]
      exact List.mem_append.mpr ((List.mem_append.mp member).imp_right (List.mem_cons_of_mem _))
    · rwa [Function.update_of_ne same] at member
  refine ⟨forest.some, list, fun id child isNode' member => ?_, fun id isNode' out => ?_,
    fun id isNode' => (forest.ends id isNode').mono fun _ => Or.inl⟩
  · obtain ⟨childNode, childBelow, link⟩ := forest.child id child isNode' (kept id child member)
    refine ⟨childNode, ?_, link⟩
    rintro (isTop | rfl)
    · exact childBelow isTop
    · rw [← link, Function.update_self] at member
      exact nodup.1 member
  · have different : id ≠ gone := fun same => out (Or.inr same)
    obtain ⟨fatherNode, member⟩ := forest.listed id isNode' fun isTop => out (Or.inl isTop)
    refine ⟨fatherNode, ?_⟩
    by_cases same : father id = father gone
    · rw [same, Function.update_self]
      rw [same, split] at member
      exact List.mem_append.mpr ((List.mem_append.mp member).imp_right
        fun rest => (List.mem_cons.mp rest).resolve_left different)
    · rwa [Function.update_of_ne same]

/-- A first child is taken out of its list. -/
theorem unlinkFirst {gone : Nat} {after : List Nat}
    (forest : Forest father first next node top kids) (isNode : node gone) (below : ¬ top gone)
    (split : kids (father gone) = gone :: after) :
    Forest father (Function.update first (father gone) (next gone)) next node
      (fun id => top id ∨ id = gone) (Function.update kids (father gone) after) := by
  have around : kids (father gone) = [] ++ gone :: after := split
  refine forest.unlinkWith isNode around (fun id isNode' => ?_) below
  by_cases same : id = father gone
  · subst same
    rw [Function.update_self, Function.update_self]
    have list := forest.list _ isNode'
    rw [split] at list
    exact list.cons_inv.2.2
  · rw [Function.update_of_ne same, Function.update_of_ne same]
    exact forest.list id isNode'

/-- A child that another child precedes is taken out of its list. -/
theorem unlinkAfter {gone previous : Nat} {before after : List Nat}
    (forest : Forest father first next node top kids) (isNode : node gone) (below : ¬ top gone)
    (split : kids (father gone) = before ++ previous :: gone :: after) :
    Forest father first (Function.update next previous (next gone)) node
      (fun id => top id ∨ id = gone)
      (Function.update kids (father gone) (before ++ previous :: after)) := by
  have around : kids (father gone) = (before ++ [previous]) ++ gone :: after := by
    rw [split, List.append_assoc, List.singleton_append]
  have fatherNode := (forest.listed gone isNode below).1
  have shape : before ++ previous :: after = (before ++ [previous]) ++ after := by
    rw [List.append_assoc, List.singleton_append]
  rw [shape]
  refine forest.unlinkWith isNode around (fun id isNode' => ?_) below
  by_cases same : id = father gone
  · subst same
    rw [Function.update_self, ← shape]
    exact (split ▸ forest.list _ fatherNode).unlink
  · rw [Function.update_of_ne same]
    refine (forest.list id isNode').update (fun member => same ?_) _
    have own : previous ∈ kids (father gone) := split ▸ List.mem_append_right _ List.mem_cons_self
    exact (forest.child id previous isNode' member).2.2.symm.trans
      (forest.child _ previous fatherNode own).2.2

/-- A top without children goes. -/
theorem drop {gone : Nat} (forest : Forest father first next node top kids) (isTop : top gone)
    (leaf : kids gone = []) :
    Forest father first next (fun id => node id ∧ id ≠ gone) (fun id => top id ∧ id ≠ gone)
      kids where
  some id inside := forest.some id inside.1
  list id inside := forest.list id inside.1
  child id child inside member := by
    obtain ⟨isNode, below, above⟩ := forest.child id child inside.1 member
    exact ⟨⟨isNode, fun same => below (same ▸ isTop)⟩, fun isTop => below isTop.1, above⟩
  listed id inside out := by
    obtain ⟨isNode, member⟩ := forest.listed id inside.1 fun isTop => out ⟨isTop, inside.2⟩
    refine ⟨⟨isNode, fun same => ?_⟩, member⟩
    rw [same, leaf] at member
    cases member
  ends id inside := by
    obtain ⟨isNode, different⟩ := inside
    have held := forest.ends id isNode
    induction held with
    | here otherTop => exact .here ⟨otherTop, different⟩
    | @up id below _ inductionHypothesis =>
        obtain ⟨fatherNode, member⟩ := forest.listed id isNode below
        refine .up (fun isTop => below isTop.1) (inductionHypothesis fatherNode fun same => ?_)
        rw [same, leaf] at member
        cases member

/-! ## Walks -/

/-- First children and next siblings lead from the root to the address. -/
inductive Reaches (first next : Nat -> Nat) (root : Nat) : Nat -> Prop
  | root : Reaches first next root root
  | child {id : Nat} (reached : Reaches first next root id) (some : first id ≠ 0) :
      Reaches first next root (first id)
  | next {id : Nat} (reached : Reaches first next root id) (some : next id ≠ 0) :
      Reaches first next root (next id)

/-- What follows a child is a child. -/
theorem next_mem (forest : Forest father first next node top kids) {id child : Nat}
    (inside : node id) (member : child ∈ kids id) (some : next child ≠ 0) :
    next child ∈ kids id := by
  obtain ⟨before, after, split⟩ := List.append_of_mem member
  have list := forest.list id inside
  rw [split] at list ⊢
  have follows := list.next_eq
  cases after with
  | nil => exact absurd follows some
  | cons other after => simp [follows]

theorem first_mem (forest : Forest father first next node top kids) {id : Nat}
    (inside : node id) (some : first id ≠ 0) : first id ∈ kids id := by
  have list := forest.list id inside
  cases shape : kids id with
  | nil => exact absurd (list.head_zero_iff.mpr shape) some
  | cons head rest =>
      rw [shape] at list
      rw [list.cons_inv.1]
      exact List.mem_cons_self

/-- Where the root is the only top, the fathers of every address lead to it. -/
theorem climbs_root {root : Nat} (forest : Forest father first next node top kids)
    (tops : forall id, node id -> (top id ↔ id = root)) {id : Nat} (inside : node id) :
    Climbs father root id := by
  have held := forest.ends id inside
  induction held with
  | @here id isTop => exact (tops id inside).mp isTop ▸ .here
  | @up id below _ inductionHypothesis =>
      have fatherNode := (forest.listed id inside below).1
      exact .up (forest.some _ fatherNode) (inductionHypothesis fatherNode)

/-- Where the root is the only top, the walk from the root meets exactly the
addresses of the forest. -/
theorem reaches_iff {root : Nat} (forest : Forest father first next node top kids)
    (isNode : node root) (tops : forall id, node id -> (top id ↔ id = root))
    (alone : next root = 0) (id : Nat) : Reaches first next root id ↔ node id := by
  constructor
  · intro reached
    induction reached with
    | root => exact isNode
    | child _ some inductionHypothesis =>
        exact (forest.child _ _ inductionHypothesis
          (forest.first_mem inductionHypothesis some)).1
    | @next id _ some inductionHypothesis =>
        have below : ¬ top id := by
          intro isTop
          rw [(tops id inductionHypothesis).mp isTop] at some
          exact some alone
        obtain ⟨fatherNode, member⟩ := forest.listed id inductionHypothesis below
        exact (forest.child _ _ fatherNode (forest.next_mem fatherNode member some)).1
  · intro inside
    have held := forest.ends id inside
    induction held with
    | @here id isTop =>
        rw [(tops id inside).mp isTop]
        exact .root
    | @up id below _ inductionHypothesis =>
        obtain ⟨fatherNode, member⟩ := forest.listed id inside below
        have fatherReached := inductionHypothesis fatherNode
        have all : forall head ids, Segment next head ids 0 ->
            (head ≠ 0 -> Reaches first next root head) ->
            forall id, id ∈ ids -> Reaches first next root id := by
          intro head ids list
          induction ids generalizing head with
          | nil => exact fun _ id member => nomatch member
          | cons other ids tailHypothesis =>
              obtain ⟨rfl, some, rest⟩ := list.cons_inv
              intro start id member
              rcases List.mem_cons.mp member with rfl | member
              · exact start some
              · exact tailHypothesis (next head) rest (fun more => .next (start some) more) id member
        exact all _ _ (forest.list _ fatherNode) (fun some => .child fatherReached some) id member

end Forest

end Library
end Mcachefs
