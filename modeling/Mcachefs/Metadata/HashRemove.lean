import Mcachefs.Metadata.HashSwap
import Mathlib.Data.List.Perm.Basic
import Mathlib.Order.Nat

namespace Mcachefs
namespace HashIndex

open Library

/-!
# Removal from the hash index

`doRemoveHash` follows `mcachefs_metadata_do_remove_hash`: an entry with at
most one child is unlinked, with a double-black repair where it was black; an
entry with two children is exchanged with its successor first.  The successor
never becomes the root of the head, though, so that the removal goes wrong for
the entry that is `hash_root`, and for this one only: `removeHash_valid_iff`.
-/

variable {Hash : Type}

/-! ## Valid indexes -/

/-- A doubly linked collision list, between the ids `previous` and `next`. -/
def IsChain (entries : Id -> Links Hash) : (previous : Id) -> List Id -> (next : Id) -> Prop
  | _, [], _ => True
  | previous, id :: rest, next =>
      id ≠ 0 ∧ (entries id).collision_previous = previous ∧
        (entries id).collision_next = rest.headD next ∧ IsChain entries id rest next

/-- The store holds a red-black search tree by hash, and each of its entries
is the head of the collision list of its hash. -/
structure ValidIndex [LinearOrder Hash] (store : Store Hash) (tree : RbTree Id)
    (tails : Id -> List Id) : Prop where
  holds : Holds store tree
  redBlack : tree.RedBlack
  ordered : tree.inorder.Pairwise fun one two =>
    (store.entries one).hash < (store.entries two).hash
  chained : forall id, id ∈ tree.inorder -> IsChain store.entries 0 (id :: tails id) 0
  distinct : forall id, id ∈ tree.inorder -> (id :: tails id).Nodup
  sameHash : forall id, id ∈ tree.inorder -> forall tail, tail ∈ tails id ->
    (store.entries tail).hash = (store.entries id).hash
  detached : forall id, id ∈ tree.inorder -> forall tail, tail ∈ tails id ->
    (store.entries tail).up = 0 ∧ (store.entries tail).left = 0 ∧ (store.entries tail).right = 0

/-- No entry shares its hash with another one. -/
def noCollisions : Id -> List Id :=
  fun _ => []

namespace Store

/-! ## The functions -/

/-- `mcachefs_metadata_find_successor`. -/
def findSuccessor : (fuel : Nat) -> Id -> Store Hash -> Except Fault Id
  | 0, _, _ => .error .fuel
  | fuel + 1, mdata, store =>
      if (store.entries mdata).left = 0 then .ok mdata
      else findSuccessor fuel (store.entries mdata).left store

/-- `mcachefs_metadata_find_replacer`; `0` for `NULL`. -/
def findReplacer (fuel : Nat) (mdata : Id) (store : Store Hash) : Except Fault Id :=
  let links := store.entries mdata
  if links.left ≠ 0 ∧ links.right ≠ 0 then findSuccessor fuel links.right store
  else if links.left = 0 ∧ links.right = 0 then .ok 0
  else if links.left ≠ 0 then .ok links.left
  else .ok links.right

/-- In `mcachefs_metadata_do_remove_hash_collision`: the next entry takes over
the child on one side. -/
def takeChild (side : Side) (next mdata : Id) (nextHas : Fault) (store : Store Hash) :
    Except Fault (Store Hash) :=
  let child := (store.entries mdata).child side
  if child = 0 then .ok store
  else if (store.entries next).child side ≠ 0 then .error nextHas
  else .ok ((store.setChild side next child).setUp child next)

/-- In `mcachefs_metadata_do_remove_hash_collision`: the next entry takes the
place of the head of the list. -/
def replaceHead (mdata next : Id) (store : Store Hash) : Except Fault (Store Hash) := do
  let up := (store.entries mdata).up
  if next = 0 then .error .noPreviousNoNext
  else if up = 0 ∧ store.hash_root ≠ mdata then .error .noUpButNoRoot
  else
    let store :=
      if up = 0 then store.setHashRoot next
      else if (store.entries up).left = mdata then store.setChild .left up next
      else store.setChild .right up next
    let store ← takeChild .left next mdata .nextHasLeft store
    takeChild .right next mdata .nextHasRight store

/-- `mcachefs_metadata_do_remove_hash_collision`. -/
def doRemoveHashCollision (mdata : Id) (store : Store Hash) : Except Fault (Store Hash) := do
  let previous := (store.entries mdata).collision_previous
  let next := (store.entries mdata).collision_next
  let store ←
    if previous = 0 then replaceHead mdata next store
    else .ok (store.modify previous fun links => { links with collision_next := next })
  if next = 0 then .ok store
  else .ok (store.modify next fun links => { links with collision_previous := previous })

/-- Link `child` where `mdata` was linked from `up`. -/
def relink (isLeft : Bool) (up child : Id) (store : Store Hash) : Store Hash :=
  if isLeft then store.setChild .left up child else store.setChild .right up child

/-- `mcachefs_metadata_do_remove_hash`. -/
def doRemoveHash : (fuel : Nat) -> Id -> Store Hash -> Except Fault (Store Hash)
  | 0, _, _ => .error .fuel
  | fuel + 1, mdata, store => do
      let links := store.entries mdata
      if store.selfReference mdata then .error .corruptedEntry
      else if links.collision_previous ≠ 0 ∨ links.collision_next ≠ 0 then
        doRemoveHashCollision mdata store
      else
        let up := links.up
        let iAmLeft := store.isLeftChild mdata
        let replacer ← findReplacer fuel mdata store
        let uvBlack := (replacer = 0 ∨ (store.entries replacer).color = .black) ∧
          links.color = .black
        if replacer = 0 then
          if mdata = store.hash_root then .error .deletedTheRoot
          else
            let store ←
              if uvBlack then fixDoubleBlack fuel mdata store
              else if store.brother mdata = 0 then .ok store
              else .ok (store.setColor (store.brother mdata) .red)
            if up = 0 then .error .nullPointer
            else .ok (store.relink iAmLeft up 0)
        else if links.left = 0 ∨ links.right = 0 then
          if up = 0 then
            if mdata ≠ store.hash_root then .error .noUpNotRoot
            else .error .dot
          else
            let store := (store.relink iAmLeft up replacer).setUp replacer up
            if uvBlack then fixDoubleBlack fuel replacer store
            else .ok (store.setColor replacer .black)
        else
          let store ← hashSwap fuel replacer mdata store
          doRemoveHash fuel mdata store

/-- `mcachefs_metadata_cleanup_hash`. -/
def cleanupHash (mdata : Id) (store : Store Hash) : Store Hash :=
  store.modify mdata fun links => { links with up := 0, left := 0, right := 0 }

/-- `mcachefs_metadata_remove_hash`. -/
def removeHash (fuel : Nat) (mdata : Id) (store : Store Hash) : Except Fault (Store Hash) := do
  let store ← doRemoveHash fuel mdata store
  .ok (store.cleanupHash mdata)

end Store

/-! ## Unlinking an entry with at most one child -/

theorem relink_eq_setChild {store : Store Hash} {ids : List Id} (linked : Linked store.entries ids)
    {side : Side} {id up : Id} (member : id ∈ ids) (above : up ∈ ids)
    (stands : (store.entries up).child side = id) (base : Store Hash) (child : Id) :
    base.relink (store.isLeftChild id) up child = base.setChild side up child := by
  obtain ⟨onLeft, onRight⟩ := linked.isLeftChild member above
  unfold Store.relink
  cases side with
  | left => rw [if_pos (onLeft.mp stands).2]
  | right => rw [if_neg (onRight.mp stands).2]

/-- The only child of an entry takes its place. -/
theorem Holds.unlink {store : Store Hash} {side : Side} {color : Color} {child : RbTree Id}
    {id : Id} {frame : Frame Id} {outer : List (Frame Id)}
    (holds : Holds store (plug (side.node color child id .leaf) (frame :: outer))) :
    Holds (if rootId child = 0 then store.setChild frame.side frame.value (rootId child)
        else (store.setChild frame.side frame.value (rootId child)).setUp (rootId child)
          frame.value)
      (plug child (frame :: outer)) := by
  obtain ⟨isTree, isPlace, distinct⟩ := holds.split
  obtain ⟨present, -, -, -, -, childTree, -⟩ := isTree_node.mp isTree
  have childRoot : rootId child ≠ 0 -> rootId child ∈ child.inorder := rootId_mem
  obtain ⟨next, nextEq⟩ : Exists fun next => next =
    if rootId child = 0 then store.setChild frame.side frame.value (rootId child)
    else (store.setChild frame.side frame.value (rootId child)).setUp (rootId child)
      frame.value := ⟨_, rfl⟩
  have aroundDistinct : (around (frame :: outer)).Nodup := by grind
  have childDistinct : child.inorder.Nodup := by grind
  have apart : forall one, one ∈ child.inorder -> forall two, two ∈ around (frame :: outer) ->
      one ≠ two := by grind
  have top : frame.value ∈ around (frame :: outer) := List.mem_cons_self
  have outside : forall other, other ∈ around (frame :: outer) -> next.entries other =
      (store.setChild frame.side frame.value (rootId child)).entries other := by
    intro other member
    rw [nextEq]
    split
    · rfl
    · next some => exact Store.modify_ne _ (apart _ (childRoot some) _ member).symm _
  have inside : forall other, other ∈ child.inorder -> other ≠ rootId child ->
      next.entries other = store.entries other := by
    intro other member notRoot
    have unchanged : (store.setChild frame.side frame.value (rootId child)).entries other =
        store.entries other := store.modify_ne (apart other member _ top) _
    rw [nextEq]
    split
    · exact unchanged
    · exact (Store.modify_ne _ notRoot _).trans unchanged
  have atRoot : rootId child ≠ 0 -> next.entries (rootId child) =
      { store.entries (rootId child) with up := frame.value } := by
    intro some
    rw [nextEq, if_neg some]
    refine (Store.modify_same _ _ _).trans ?_
    rw [Store.setChild, store.modify_ne (apart _ (childRoot some) _ top)]
  rw [← nextEq]
  refine ⟨isTree_plug.mpr ⟨childTree.moved childDistinct atRoot inside,
    (isPlace.setChild aroundDistinct).congr outside⟩, ?_, ?_⟩
  · rw [(plug_perm child (frame :: outer)).nodup_iff, List.nodup_append]
    exact ⟨childDistinct, aroundDistinct, apart⟩
  · have root : next.hash_root = store.hash_root := by
      rw [nextEq]
      split <;> rfl
    rw [root, holds.root, rootId_plug_cons, ← rootId_plug_cons]

/-- The root of a tree is outside every place below it. -/
theorem rootId_plug_mem (tree : RbTree Id) (frame : Frame Id) (outer : List (Frame Id)) :
    rootId (plug tree (frame :: outer)) ∈ around (frame :: outer) := by
  induction outer generalizing tree frame with
  | nil => simp [plug, Frame.fill, around]
  | cons next outer inductionHypothesis =>
      have above := inductionHypothesis (frame.fill tree) next
      exact List.mem_cons_of_mem _ (List.mem_append_right _ above)

theorem Holds.not_root {store : Store Hash} {tree : RbTree Id} {frame : Frame Id}
    {outer : List (Frame Id)} (holds : Holds store (plug tree (frame :: outer))) {id : Id}
    (member : id ∈ tree.inorder) : id ≠ store.hash_root := by
  rw [holds.root]
  have distinct := ((plug_perm tree (frame :: outer)).nodup_iff.mp holds.distinct)
  exact (List.nodup_append.mp distinct).2.2 id member _ (rootId_plug_mem tree frame outer)

/-- The only child, if there is one, is the replacer. -/
theorem Holds.findReplacer {store : Store Hash} {side : Side} {color : Color} {child : RbTree Id}
    {id : Id} {frames : List (Frame Id)}
    (holds : Holds store (plug (side.node color child id .leaf) frames)) (fuel : Nat) :
    store.findReplacer fuel id = .ok (rootId child) := by
  obtain ⟨-, -, -, near, far⟩ := holds.links
  unfold Store.findReplacer
  cases side with
  | left =>
      have left : (store.entries id).left = rootId child := near
      have right : (store.entries id).right = 0 := far
      simp only [left, right, ne_eq, not_true_eq_false, and_false, and_true, if_false]
      split
      · next none => rw [none]
      · rfl
  | right =>
      have left : (store.entries id).left = 0 := far
      have right : (store.entries id).right = rootId child := near
      simp only [left, right, ne_eq, not_true_eq_false, false_and, true_and, if_false]
      split
      · next none => rw [none]
      · rfl

namespace Store

theorem modify_eq_self (store : Store Hash) {id : Id} {change : Links Hash -> Links Hash}
    (same : change (store.entries id) = store.entries id) : store.modify id change = store := by
  unfold modify
  rw [same, Function.update_eq_self]

/-- The entry is gone from the place, and its only child stands there. -/
def Unlinks (store : Store Hash) (frames : List (Frame Id)) (child : RbTree Id)
    (result : Except Fault (Store Hash)) : Prop :=
  Exists fun next => Exists fun tree => result = .ok next ∧ Holds next tree ∧ tree.RedBlack ∧
    tree.inorder = before frames ++ (child.inorder ++ after frames) ∧ store.SameKeys next

end Store

/-- What the removal of an entry with at most one child does after its tests. -/
theorem Holds.doRemoveHash {store : Store Hash} {side : Side} {color : Color} {child : RbTree Id}
    {id : Id} {frame : Frame Id} {outer : List (Frame Id)}
    (holds : Holds store (plug (side.node color child id .leaf) (frame :: outer)))
    (alone : (store.entries id).collision_next = 0 ∧ (store.entries id).collision_previous = 0)
    (fuel : Nat) :
    store.doRemoveHash (fuel + 1) id =
      if rootId child = 0 then do
        let store ←
          if color = .black then store.fixDoubleBlack fuel id
          else if rootId frame.sibling = 0 then .ok store
          else .ok (store.setColor (rootId frame.sibling) .red)
        .ok (store.setChild frame.side frame.value 0)
      else
        let linked := (store.setChild frame.side frame.value (rootId child)).setUp (rootId child)
          frame.value
        if child.color = .black ∧ color = .black then linked.fixDoubleBlack fuel (rootId child)
        else .ok (linked.setColor (rootId child) .black) := by
  obtain ⟨present, colored, above, -, -⟩ := holds.links
  obtain ⟨isTree, isPlace, -⟩ := holds.split
  obtain ⟨-, -, -, near, far, childTree, -⟩ := isTree_node.mp isTree
  have linked := holds.linked
  have member : id ∈ (plug (side.node color child id .leaf) (frame :: outer)).inorder :=
    mem_plug.mpr (Or.inl ((side.node_perm _ _ _ _).mem_iff.mpr List.mem_cons_self))
  have aboveMember : frame.value ∈ (plug (side.node color child id .leaf)
      (frame :: outer)).inorder := mem_plug.mpr (Or.inr List.mem_cons_self)
  have relinked := fun base new =>
    relink_eq_setChild linked member aboveMember isPlace.2.2.2.1 base new
  have notRoot : id ≠ store.hash_root :=
    holds.not_root ((side.node_perm _ _ _ _).mem_iff.mpr List.mem_cons_self)
  have upPresent : frame.value ≠ 0 := isPlace.1
  have brother : store.brother id = rootId frame.sibling := by
    have result := (holds.brother (by rwa [rootId_node])).2.2.1
    rwa [rootId_node] at result
  have thin : (store.entries id).left = 0 ∨ (store.entries id).right = 0 := by
    cases side with
    | left => exact Or.inr far
    | right => exact Or.inl far
  have aboveValue : (store.entries id).up = frame.value := above
  rw [Store.doRemoveHash]
  simp only [holds.not_selfReference, Bool.false_eq_true, if_false, alone.1, alone.2, ne_eq,
    not_true_eq_false, or_self, holds.findReplacer, Except.bind, bind, aboveValue, relinked,
    if_neg upPresent, if_neg notRoot, brother, colored, if_pos thin]
  cases child with
  | leaf =>
      simp only [rootId, true_or, true_and, if_true]
  | node childColor left childId right =>
      have childPresent : childId ≠ 0 := childTree.1
      have childColored : (store.entries childId).color =
          (RbTree.node childColor left childId right).color := childTree.2.1
      simp only [rootId, childPresent, if_false, false_or, childColored]

/-- In a balanced tree an only child is red, below a black entry. -/
theorem balanced_thin {side : Side} {color : Color} {child : RbTree Id} {id : Id} {height : Nat}
    (balanced : (side.node color child id .leaf).Balanced height) :
    child = .leaf ∧ height = (if color = .black then 1 else 0) ∨
      (Exists fun left => Exists fun childId => Exists fun right =>
        child = .node .red left childId right) ∧ color = .black ∧ height = 1 ∧
          child.Balanced 0 := by
  cases color with
  | red =>
      obtain ⟨near, far, nearBlack, -⟩ := Side.balanced_red.mp balanced
      have none : height = 0 := far
      subst none
      cases child with
      | leaf => exact Or.inl ⟨rfl, rfl⟩
      | node childColor left childId right =>
          cases childColor with
          | red => cases nearBlack
          | black =>
              obtain ⟨below, impossible, -⟩ := near
              cases impossible
  | black =>
      cases height with
      | zero =>
          cases side <;> obtain ⟨_, impossible, -⟩ := balanced <;> cases impossible
      | succ height =>
          obtain ⟨near, far⟩ := Side.balanced_black.mp balanced
          have none : height = 0 := far
          subst none
          cases child with
          | leaf => exact Or.inl ⟨rfl, rfl⟩
          | node childColor left childId right =>
              cases childColor with
              | red => exact Or.inr ⟨⟨left, childId, right, rfl⟩, rfl, rfl, near⟩
              | black =>
                  obtain ⟨below, impossible, -⟩ := near
                  cases impossible

/-- The entry to remove is a red leaf: its brother is red or missing, and the
entry is unlinked. -/
theorem unlinks_redLeaf {store : Store Hash} {side : Side} {id : Id} {frame : Frame Id}
    {outer : List (Frame Id)} {fuel : Nat}
    (holds : Holds store (plug (side.node .red .leaf id .leaf) (frame :: outer)))
    (accepts : Accepts (frame :: outer) 0 .red)
    (alone : (store.entries id).collision_next = 0 ∧ (store.entries id).collision_previous = 0) :
    store.Unlinks (frame :: outer) .leaf (store.doRemoveHash (fuel + 1) id) := by
  have painted : rootId frame.sibling ≠ 0 ->
      store.setColor (rootId frame.sibling) .red = store := by
    intro some
    refine store.modify_eq_self ?_
    have siblingTree := holds.split.2.1.2.2.2.2.2.1
    obtain ⟨frameSide, frameColor, value, sibling⟩ := frame
    cases frameColor with
    | red => cases accepts.1
    | black =>
        have balanced : sibling.Balanced 0 := accepts.1
        cases sibling with
        | leaf => exact absurd rfl some
        | node siblingColor left siblingId right =>
            cases siblingColor with
            | red =>
                have red : (store.entries siblingId).color = .red := siblingTree.2.1
                simp only [rootId, ← red]
            | black =>
                obtain ⟨below, impossible, -⟩ := balanced
                cases impossible
  have unlinked : Holds (store.setChild frame.side frame.value 0) (plug .leaf (frame :: outer)) :=
    holds.unlink
  refine ⟨_, _, ?_, unlinked, ?_, by simp [RbTree.inorder], store.sameKeys_setChild _ _ _⟩
  · rw [holds.doRemoveHash alone]
    have leafRoot : rootId (RbTree.leaf : RbTree Id) = 0 := rfl
    simp only [leafRoot, if_true, reduceCtorEq, if_false]
    split
    · rfl
    · next some =>
        rw [painted some]
        rfl
  · exact (redBlack_plug_iff _ _).mpr ⟨0, rfl, accepts.black⟩

/-- The repair below a black leaf keeps its parent and its side, and its place takes a
tree without it afterwards. -/
theorem fixDoubleBlack_leaf {store : Store Hash} {side : Side} {id : Id} {frame : Frame Id}
    {outer : List (Frame Id)} {fuel : Nat}
    (holds : Holds store (plug (side.node .black .leaf id .leaf) (frame :: outer)))
    (accepts : Accepts (frame :: outer) 1 .black) (enough : outer.length + 2 < fuel) :
    Exists fun next => Exists fun color => Exists fun sibling => Exists fun above =>
      store.fixDoubleBlack fuel id = .ok next ∧
        Holds next (plug (side.node .black .leaf id .leaf)
          (⟨frame.side, color, frame.value, sibling⟩ :: above)) ∧
        Accepts (⟨frame.side, color, frame.value, sibling⟩ :: above) 0 .black ∧
        before (⟨frame.side, color, frame.value, sibling⟩ :: above) = before (frame :: outer) ∧
        after (⟨frame.side, color, frame.value, sibling⟩ :: above) = after (frame :: outer) ∧
        store.SameKeys next := by
  have present : rootId (side.node .black .leaf id .leaf) ≠ 0 := by
    rw [rootId_node]
    exact holds.links.1
  obtain ⟨next, fixed, returned, repair, held, same⟩ :=
    fixDoubleBlack_repairs (frame :: outer) store _ 0 fuel holds present accepts enough
  rw [rootId_node] at returned
  obtain ⟨color, sibling, above, head⟩ := repair.head
  have order := repair.order
  have fits := repair.accepts accepts
  subst head
  exact ⟨next, color, sibling, above, returned, held, fits, order.1, order.2, same⟩

/-- The entry to remove is a black leaf: after the repair its place takes a
tree without it. -/
theorem unlinks_blackLeaf {store : Store Hash} {side : Side} {id : Id} {frame : Frame Id}
    {outer : List (Frame Id)} {fuel : Nat}
    (holds : Holds store (plug (side.node .black .leaf id .leaf) (frame :: outer)))
    (accepts : Accepts (frame :: outer) 1 .black)
    (alone : (store.entries id).collision_next = 0 ∧ (store.entries id).collision_previous = 0)
    (enough : outer.length + 2 < fuel) :
    store.Unlinks (frame :: outer) .leaf (store.doRemoveHash (fuel + 1) id) := by
  obtain ⟨next, color, sibling, above, returned, held, fits, front, back, same⟩ :=
    fixDoubleBlack_leaf holds accepts enough
  have unlinked : Holds (next.setChild frame.side frame.value 0)
      (plug .leaf (⟨frame.side, color, frame.value, sibling⟩ :: above)) := held.unlink
  refine ⟨_, _, ?_, unlinked, ?_, ?_, same.trans (next.sameKeys_setChild _ _ _)⟩
  · rw [holds.doRemoveHash alone]
    simp only [rootId, if_true, returned]
    rfl
  · exact (redBlack_plug_iff _ _).mpr ⟨0, rfl, fits⟩
  · rw [plug_inorder, front, back]

/-- The entry to remove is black with one red child, which takes its place and
its colour. -/
theorem unlinks_redChild {store : Store Hash} {side : Side} {id childId : Id}
    {left right : RbTree Id} {frame : Frame Id} {outer : List (Frame Id)} {fuel : Nat}
    (holds : Holds store
      (plug (side.node .black (.node .red left childId right) id .leaf) (frame :: outer)))
    (accepts : Accepts (frame :: outer) 1 .black)
    (balanced : (RbTree.node .red left childId right).Balanced 0)
    (alone : (store.entries id).collision_next = 0 ∧ (store.entries id).collision_previous = 0) :
    store.Unlinks (frame :: outer) (.node .red left childId right)
      (store.doRemoveHash (fuel + 1) id) := by
  have present : childId ≠ 0 := (isTree_node.mp holds.split.1).2.2.2.2.2.1.1
  have rootPresent : ¬ rootId (.node .red left childId right) = 0 := present
  have unlinked := holds.unlink
  rw [if_neg rootPresent] at unlinked
  have place : Holds _ (plug (Side.left.node .red left childId right) (frame :: outer)) := unlinked
  refine ⟨_, _, ?_, place.setColor .black, ?_, ?_, ?_⟩
  · rw [holds.doRemoveHash alone]
    simp only [rootId, present, if_false, RbTree.color, reduceCtorEq, false_and]
  · refine (redBlack_plug_iff _ _).mpr ⟨1, ?_, accepts⟩
    exact balanced.blacken rfl
  · rw [plug_inorder]
    rfl
  · exact ((store.sameKeys_setChild _ _ _).trans (Store.sameKeys_setUp _ _ _)).trans
      (Store.sameKeys_setColor _ _ _)

/-- Below the root an entry with at most one child is removed. -/
theorem doRemoveHash_thin {store : Store Hash} {side : Side} {color : Color} {child : RbTree Id}
    {id : Id} {frame : Frame Id} {outer : List (Frame Id)} {fuel : Nat}
    (holds : Holds store (plug (side.node color child id .leaf) (frame :: outer)))
    (redBlack : (plug (side.node color child id .leaf) (frame :: outer)).RedBlack)
    (alone : (store.entries id).collision_next = 0 ∧ (store.entries id).collision_previous = 0)
    (enough : outer.length + 2 < fuel) :
    store.Unlinks (frame :: outer) child (store.doRemoveHash (fuel + 1) id) := by
  obtain ⟨height, balanced, accepts⟩ := (redBlack_plug_iff _ _).mp redBlack
  rw [Side.node_color] at accepts
  rcases balanced_thin balanced with ⟨rfl, heightEq⟩ | ⟨⟨left, childId, right, rfl⟩, rfl, rfl, low⟩
  · subst heightEq
    cases color with
    | red => exact unlinks_redLeaf holds accepts alone
    | black => exact unlinks_blackLeaf holds accepts alone enough
  · exact unlinks_redChild holds accepts low alone

/-! ## The successor -/

/-- The successor stands at the left end of the tree it is looked for in. -/
theorem IsTree.findSuccessor {store : Store Hash} {up : Id} {tree : RbTree Id}
    (isTree : IsTree store.entries up tree) (present : tree ≠ .leaf) :
    Exists fun color => Exists fun successor => Exists fun right => Exists fun inner =>
      Exists fun bound => tree = plug (.node color .leaf successor right) inner ∧
        before inner = [] ∧ forall fuel, bound ≤ fuel ->
          store.findSuccessor fuel (rootId tree) = .ok successor := by
  induction tree generalizing up with
  | leaf => exact absurd rfl present
  | node color left id right leftHypothesis rightHypothesis =>
      obtain ⟨-, -, -, leftLink, -, inLeft, -⟩ := isTree
      by_cases none : left = .leaf
      · subst none
        refine ⟨color, id, right, [], 1, rfl, rfl, fun fuel enough => ?_⟩
        obtain ⟨fuel, rfl⟩ := Nat.exists_eq_add_of_le' enough
        have noLeft : (store.entries id).left = 0 := leftLink
        rw [rootId, Store.findSuccessor, if_pos noLeft]
      · obtain ⟨inner, successor, rest, frames, bound, same, first, found⟩ :=
          leftHypothesis inLeft none
        refine ⟨inner, successor, rest, frames ++ [⟨.left, color, id, right⟩], bound + 1, ?_, ?_,
          fun fuel enough => ?_⟩
        · rw [plug_append, ← same]
          rfl
        · rw [before_append, first]
          rfl
        · obtain ⟨fuel, rfl⟩ := Nat.exists_eq_add_of_le' enough
          have leftPresent : rootId left ≠ 0 := by
            cases left with
            | leaf => exact absurd rfl none
            | node _ _ _ _ => exact inLeft.1
          have shorter := found (fuel + bound) (Nat.le_add_left bound fuel)
          rw [rootId, ← Nat.add_assoc, Store.findSuccessor, leftLink, if_neg leftPresent]
          exact shorter

/-- An entry with two children is exchanged with its successor, and has at
most one child then. -/
theorem Holds.exchange {store : Store Hash} {color : Color} {left right : RbTree Id} {id : Id}
    {frames : List (Frame Id)} (holds : Holds store (plug (.node color left id right) frames))
    (someLeft : left ≠ .leaf) (someRight : right ≠ .leaf)
    (alone : (store.entries id).collision_next = 0 ∧ (store.entries id).collision_previous = 0) :
    Exists fun innerColor => Exists fun successor => Exists fun rest => Exists fun inner =>
      Exists fun next => Exists fun bound =>
        right = plug (.node innerColor .leaf successor rest) inner ∧ before inner = [] ∧
        (plug (.node color left id right) frames).map (Equiv.swap successor id) =
          plug (Side.right.node innerColor rest id .leaf)
            (inner ++ ⟨.right, color, successor, left⟩ :: frames) ∧
        IsTree next.entries 0 (plug (Side.right.node innerColor rest id .leaf)
          (inner ++ ⟨.right, color, successor, left⟩ :: frames)) ∧
        store.SameKeys next ∧ next.hash_root = store.hash_root ∧
        forall fuel, bound ≤ fuel -> store.doRemoveHash (fuel + 1) id = next.doRemoveHash fuel id := by
  have node : Holds store (plug (Side.left.node color left id right) frames) := holds
  obtain ⟨idPresent, -, -, leftLink, rightLink⟩ := node.links
  obtain ⟨isTree, -, -⟩ := node.split
  obtain ⟨-, -, -, -, -, leftTree, rightTree⟩ := isTree_node.mp isTree
  have leftPresent : rootId left ≠ 0 := by
    cases left with
    | leaf => exact absurd rfl someLeft
    | node _ _ _ _ => exact leftTree.1
  have rightPresent : rootId right ≠ 0 := by
    cases right with
    | leaf => exact absurd rfl someRight
    | node _ _ _ _ => exact rightTree.1
  obtain ⟨innerColor, successor, rest, inner, bound, same, first, found⟩ :=
    rightTree.findSuccessor someRight
  have whole : plug (.node color left id right) frames =
      plug (.node innerColor .leaf successor rest) (inner ++ ⟨.right, color, id, left⟩ :: frames) := by
    rw [plug_append, ← same]
    rfl
  have place : Holds store (plug (Side.left.node innerColor .leaf successor rest)
      (inner ++ ⟨.right, color, id, left⟩ :: frames)) := by
    have moved := holds
    rw [whole] at moved
    exact moved
  obtain ⟨-, -, distinct⟩ := place.split
  rw [around_append] at distinct
  simp only [RbTree.inorder, List.nil_append, around] at distinct
  have linked := holds.linked
  have idIn : id ∈ (plug (.node color left id right) frames).inorder :=
    mem_plug.mpr (Or.inl (List.mem_append_right _ List.mem_cons_self))
  have successorIn : successor ∈ (plug (.node color left id right) frames).inorder := by
    rw [whole]
    exact mem_plug.mpr (Or.inl (List.mem_append_right _ List.mem_cons_self))
  have different : successor ≠ id := by grind
  have notAbove : (store.entries id).up ≠ successor := by
    intro above
    obtain ⟨-, -, -, noLeft, onRight⟩ := place.links
    have below := (linked.up_iff idIn successorIn).mp above
    have restRoot : rootId rest ≠ 0 -> rootId rest ∈ rest.inorder := rootId_mem
    simp only [Links.child, Side.other] at noLeft onRight
    rw [noLeft, onRight] at below
    rcases below with none | inRest
    · exact idPresent none
    · have member := restRoot (inRest ▸ idPresent)
      rw [← inRest] at member
      grind
  obtain ⟨next, exchanged, swapped⟩ :=
    hashSwap_swapped linked successorIn idIn different notAbove 0
  have held := swapped.isTree holds.isTree successorIn idIn
  have renamed : (plug (.node color left id right) frames).map (Equiv.swap successor id) =
      plug (Side.right.node innerColor rest id .leaf)
        (inner ++ ⟨.right, color, successor, left⟩ :: frames) := by
    have kept : forall other, other ≠ successor -> other ≠ id ->
        Equiv.swap successor id other = other :=
      fun other => Equiv.swap_apply_of_ne_of_ne
    have restKept : rest.map (Equiv.swap successor id) = rest :=
      RbTree.map_eq_self fun other member => kept other (by grind) (by grind)
    have leftKept : left.map (Equiv.swap successor id) = left :=
      RbTree.map_eq_self fun other member => kept other (by grind) (by grind)
    have innerKept : inner.map (Frame.map (Equiv.swap successor id)) = inner :=
      Frame.map_eq_self fun other member => kept other (by grind) (by grind)
    have framesKept : frames.map (Frame.map (Equiv.swap successor id)) = frames :=
      Frame.map_eq_self fun other member => kept other (by grind) (by grind)
    rw [whole, RbTree.map_plug, List.map_append, List.map_cons, innerKept, framesKept, Frame.map,
      leftKept, Equiv.swap_apply_right, RbTree.map, restKept, Equiv.swap_apply_left]
    rfl
  rw [renamed] at held
  refine ⟨innerColor, successor, rest, inner, next, bound + 1, same, first, renamed, held,
    swapped.sameKeys, swapped.root, fun fuel enough => ?_⟩
  obtain ⟨fuel, rfl⟩ := Nat.exists_eq_add_of_le' enough
  have leftSome : (store.entries id).left = rootId left := leftLink
  have rightSome : (store.entries id).right = rootId right := rightLink
  have replacer : store.findReplacer (fuel + bound + 1) id = .ok successor := by
    unfold Store.findReplacer
    simp only [leftSome, rightSome, ne_eq, leftPresent, rightPresent, not_false_eq_true, and_self,
      if_true]
    exact found _ (by omega)
  rw [Store.doRemoveHash]
  simp only [node.not_selfReference, Bool.false_eq_true, if_false, alone.1, alone.2, ne_eq,
    not_true_eq_false, or_self, replacer, Except.bind, bind, leftSome, rightSome, leftPresent,
    rightPresent, place.links.1, ← Nat.add_assoc, hashSwap_fuel notAbove, exchanged]

/-! ## Removal -/

/-- The removal comes to an end, and leaves a valid index without the entry. -/
def Removes [LinearOrder Hash] (store : Store Hash) (tree : RbTree Id) (mdata : Id) : Prop :=
  Exists fun bound => forall fuel, bound ≤ fuel -> Exists fun next => Exists fun rest =>
    store.removeHash fuel mdata = .ok next ∧ ValidIndex next rest noCollisions ∧
      rest.inorder = tree.inorder.erase mdata ∧ store.SameKeys next

/-- Entries outside a tree do not matter to it. -/
theorem Holds.cleanupHash {store : Store Hash} {tree : RbTree Id} (holds : Holds store tree)
    {id : Id} (outside : id ∉ tree.inorder) : Holds (store.cleanupHash id) tree :=
  ⟨holds.isTree.congr fun _ member => store.modify_ne (ne_of_mem_of_not_mem member outside) _,
    holds.distinct, holds.root⟩

theorem Store.sameKeys_cleanupHash (store : Store Hash) (id : Id) :
    store.SameKeys (store.cleanupHash id) :=
  store.sameKeys_modify id rfl rfl rfl

/-- A tree with fewer entries and the same keys is a valid index. -/
theorem ValidIndex.sublist [LinearOrder Hash] {store next : Store Hash} {tree rest : RbTree Id}
    (valid : ValidIndex store tree noCollisions) (holds : Holds next rest)
    (redBlack : rest.RedBlack) (fewer : rest.inorder.Sublist tree.inorder)
    (same : store.SameKeys next) : ValidIndex next rest noCollisions where
  holds := holds
  redBlack := redBlack
  ordered := by
    refine (valid.ordered.sublist fewer).imp fun {one two} less => ?_
    rw [(same one).1, (same two).1]
    exact less
  chained id member := by
    obtain ⟨present, previous, last, -⟩ := valid.chained id (fewer.subset member)
    exact ⟨present, (same id).2.2.trans previous, (same id).2.1.trans last, trivial⟩
  sameHash _ _ _ impossible := absurd impossible List.not_mem_nil
  detached _ _ _ impossible := absurd impossible List.not_mem_nil
  distinct id _ := List.nodup_singleton id

/-- Without collisions no entry has collision links. -/
theorem ValidIndex.alone [LinearOrder Hash] {store : Store Hash} {tree : RbTree Id}
    (valid : ValidIndex store tree noCollisions) {id : Id} (indexed : id ∈ tree.inorder) :
    (store.entries id).collision_next = 0 ∧ (store.entries id).collision_previous = 0 := by
  obtain ⟨-, previous, next, -⟩ := valid.chained id indexed
  exact ⟨next, previous⟩

/-- The removal proper, and then the cleanup of the entry's own links. -/
theorem removes_of_unlinks [LinearOrder Hash] {store : Store Hash} {tree : RbTree Id} {mdata : Id}
    (valid : ValidIndex store tree noCollisions) {bound : Nat}
    (unlinks : forall fuel, bound ≤ fuel -> Exists fun next => Exists fun rest =>
      store.doRemoveHash fuel mdata = .ok next ∧ Holds next rest ∧ rest.RedBlack ∧
        rest.inorder = tree.inorder.erase mdata ∧ store.SameKeys next) :
    Removes store tree mdata := by
  refine ⟨bound, fun fuel enough => ?_⟩
  obtain ⟨next, rest, returned, holds, redBlack, order, same⟩ := unlinks fuel enough
  have outside : mdata ∉ rest.inorder := by
    rw [order]
    exact valid.holds.distinct.not_mem_erase
  have keys := same.trans (next.sameKeys_cleanupHash mdata)
  refine ⟨next.cleanupHash mdata, rest, ?_, ?_, order, keys⟩
  · rw [Store.removeHash, returned]
    rfl
  · exact valid.sublist (holds.cleanupHash outside) redBlack (order ▸ List.erase_sublist) keys

/-- The order without the entry at a place. -/
theorem erase_place {color : Color} {left right : RbTree Id} {id : Id} {frames : List (Frame Id)}
    (distinct : (plug (.node color left id right) frames).inorder.Nodup) :
    (plug (.node color left id right) frames).inorder.erase id =
      before frames ++ (left.inorder ++ right.inorder ++ after frames) := by
  have order : (plug (.node color left id right) frames).inorder =
      (before frames ++ left.inorder) ++ id :: (right.inorder ++ after frames) := by
    simp [RbTree.inorder]
  rw [order] at distinct ⊢
  have outside : id ∉ before frames ++ left.inorder := fun member =>
    (List.nodup_append.mp distinct).2.2 id member id List.mem_cons_self rfl
  rw [List.erase_append_right _ outside, List.erase_cons_head]
  simp

/-- An entry that is not at the root of the head is removed. -/
theorem removes_below_root [LinearOrder Hash] {store : Store Hash} {tree : RbTree Id} {mdata : Id}
    (valid : ValidIndex store tree noCollisions) (indexed : mdata ∈ tree.inorder)
    (notRoot : mdata ≠ store.hash_root) : Removes store tree mdata := by
  obtain ⟨color, left, right, frames, rfl⟩ := RbTree.exists_place indexed
  have alone := valid.alone indexed
  have framed : frames ≠ [] := by
    rintro rfl
    exact notRoot valid.holds.root.symm
  obtain ⟨frame, outer, rfl⟩ := List.exists_cons_of_ne_nil framed
  have holds := valid.holds
  have redBlack := valid.redBlack
  have erased := erase_place holds.distinct
  -- An entry with at most one child is unlinked where it is.
  have thin : forall (side : Side) (child : RbTree Id),
      RbTree.node color left mdata right = side.node color child mdata .leaf ->
      child.inorder = left.inorder ++ right.inorder ->
      Removes store (plug (.node color left mdata right) (frame :: outer)) mdata := by
    intro side child same children
    refine @removes_of_unlinks _ _ _ _ _ valid (outer.length + 4) fun fuel enough => ?_
    obtain ⟨fuel, rfl⟩ := Nat.exists_eq_add_of_le' enough
    obtain ⟨next, rest, returned, held, black, order, keys⟩ :=
      @doRemoveHash_thin _ _ _ _ _ _ _ _ (fuel + (outer.length + 3))
        (same ▸ holds) (same ▸ redBlack) alone (by omega)
    exact ⟨next, rest, returned, held, black, by rw [order, erased, children], keys⟩
  by_cases noLeft : left = .leaf
  · subst noLeft
    exact thin .right right rfl rfl
  by_cases noRight : right = .leaf
  · subst noRight
    exact thin .left left rfl (List.append_nil _).symm
  -- An entry with two children is unlinked where its successor was.
  obtain ⟨innerColor, successor, rest, inner, next, bound, same, first, renamed, held, keys, root,
    returned⟩ := holds.exchange noLeft noRight alone
  have nextHolds : Holds next (plug (Side.right.node innerColor rest mdata .leaf)
      (inner ++ ⟨.right, color, successor, left⟩ :: frame :: outer)) := by
    refine ⟨held, ?_, ?_⟩
    · rw [← renamed, RbTree.map_inorder]
      exact holds.distinct.map (Equiv.injective _)
    · rw [root, holds.root, rootId_plug_cons, ← List.singleton_append, ← List.append_assoc,
        plug_append, rootId_plug_cons (plug _ _)]
  have nextRedBlack : (plug (Side.right.node innerColor rest mdata .leaf)
      (inner ++ ⟨.right, color, successor, left⟩ :: frame :: outer)).RedBlack := by
    rw [← renamed]
    exact (RbTree.map_redBlack _ _).mpr redBlack
  have nextAlone : (next.entries mdata).collision_next = 0 ∧
      (next.entries mdata).collision_previous = 0 :=
    ⟨(keys mdata).2.1.trans alone.1, (keys mdata).2.2.trans alone.2⟩
  have order : before (inner ++ ⟨.right, color, successor, left⟩ :: frame :: outer) ++
      (rest.inorder ++ after (inner ++ ⟨.right, color, successor, left⟩ :: frame :: outer)) =
        before (frame :: outer) ++ (left.inorder ++ right.inorder ++ after (frame :: outer)) := by
    rw [before_append, after_append, first, same, plug_inorder, first]
    simp [before, after, RbTree.inorder]
  obtain ⟨top, above, framesEq⟩ : Exists fun top => Exists fun above =>
      inner ++ ⟨.right, color, successor, left⟩ :: frame :: outer = top :: above := by
    cases inner with
    | nil => exact ⟨_, _, rfl⟩
    | cons innermost inner => exact ⟨_, _, rfl⟩
  rw [framesEq] at nextHolds nextRedBlack order
  refine @removes_of_unlinks _ _ _ _ _ valid (bound + above.length + 5) fun fuel enough => ?_
  obtain ⟨fuel, rfl⟩ := Nat.exists_eq_add_of_le' enough
  obtain ⟨last, tree, unlinked, lastHolds, black, lastOrder, lastKeys⟩ :=
    @doRemoveHash_thin _ _ _ _ _ _ _ _ (fuel + (bound + above.length + 3))
      nextHolds nextRedBlack nextAlone (by omega)
  refine ⟨last, tree, ?_, lastHolds, black, ?_, keys.trans lastKeys⟩
  · rw [← unlinked]
    exact returned (fuel + (bound + above.length + 4)) (by omega)
  · rw [lastOrder, erased, order]

/-! ## The repair of a black leaf -/

/-- The store after the double-black repair of a leaf, with the tree that it holds: the
leaf is where it was, and once its parent lets go of it the index is valid without it. -/
structure RepairsLeaf [LinearOrder Hash] (store : Store Hash) (tree : RbTree Id) (mdata : Id)
    (next : Store Hash) (fixed : RbTree Id) : Prop where
  holds : Holds next fixed
  order : fixed.inorder = tree.inorder
  sameKeys : store.SameKeys next
  leaf : (next.entries mdata).left = 0 ∧ (next.entries mdata).right = 0
  parent : (next.entries mdata).up = (store.entries mdata).up
  side : next.isLeftChild mdata = store.isLeftChild mdata
  detached : Exists fun rest =>
    ValidIndex (next.relink (store.isLeftChild mdata) (store.entries mdata).up 0) rest
      noCollisions ∧ rest.inorder = tree.inorder.erase mdata

/-- Where an entry stands decides on which side it is. -/
theorem Holds.isLeftChild {store : Store Hash} {side : Side} {color : Color}
    {near far : RbTree Id} {id : Id} {frame : Frame Id} {outer : List (Frame Id)}
    (holds : Holds store (plug (side.node color near id far) (frame :: outer))) :
    store.isLeftChild id = decide (frame.side = .left) ∧
      forall (base : Store Hash) (child : Id),
        base.relink (store.isLeftChild id) frame.value child =
          base.setChild frame.side frame.value child := by
  have link := holds.split.2.1.2.2.2.1
  have member : id ∈ (plug (side.node color near id far) (frame :: outer)).inorder :=
    mem_plug.mpr (Or.inl ((side.node_perm _ _ _ _).mem_iff.mpr List.mem_cons_self))
  have above : frame.value ∈ (plug (side.node color near id far) (frame :: outer)).inorder :=
    mem_plug.mpr (Or.inr List.mem_cons_self)
  refine ⟨?_, fun base child => relink_eq_setChild holds.linked member above link base child⟩
  obtain ⟨onLeft, onRight⟩ := holds.linked.isLeftChild member above
  cases stands : frame.side with
  | left =>
      rw [stands] at link
      exact ((onLeft.mp link).2).trans rfl
  | right =>
      rw [stands] at link
      exact (Bool.not_eq_true _ ▸ (onRight.mp link).2).trans rfl

/-- The double-black repair of a black leaf that is not at the root of the head comes to
an end, and the leaf can be taken off afterwards. -/
theorem fixDoubleBlack_blackLeaf [LinearOrder Hash] (store : Store Hash) (tree : RbTree Id)
    (valid : ValidIndex store tree noCollisions) (mdata : Id) (indexed : mdata ∈ tree.inorder)
    (black : (store.entries mdata).color = .black)
    (leaf : (store.entries mdata).left = 0 ∧ (store.entries mdata).right = 0)
    (notRoot : mdata ≠ store.hash_root) :
    Exists fun bound => forall fuel, bound ≤ fuel -> Exists fun next => Exists fun fixed =>
      store.fixDoubleBlack fuel mdata = .ok next ∧ RepairsLeaf store tree mdata next fixed := by
  obtain ⟨color, left, right, frames, rfl⟩ := RbTree.exists_place indexed
  have node : Holds store (plug (Side.left.node color left mdata right) frames) := valid.holds
  obtain ⟨-, colored, above, leftLink, rightLink⟩ := node.links
  obtain ⟨-, -, -, -, -, leftTree, rightTree⟩ := isTree_node.mp node.split.1
  have noLeft : left = .leaf := leftTree.leaf_of_root (leftLink.symm.trans leaf.1)
  have noRight : right = .leaf := rightTree.leaf_of_root (rightLink.symm.trans leaf.2)
  obtain rfl : color = .black := colored.symm.trans black
  subst noLeft noRight
  cases frames with
  | nil => exact absurd valid.holds.root.symm notRoot
  | cons frame outer =>
      obtain ⟨height, balanced, accepts⟩ := (redBlack_plug_iff _ _).mp valid.redBlack
      obtain ⟨below, rfl, rfl, -⟩ := balanced
      refine ⟨outer.length + 3, fun fuel enough => ?_⟩
      obtain ⟨next, color, sibling, higher, returned, held, fits, front, back, same⟩ :=
        fixDoubleBlack_leaf node accepts enough
      obtain ⟨-, -, parent, nearLink, farLink⟩ := held.links
      obtain ⟨sideBefore, relinked⟩ := node.isLeftChild
      have order : (plug (Side.left.node .black .leaf mdata .leaf)
          (⟨frame.side, color, frame.value, sibling⟩ :: higher)).inorder =
            (plug (RbTree.node .black .leaf mdata .leaf) (frame :: outer)).inorder := by
        rw [plug_inorder, plug_inorder, front, back]
        rfl
      refine ⟨next, _, returned, held, order, same, ⟨nearLink, farLink⟩, parent.trans above.symm,
        held.isLeftChild.1.trans sideBefore.symm, ?_⟩
      have unlinked : Holds (next.setChild frame.side frame.value 0)
          (plug .leaf (⟨frame.side, color, frame.value, sibling⟩ :: higher)) := held.unlink
      have erased : (plug .leaf (⟨frame.side, color, frame.value, sibling⟩ :: higher)).inorder =
          (plug (RbTree.node .black .leaf mdata .leaf) (frame :: outer)).inorder.erase mdata := by
        rw [erase_place valid.holds.distinct, plug_inorder, front, back]
        rfl
      have up : (store.entries mdata).up = frame.value := above
      refine ⟨_, ?_, erased⟩
      rw [up, relinked]
      exact valid.sublist unlinked ((redBlack_plug_iff _ _).mpr ⟨0, rfl, fits⟩)
        (erased ▸ List.erase_sublist) (same.trans (next.sameKeys_setChild _ _ _))

/-- Three black entries. -/
def blackLeaves : Store Nat where
  entries
    | 1 => ⟨2, 2, 3, 0, .black, 0, 0⟩
    | 2 => ⟨1, 0, 0, 1, .black, 0, 0⟩
    | 3 => ⟨3, 0, 0, 1, .black, 0, 0⟩
    | _ => ⟨0, 0, 0, 0, .black, 0, 0⟩
  hash_root := 1

def blackLeavesTree : RbTree Id :=
  .node .black (.node .black .leaf 2 .leaf) 1 (.node .black .leaf 3 .leaf)

theorem blackLeaves_valid : ValidIndex blackLeaves blackLeavesTree noCollisions where
  holds := ⟨by simp [IsTree, blackLeaves, blackLeavesTree, rootId], by decide, rfl⟩
  redBlack := ⟨rfl, 2, 1, rfl, ⟨0, rfl, rfl, rfl⟩, 0, rfl, rfl, rfl⟩
  ordered := by decide
  chained := by simp [blackLeavesTree, RbTree.inorder, IsChain, noCollisions, blackLeaves]
  sameHash := by simp [noCollisions]
  detached := by simp [noCollisions]
  distinct := by simp [noCollisions]

theorem fixDoubleBlack_blackLeaves :
    Exists fun bound => forall fuel, bound ≤ fuel -> Exists fun next => Exists fun fixed =>
      blackLeaves.fixDoubleBlack fuel 3 = .ok next ∧
        RepairsLeaf blackLeaves blackLeavesTree 3 next fixed :=
  fixDoubleBlack_blackLeaf _ _ blackLeaves_valid 3 (by decide) (by decide) (by decide) (by decide)

/-! ## The root of the head -/

theorem Store.findSuccessor_setHashRoot (store : Store Hash) (root mdata : Id) (fuel : Nat) :
    (store.setHashRoot root).findSuccessor fuel mdata = store.findSuccessor fuel mdata := by
  induction fuel generalizing mdata with
  | zero => rfl
  | succ fuel inductionHypothesis =>
      rw [findSuccessor, findSuccessor, inductionHypothesis]
      rfl

theorem Store.findReplacer_setHashRoot (store : Store Hash) (root mdata : Id) (fuel : Nat) :
    (store.setHashRoot root).findReplacer fuel mdata = store.findReplacer fuel mdata := by
  unfold findReplacer
  simp only [findSuccessor_setHashRoot]
  rfl

/-- The removal ended in `Bug`, or the head still has the entry as its root. -/
def KeepsRoot (id : Id) (result : Except Fault (Store Hash)) : Prop :=
  (Exists fun fault => result = .error fault) ∨
    Exists fun next => result = .ok next ∧ next.hash_root = id

/-- An entry with at most one child is never unlinked from the head. -/
theorem doRemoveHash_keepsRoot {store : Store Hash} {side : Side} {color : Color}
    {child : RbTree Id} {id : Id} {frames : List (Frame Id)}
    (isTree : IsTree store.entries 0 (plug (side.node color child id .leaf) frames))
    (distinct : (plug (side.node color child id .leaf) frames).inorder.Nodup)
    (redBlack : (plug (side.node color child id .leaf) frames).RedBlack)
    (root : store.hash_root = id)
    (alone : (store.entries id).collision_next = 0 ∧ (store.entries id).collision_previous = 0)
    (fuel : Nat) : KeepsRoot id (store.doRemoveHash (fuel + 1) id) := by
  have holds : Holds (store.setHashRoot (rootId (plug (side.node color child id .leaf) frames)))
      (plug (side.node color child id .leaf) frames) := ⟨isTree, distinct, rfl⟩
  have notSelf : store.selfReference id = false := holds.not_selfReference
  have replacer := holds.findReplacer fuel
  rw [Store.findReplacer_setHashRoot] at replacer
  obtain ⟨-, -, -, -, far, childTree, -⟩ := isTree_node.mp holds.split.1
  have thin : (store.entries id).left = 0 ∨ (store.entries id).right = 0 := by
    cases side with
    | left => exact Or.inr far
    | right => exact Or.inl far
  obtain ⟨height, balanced, -⟩ := (redBlack_plug_iff _ _).mp redBlack
  rw [Store.doRemoveHash]
  simp only [notSelf, Bool.false_eq_true, if_false, alone.1, alone.2, ne_eq, not_true_eq_false,
    or_self, replacer, Except.bind, bind, root, if_true, if_pos thin]
  rcases balanced_thin balanced with ⟨rfl, -⟩ | ⟨⟨left, childId, right, rfl⟩, -, -, -⟩
  · exact Or.inl ⟨.deletedTheRoot, rfl⟩
  · have childPresent : ¬ rootId (.node .red left childId right) = 0 := childTree.1
    have childRed : (store.entries childId).color = .red := childTree.2.1
    have notBlack : ¬ ((rootId (.node .red left childId right) = 0 ∨
        (store.entries (rootId (.node .red left childId right))).color = .black) ∧
          (store.entries id).color = .black) := by
      rintro ⟨none | black, -⟩
      · exact childPresent none
      · exact absurd (childRed.symm.trans black) (by decide)
    rw [if_neg childPresent, if_neg notBlack]
    split
    · exact Or.inl ⟨.dot, rfl⟩
    · refine Or.inr ⟨_, rfl, ?_⟩
      rw [← root]
      unfold Store.relink
      split <;> rfl

/-- Whatever the removal of `hash_root` returns has the same root. -/
theorem removeHash_keepsRoot [LinearOrder Hash] {store : Store Hash} {tree : RbTree Id}
    (valid : ValidIndex store tree noCollisions) (indexed : store.hash_root ∈ tree.inorder) :
    Exists fun bound => forall fuel, bound ≤ fuel ->
      KeepsRoot store.hash_root (store.removeHash fuel store.hash_root) := by
  have cleaned : forall result : Except Fault (Store Hash), KeepsRoot store.hash_root result ->
      KeepsRoot store.hash_root
        (result.bind fun next => .ok (next.cleanupHash store.hash_root)) := by
    rintro result (⟨fault, rfl⟩ | ⟨next, rfl, root⟩)
    · exact Or.inl ⟨fault, rfl⟩
    · exact Or.inr ⟨_, rfl, root⟩
  have alone := valid.alone indexed
  obtain ⟨color, left, right, frames, same⟩ := RbTree.exists_place indexed
  rw [same] at valid
  have holds := valid.holds
  have redBlack := valid.redBlack
  have thin : forall (side : Side) (child : RbTree Id),
      RbTree.node color left store.hash_root right = side.node color child store.hash_root .leaf ->
      Exists fun bound => forall fuel, bound ≤ fuel ->
        KeepsRoot store.hash_root (store.removeHash fuel store.hash_root) := by
    intro side child same
    rw [same] at holds redBlack
    refine ⟨1, fun fuel enough => ?_⟩
    obtain ⟨fuel, rfl⟩ := Nat.exists_eq_add_of_le' enough
    exact cleaned _ (doRemoveHash_keepsRoot holds.isTree holds.distinct redBlack rfl alone fuel)
  by_cases noLeft : left = .leaf
  · subst noLeft
    exact thin .right right rfl
  by_cases noRight : right = .leaf
  · subst noRight
    exact thin .left left rfl
  obtain ⟨innerColor, successor, rest, inner, next, bound, -, -, renamed, held, keys, root,
    returned⟩ := holds.exchange noLeft noRight alone
  have distinct := holds.distinct.map (Equiv.injective (Equiv.swap successor store.hash_root))
  rw [← RbTree.map_inorder, renamed] at distinct
  rw [← RbTree.map_redBlack (Equiv.swap successor store.hash_root), renamed] at redBlack
  refine ⟨bound + 2, fun fuel enough => ?_⟩
  obtain ⟨fuel, rfl⟩ := Nat.exists_eq_add_of_le' enough
  have removed := doRemoveHash_keepsRoot held distinct redBlack root
    ⟨(keys _).2.1.trans alone.1, (keys _).2.2.trans alone.2⟩ (fuel + bound)
  rw [← returned (fuel + bound + 1) (by omega)] at removed
  exact cleaned _ removed

/-- Removal is right for every entry but the one at the root of the head. -/
theorem removeHash_valid_iff [LinearOrder Hash] (store : Store Hash) (tree : RbTree Id)
    (valid : ValidIndex store tree noCollisions) (mdata : Id) (indexed : mdata ∈ tree.inorder) :
    Removes store tree mdata ↔ mdata ≠ store.hash_root := by
  constructor
  · rintro ⟨bound, removes⟩ rfl
    obtain ⟨other, keeps⟩ := removeHash_keepsRoot valid indexed
    obtain ⟨next, rest, returned, nextValid, order, -⟩ :=
      removes (bound + other) (Nat.le_add_right _ _)
    rcases keeps (bound + other) (Nat.le_add_left _ _) with ⟨fault, failed⟩ | ⟨last, ok, root⟩
    · cases returned.symm.trans failed
    · cases returned.symm.trans ok
      -- The root would be an entry of a tree that does not have it.
      have present : store.hash_root ≠ 0 := valid.holds.isTree.ne_zero indexed
      have isRoot : rootId rest = store.hash_root := nextValid.holds.root.symm.trans root
      have member := rootId_mem (isRoot ▸ present)
      rw [isRoot, order] at member
      exact valid.holds.distinct.not_mem_erase member
  · exact removes_below_root valid indexed

/-- `/`, the entry `mcachefs_metadata_id_root`, with one entry below it. -/
def belowSlash : Store Nat where
  entries
    | 1 => ⟨1, 0, 2, 0, .black, 0, 0⟩
    | 2 => ⟨2, 0, 0, 1, .red, 0, 0⟩
    | _ => ⟨0, 0, 0, 0, .black, 0, 0⟩
  hash_root := 1

theorem belowSlash_valid :
    ValidIndex belowSlash (.node .black .leaf 1 (.node .red .leaf 2 .leaf)) noCollisions where
  holds := ⟨by simp [IsTree, belowSlash, rootId], by decide, rfl⟩
  redBlack := ⟨rfl, 1, 0, rfl, rfl, rfl, rfl, rfl, rfl⟩
  ordered := by decide
  chained := by simp [RbTree.inorder, IsChain, noCollisions, belowSlash]
  sameHash := by simp [noCollisions]
  detached := by simp [noCollisions]
  distinct := by simp [noCollisions]

theorem removeHash_valid_belowSlash :
    Removes belowSlash (.node .black .leaf 1 (.node .red .leaf 2 .leaf)) 2 :=
  (removeHash_valid_iff _ _ belowSlash_valid 2 (by decide)).mpr (by decide)

/-- The same two entries, the other one at the root. -/
def aboveSlash : Store Nat where
  entries
    | 1 => ⟨1, 0, 0, 2, .red, 0, 0⟩
    | 2 => ⟨2, 1, 0, 0, .black, 0, 0⟩
    | _ => ⟨0, 0, 0, 0, .black, 0, 0⟩
  hash_root := 2

/-- Removing the entry above `/` runs into `Bug`. -/
theorem remove_aboveSlash_is_bug :
    ValidIndex aboveSlash (.node .black (.node .red .leaf 1 .leaf) 2 .leaf) noCollisions ∧
      (forall fuel, aboveSlash.removeHash (fuel + 1) 2 = .error .dot) ∧
      ¬ Removes aboveSlash (.node .black (.node .red .leaf 1 .leaf) 2 .leaf) 2 := by
  have fails : forall fuel, aboveSlash.removeHash (fuel + 1) 2 = .error .dot := fun _ => rfl
  refine ⟨?_, fails, ?_⟩
  · exact
      { holds := ⟨by simp [IsTree, aboveSlash, rootId], by decide, rfl⟩
        redBlack := ⟨rfl, 1, 0, rfl, ⟨rfl, rfl, rfl, rfl⟩, rfl⟩
        ordered := by decide
        chained := by simp [RbTree.inorder, IsChain, noCollisions, aboveSlash]
        sameHash := by simp [noCollisions]
        detached := by simp [noCollisions]
        distinct := by simp [noCollisions] }
  · rintro ⟨bound, removes⟩
    obtain ⟨next, rest, returned, -⟩ := removes (bound + 1) (Nat.le_succ bound)
    cases (fails bound).symm.trans returned

end HashIndex
end Mcachefs
