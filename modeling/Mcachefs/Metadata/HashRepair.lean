import Mcachefs.Metadata.HashStore

namespace Mcachefs
namespace HashIndex

open Library

/-!
# The double-black repair

`fixDoubleBlack` follows `mcachefs_metadata_fix_double_black`.  On a store that
holds a tree it does what the relation `Fix` does to the frames around the
entry, and it comes to an end: `fixDoubleBlack_repairs`.
-/

variable {Hash : Type}

namespace Store

/-- `mcachefs_metadata_check_no_self_reference` fails. -/
def selfReference (store : Store Hash) (id : Id) : Bool :=
  (store.entries id).left = id ∨ (store.entries id).right = id ∨ (store.entries id).up = id

/-- A link leads to a red entry. -/
def isRed (store : Store Hash) (id : Id) : Bool :=
  id ≠ 0 ∧ (store.entries id).color = .red

/-- `mcachefs_metadata_fix_double_black`. -/
def fixDoubleBlack : (fuel : Nat) -> Id -> Store Hash -> Except Fault (Store Hash)
  | 0, _, _ => .error .fuel
  | fuel + 1, mdata, store =>
      if store.selfReference mdata then .error .corruptedEntry
      else if (store.entries mdata).up = 0 then .ok store
      else
        let brother := store.brother mdata
        let up := (store.entries mdata).up
        if brother = 0 then fixDoubleBlack fuel up store
        else
          let brotherIsLeft := (store.entries up).left = brother
          let links := store.entries brother
          if links.color = .red then
            let store := (store.setColor up .red).setColor brother .black
            let store := if brotherIsLeft then store.rotateRight up else store.rotateLeft up
            fixDoubleBlack fuel mdata store
          else if store.isRed links.left then
            let store :=
              if brotherIsLeft then
                let store := store.setColor links.left links.color
                let store := store.setColor brother (store.entries up).color
                store.rotateRight up
              else
                let store := store.setColor links.left (store.entries up).color
                let store := store.rotateRight brother
                store.rotateLeft up
            .ok (store.setColor up .black)
          else if store.isRed links.right then
            let store :=
              if brotherIsLeft then
                let store := store.setColor links.right (store.entries up).color
                let store := store.rotateLeft brother
                store.rotateRight up
              else
                let store := store.setColor links.right links.color
                let store := store.setColor brother (store.entries up).color
                store.rotateLeft up
            .ok (store.setColor up .black)
          else
            let store := store.setColor brother .red
            if (store.entries up).color = .black then fixDoubleBlack fuel up store
            else .ok (store.setColor up .black)

end Store

/-! ## The repair refines the repair of places -/

/-- In a tree nothing is linked to itself. -/
theorem Holds.not_selfReference {store : Store Hash} {side : Side} {color : Color}
    {near far : RbTree Id} {id : Id} {frames : List (Frame Id)}
    (holds : Holds store (plug (side.node color near id far) frames)) :
    store.selfReference id = false := by
  obtain ⟨present, -, above, nearLink, farLink⟩ := holds.links
  obtain ⟨-, -, distinct⟩ := holds.split
  have nearRoot : rootId near ≠ 0 -> rootId near ∈ near.inorder := rootId_mem
  have farRoot : rootId far ≠ 0 -> rootId far ∈ far.inorder := rootId_mem
  have aboveRoot : upId frames ≠ 0 -> upId frames ∈ around frames := upId_mem
  have apart : rootId near ≠ id ∧ rootId far ≠ id ∧ upId frames ≠ id := by grind
  unfold Store.selfReference
  cases side <;> simp only [Links.child, Side.other] at nearLink farLink <;>
    simp [nearLink, farLink, above, apart]

/-- What a subtree sees of its parent and its brother. -/
theorem Holds.brother {store : Store Hash} {tree : RbTree Id} {frame : Frame Id}
    {outer : List (Frame Id)} (holds : Holds store (plug tree (frame :: outer)))
    (present : rootId tree ≠ 0) :
    (store.entries (rootId tree)).up = frame.value ∧ frame.value ≠ 0 ∧
      store.brother (rootId tree) = rootId frame.sibling ∧
      (rootId frame.sibling ≠ 0 ->
        ((store.entries frame.value).left = rootId frame.sibling ↔ frame.side = .right)) := by
  obtain ⟨side, color, up, sibling⟩ := frame
  have parent : Holds store (plug (side.node color tree up sibling) outer) := holds
  obtain ⟨upPresent, -, -, nearLink, farLink⟩ := parent.links
  obtain ⟨isTree, -, distinct⟩ := parent.split
  obtain ⟨-, -, -, -, -, below, -⟩ := isTree_node.mp isTree
  have above : (store.entries (rootId tree)).up = up := by
    cases tree with
    | leaf => exact absurd rfl present
    | node color left id right => exact below.2.2.1
  have inTree : rootId tree ∈ tree.inorder := rootId_mem present
  have inSibling : rootId sibling ≠ 0 -> rootId sibling ∈ sibling.inorder := rootId_mem
  have apart : rootId sibling ≠ rootId tree := by grind
  refine ⟨above, upPresent, ?_, fun some => ?_⟩
  · unfold Store.brother
    simp only [above, if_neg upPresent]
    cases side with
    | left =>
        have left : (store.entries up).left = rootId tree := nearLink
        have right : (store.entries up).right = rootId sibling := farLink
        rw [if_pos left, right]
    | right =>
        have left : (store.entries up).left = rootId sibling := farLink
        rw [left, if_neg apart]
  · cases side with
    | left =>
        have left : (store.entries up).left = rootId tree := nearLink
        simp only [left, reduceCtorEq, iff_false]
        exact fun same => apart same.symm
    | right =>
        have left : (store.entries up).left = rootId sibling := farLink
        simp only [left]

/-- The test for a red child looks at the colour of the child's tree. -/
theorem Holds.isRed {store : Store Hash} {tree : RbTree Id} {frames : List (Frame Id)}
    (holds : Holds store (plug tree frames)) :
    store.isRed (rootId tree) = decide (tree.color = .red) := by
  obtain ⟨isTree, -⟩ := isTree_plug.mp holds.isTree
  unfold Store.isRed
  cases tree with
  | leaf => simp [rootId, RbTree.color]
  | node color left id right =>
      have colored : (store.entries id).color = color := isTree.2.1
      have present : id ≠ 0 := isTree.1
      by_cases red : color = .red <;> simp [rootId, RbTree.color, colored, present, red]

/-- The repair went as `Fix` describes, with the subtree where it was. -/
def Repairs (store : Store Hash) (frames : List (Frame Id)) (tree : RbTree Id)
    (result : Except Fault (Store Hash)) : Prop :=
  Exists fun next => Exists fun fixed => result = .ok next ∧ Fix frames fixed ∧
    Holds next (plug tree fixed) ∧ store.SameKeys next

/-- One rotation, when the far nephew is red. -/
theorem Holds.single {store : Store Hash} {side : Side} {color : Color} {up value : Id}
    {near far tree : RbTree Id} {outer : List (Frame Id)}
    (holds : Holds store
      (plug tree (⟨side, color, up, side.node .black near value far⟩ :: outer)))
    (farRed : far.color = .red) :
    Holds ((((store.setColor (rootId far) .black).setColor value
        ((store.setColor (rootId far) .black).entries up).color).rotate side up).setColor up .black)
      (plug tree (⟨side, .black, up, near⟩ :: ⟨side, color, value, far.blacken⟩ :: outer)) := by
  cases far with
  | leaf => cases farRed
  | node farColor left nephew right =>
      have nephewPlace : Holds store (plug (Side.left.node farColor left nephew right)
          (⟨side.other, .black, value, near⟩ :: ⟨side.other, color, up, tree⟩ :: outer)) := by
        cases side <;> exact holds
      have painted := nephewPlace.setColor .black
      have brother : Holds (store.setColor nephew .black)
          (plug (side.node .black near value (.node .black left nephew right))
            (⟨side.other, color, up, tree⟩ :: outer)) := by
        cases side <;> exact painted
      have upColor : ((store.setColor nephew .black).entries up).color = color := by
        have parent : Holds (store.setColor nephew .black) (plug (side.node color tree up
            (side.node .black near value (.node .black left nephew right))) outer) := by
          cases side <;> exact painted
        exact parent.links.2.1
      have parent : Holds ((store.setColor nephew .black).setColor value color)
          (plug (side.node color tree up
            (side.node color near value (.node .black left nephew right))) outer) := by
        have both := brother.setColor color
        cases side <;> exact both
      have rotated : Holds (((store.setColor nephew .black).setColor value color).rotate side up)
          (plug (side.node color tree up near)
            (⟨side, color, value, .node .black left nephew right⟩ :: outer)) := parent.rotate
      simp only [rootId, upColor]
      exact rotated.setColor .black

/-- Two rotations, when the near nephew is red. -/
theorem Holds.double {store : Store Hash} {side : Side} {color : Color} {up middle value : Id}
    {inner rest far tree : RbTree Id} {outer : List (Frame Id)}
    (holds : Holds store (plug tree (⟨side, color, up,
      side.node .black (side.node .red inner middle rest) value far⟩ :: outer))) :
    Holds ((((store.setColor middle color).rotate side.other value).rotate side up).setColor up
        .black)
      (plug tree (⟨side, .black, up, inner⟩ ::
        ⟨side, color, middle, side.node .black rest value far⟩ :: outer)) := by
  have nephewPlace : Holds store (plug (side.node .red inner middle rest)
      (⟨side, .black, value, far⟩ :: ⟨side.other, color, up, tree⟩ :: outer)) := by
    cases side <;> exact holds
  have painted := nephewPlace.setColor color
  have brother : Holds (store.setColor middle color)
      (plug (side.other.node .black far value (side.other.node color rest middle inner))
        (⟨side.other, color, up, tree⟩ :: outer)) := by
    rw [Side.other_node, Side.other_node]
    exact painted
  have first := brother.rotate
  rw [Side.other_node, Side.other_node] at first
  have parent : Holds ((store.setColor middle color).rotate side.other value)
      (plug (side.node color tree up
        (side.node color inner middle (side.node .black rest value far))) outer) := by
    cases side <;> exact first
  have second : Holds (((store.setColor middle color).rotate side.other value).rotate side up)
      (plug (side.node color tree up inner)
        (⟨side, color, middle, side.node .black rest value far⟩ :: outer)) := parent.rotate
  exact second.setColor .black

/-- Next to a black brother the repair ends at once or goes on at the parent. -/
theorem repairs_black {store : Store Hash} {side : Side} {color : Color} {up value : Id}
    {near far tree : RbTree Id} {outer : List (Frame Id)} {fuel : Nat}
    (holds : Holds store
      (plug tree (⟨side, color, up, side.node .black near value far⟩ :: outer)))
    (present : rootId tree ≠ 0)
    (above : color = .black -> forall next : Store Hash,
      Holds next (plug (side.node .black tree up (side.node .red near value far)) outer) ->
      Repairs next outer (side.node .black tree up (side.node .red near value far))
        (next.fixDoubleBlack fuel up)) :
    Repairs store (⟨side, color, up, side.node .black near value far⟩ :: outer) tree
      (store.fixDoubleBlack (fuel + 1) (rootId tree)) := by
  obtain ⟨aboveEq, upPresent, brotherEq, isLeft⟩ := holds.brother present
  have notSelf : store.selfReference (rootId tree) = false := by
    rcases Side.cases_node .left tree with leaf | ⟨treeColor, first, id, second, node⟩
    · exact absurd (by rw [leaf]; rfl) present
    · subst node
      exact holds.not_selfReference
  -- The brother and the parent, each as the node the tree is plugged around.
  have brother : Holds store (plug (side.node .black near value far)
      (⟨side.other, color, up, tree⟩ :: outer)) := by
    cases side <;> exact holds
  have parent : Holds store
      (plug (side.node color tree up (side.node .black near value far)) outer) := holds
  obtain ⟨valuePresent, valueColor, -, nearLink, farLink⟩ := brother.links
  have upColor := parent.links.2.1
  simp only [rootId_node] at brotherEq isLeft
  have notRed : ¬ (store.entries value).color = .red := by
    rw [valueColor]
    decide
  have nearRed : store.isRed (rootId near) = decide (near.color = .red) := by
    have place : Holds store (plug near (⟨side, .black, value, far⟩ ::
        ⟨side.other, color, up, tree⟩ :: outer)) := brother
    exact place.isRed
  have farRed : store.isRed (rootId far) = decide (far.color = .red) := by
    have place : Holds store (plug far (⟨side.other, .black, value, near⟩ ::
        ⟨side.other, color, up, tree⟩ :: outer)) := by
      cases side <;> exact brother
    exact place.isRed
  rw [Store.fixDoubleBlack]
  simp only [notSelf, Bool.false_eq_true, if_false, aboveEq, if_neg upPresent, brotherEq,
    if_neg valuePresent, upColor, valueColor, reduceCtorEq]
  have single : far.color = .red -> Repairs store
      (⟨side, color, up, side.node .black near value far⟩ :: outer) tree
      (.ok ((((store.setColor (rootId far) .black).setColor value
        ((store.setColor (rootId far) .black).entries up).color).rotate side up).setColor up
          .black)) := by
    intro red
    exact ⟨_, _, rfl, .single red, holds.single red,
      ((((store.sameKeys_setColor _ _).trans (Store.sameKeys_setColor _ _ _)).trans
        (Store.sameKeys_rotate _ _ _)).trans (Store.sameKeys_setColor _ _ _))⟩
  have double : near.color = .red -> Repairs store
      (⟨side, color, up, side.node .black near value far⟩ :: outer) tree
      (.ok ((((store.setColor (rootId near) color).rotate side.other value).rotate side
        up).setColor up .black)) := by
    intro red
    rcases side.cases_node near with leaf | ⟨nearColor, inner, middle, rest, node⟩
    · rw [leaf] at red
      cases red
    · rw [node, Side.node_color] at red
      subst red
      subst node
      rw [rootId_node]
      exact ⟨_, _, rfl, .double, holds.double,
        ((((store.sameKeys_setColor _ _).trans (Store.sameKeys_rotate _ _ _)).trans
          (Store.sameKeys_rotate _ _ _)).trans (Store.sameKeys_setColor _ _ _))⟩
  have recolor : near.color = .black -> far.color = .black -> Repairs store
      (⟨side, color, up, side.node .black near value far⟩ :: outer) tree
      (if ((store.setColor value .red).entries up).color = .black then
        (store.setColor value .red).fixDoubleBlack fuel up
      else .ok ((store.setColor value .red).setColor up .black)) := by
    intro nearBlack farBlack
    have painted : Holds (store.setColor value .red)
        (plug (side.node color tree up (side.node .red near value far)) outer) := by
      have both := brother.setColor .red
      cases side <;> exact both
    have upStill : ((store.setColor value .red).entries up).color = color := painted.links.2.1
    rw [upStill]
    cases color with
    | red =>
        rw [if_neg (by decide)]
        exact ⟨_, _, rfl, .stop nearBlack farBlack, painted.setColor .black,
          (store.sameKeys_setColor _ _).trans (Store.sameKeys_setColor _ _ _)⟩
    | black =>
        rw [if_pos rfl]
        obtain ⟨next, fixed, returned, repair, held, same⟩ := above rfl _ painted
        exact ⟨next, _, returned, .ascend nearBlack farBlack repair, held,
          (store.sameKeys_setColor _ _).trans same⟩
  have notRedBlack : forall nephew : RbTree Id, ¬ nephew.color = .red -> nephew.color = .black := by
    intro nephew other
    cases which : nephew.color with
    | red => exact absurd which other
    | black => rfl
  -- The left child of the brother is tested first, on either side.
  cases side with
  | left =>
      have left : (store.entries value).left = rootId near := nearLink
      have right : (store.entries value).right = rootId far := farLink
      have notLeft : ¬ (store.entries up).left = value := by
        rw [isLeft valuePresent]
        decide
      simp only [left, right, nearRed, farRed, decide_eq_true_eq, if_neg notLeft]
      split
      · next red => exact double red
      · next nearOther =>
          split
          · next red => exact single red
          · next farOther => exact recolor (notRedBlack near nearOther) (notRedBlack far farOther)
  | right =>
      have left : (store.entries value).left = rootId far := farLink
      have right : (store.entries value).right = rootId near := nearLink
      have isLeft : (store.entries up).left = value := (isLeft valuePresent).mpr rfl
      simp only [left, right, nearRed, farRed, decide_eq_true_eq, if_pos isLeft]
      split
      · next red => exact single red
      · next farOther =>
          split
          · next red => exact double red
          · next nearOther => exact recolor (notRedBlack near nearOther) (notRedBlack far farOther)

/-- A tree that is not black-empty has a root. -/
theorem Balanced.node_of_succ {tree : RbTree Id} {height : Nat} (balanced : tree.Balanced (height + 1))
    (side : Side) : Exists fun color => Exists fun near => Exists fun id => Exists fun far =>
      tree = side.node color near id far := by
  rcases side.cases_node tree with leaf | node
  · rw [leaf] at balanced
    cases balanced
  · exact node

/-- Next to a red brother a rotation comes first. -/
theorem Holds.rotateBrother {store : Store Hash} {side : Side} {up value : Id}
    {near far tree : RbTree Id} {outer : List (Frame Id)}
    (holds : Holds store
      (plug tree (⟨side, .black, up, side.node .red near value far⟩ :: outer))) :
    Holds (((store.setColor up .red).setColor value .black).rotate side up)
      (plug tree (⟨side, .red, up, near⟩ :: ⟨side, .black, value, far⟩ :: outer)) := by
  have parent : Holds store
      (plug (side.node .black tree up (side.node .red near value far)) outer) := holds
  have brother : Holds (store.setColor up .red) (plug (side.node .red near value far)
      (⟨side.other, .red, up, tree⟩ :: outer)) := by
    have painted := parent.setColor .red
    cases side <;> exact painted
  have both : Holds ((store.setColor up .red).setColor value .black)
      (plug (side.node .red tree up (side.node .black near value far)) outer) := by
    have painted := brother.setColor .black
    cases side <;> exact painted
  exact both.rotate

/-- The call next to a red brother is a call after the rotation. -/
theorem fixDoubleBlack_red {store : Store Hash} {side : Side} {up value : Id}
    {near far tree : RbTree Id} {outer : List (Frame Id)}
    (holds : Holds store
      (plug tree (⟨side, .black, up, side.node .red near value far⟩ :: outer)))
    (present : rootId tree ≠ 0) (fuel : Nat) :
    store.fixDoubleBlack (fuel + 1) (rootId tree) =
      Store.fixDoubleBlack fuel (rootId tree)
        (((store.setColor up .red).setColor value .black).rotate side up) := by
  obtain ⟨aboveEq, upPresent, brotherEq, isLeft⟩ := holds.brother present
  have notSelf : store.selfReference (rootId tree) = false := by
    rcases Side.cases_node .left tree with leaf | ⟨treeColor, first, id, second, node⟩
    · exact absurd (by rw [leaf]; rfl) present
    · subst node
      exact holds.not_selfReference
  have brother : Holds store (plug (side.node .red near value far)
      (⟨side.other, .black, up, tree⟩ :: outer)) := by
    cases side <;> exact holds
  obtain ⟨valuePresent, valueColor, -, -, -⟩ := brother.links
  simp only [rootId_node] at brotherEq isLeft aboveEq upPresent
  rw [Store.fixDoubleBlack]
  simp only [notSelf, Bool.false_eq_true, if_false, aboveEq, if_neg upPresent, brotherEq,
    if_neg valuePresent, valueColor, if_true]
  cases side with
  | left =>
      have notLeft : ¬ (store.entries up).left = value := by
        rw [isLeft valuePresent]
        decide
      rw [if_neg notLeft]
      rfl
  | right =>
      rw [if_pos ((isLeft valuePresent).mpr rfl)]
      rfl

/-- The double-black repair terminates and refines `Fix`, wherever the place
takes what stands in it.  The recursion climbs one frame at a time, with at
most one turn at a red brother, after which the parent is red and stops it. -/
theorem fixDoubleBlack_repairs (frames : List (Frame Id)) (store : Store Hash) (tree : RbTree Id)
    (height fuel : Nat) (holds : Holds store (plug tree frames)) (present : rootId tree ≠ 0)
    (accepts : Accepts frames (height + 1) .black) (enough : frames.length + 1 < fuel) :
    Repairs store frames tree (store.fixDoubleBlack fuel (rootId tree)) := by
  induction frames generalizing store tree height fuel with
  | nil =>
      cases fuel with
      | zero => omega
      | succ fuel =>
          rcases Side.cases_node .left tree with leaf | ⟨color, first, id, second, node⟩
          · exact absurd (by rw [leaf]; rfl) present
          · subst node
            have above : (store.entries id).up = 0 := holds.links.2.2.1
            refine ⟨store, [], ?_, .root, holds, Store.SameKeys.refl store⟩
            simp only [Store.fixDoubleBlack, rootId_node, holds.not_selfReference,
              Bool.false_eq_true, if_false, above, if_true]
  | cons frame outer inductionHypothesis =>
      obtain ⟨side, color, up, sibling⟩ := frame
      have sized : outer.length + 1 + 1 < fuel := enough
      cases fuel with
      | zero => omega
      | succ fuel =>
          obtain ⟨siblingColor, near, value, far, node⟩ :=
            Balanced.node_of_succ accepts.sibling side
          simp only at node
          subst node
          cases siblingColor with
          | black =>
              refine repairs_black holds present fun black next held => ?_
              subst black
              have result := inductionHypothesis next
                (side.node .black tree up (side.node .red near value far)) (height + 1) fuel held
                (by rw [rootId_node]; exact holds.links.1) accepts.2 (by omega)
              rwa [rootId_node] at result
          | red =>
              cases color with
              | red => exact absurd accepts.2.1 (by rw [Side.node_color]; decide)
              | black =>
                  have rotated := holds.rotateBrother
                  have nearBalanced := (Side.balanced_red.mp accepts.1).1
                  have nearBlack := (Side.balanced_red.mp accepts.1).2.2.1
                  obtain ⟨nearColor, nearNear, nearValue, nearFar, nearNode⟩ :=
                    Balanced.node_of_succ nearBalanced side
                  subst nearNode
                  rw [Side.node_color] at nearBlack
                  subst nearBlack
                  cases fuel with
                  | zero => omega
                  | succ fuel =>
                      have turned : Repairs
                          (((store.setColor up .red).setColor value .black).rotate side up)
                          (⟨side, .red, up, side.node .black nearNear nearValue nearFar⟩ ::
                            ⟨side, .black, value, far⟩ :: outer) tree
                          (Store.fixDoubleBlack (fuel + 1) (rootId tree)
                            (((store.setColor up .red).setColor value .black).rotate side up)) :=
                        repairs_black rotated present (fun impossible => by cases impossible)
                      obtain ⟨next, fixed, returned, repair, held, same⟩ := turned
                      refine ⟨next, fixed, ?_, .rotate repair, held, ?_⟩
                      · rw [← returned]
                        exact fixDoubleBlack_red holds present (fuel + 1)
                      · exact ((store.sameKeys_setColor _ _).trans
                          ((Store.sameKeys_setColor _ _ _).trans
                            (Store.sameKeys_rotate _ _ _))).trans same

end HashIndex
end Mcachefs
