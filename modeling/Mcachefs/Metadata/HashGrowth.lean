import Mcachefs.Metadata.HashRekey
import Mathlib.Data.List.Induction

namespace Mcachefs
namespace HashIndex

open Library

/-!
# The growth of the hash index

`mcachefs_metadata_insert_hash` adds a red entry below a leaf and calls
`mcachefs_metadata_repair_hash`, which does to the frames around the entry what
the relation `Rise` does: `repairHash_rises`.  An entry whose hash is there
already goes to the end of a collision list instead.  Its link `up` is then `0`,
so that the repair takes it for the root and paints it black.
-/

variable {Hash : Type}

/-! ## Entries outside the tree -/

theorem Store.replaceChild_outside (store : Store Hash) {up other : Id}
    (different : up ≠ 0 -> other ≠ up) (old new : Id) :
    (store.replaceChild up old new).entries other = store.entries other := by
  by_cases present : up = 0
  · unfold Store.replaceChild
    rw [if_pos present]
    rfl
  · exact store.replaceChild_ne (different present) old new

/-- A rotation does not concern what is outside the tree. -/
theorem Holds.rotate_outside {store : Store Hash} {side : Side} {color childColor : Color}
    {near inner outer : RbTree Id} {x y : Id} {frames : List (Frame Id)}
    (holds : Holds store
      (plug (side.node color near x (side.node childColor inner y outer)) frames))
    {id : Id}
    (outside : id ∉
      (plug (side.node color near x (side.node childColor inner y outer)) frames).inorder) :
    (store.rotate side x).entries id = store.entries id := by
  obtain ⟨isTree, -, -⟩ := holds.split
  obtain ⟨-, -, xUp, -, xFar, -, farTree⟩ := isTree_node.mp isTree
  obtain ⟨yPresent, -, -, yNear, -, -, -⟩ := isTree_node.mp farTree
  rw [rootId_node] at xFar
  have permuted := ((plug_perm _ frames).trans
    ((side.node_perm color near x (side.node childColor inner y outer)).append_right _)).mem_iff
    (a := id)
  have innerRoot : rootId inner ≠ 0 -> rootId inner ∈ inner.inorder := rootId_mem
  have aboveRoot : upId frames ≠ 0 -> upId frames ∈ around frames := upId_mem
  have nodes := (side.node_perm childColor inner y outer).mem_iff (a := id)
  have notX : id ≠ x := by grind
  have notY : id ≠ y := by grind
  have notInner : rootId inner ≠ 0 -> id ≠ rootId inner := by grind
  have notAbove : upId frames ≠ 0 -> id ≠ upId frames := by grind
  have xInner : rootId inner ≠ 0 -> x ≠ rootId inner := by
    have distinct := holds.split.2.2
    rw [(((side.node_perm childColor inner y outer).append_left near.inorder).cons x
      |>.append_right (around frames)).nodup_iff] at distinct
    grind
  -- The state after the first two assignments.
  obtain ⟨base, baseEq⟩ : Exists fun base : Store Hash => base =
      if rootId inner = 0 then store.setChild side.other x (rootId inner)
      else (store.setChild side.other x (rootId inner)).setUp (rootId inner) x := ⟨_, rfl⟩
  have baseUp : (base.entries x).up = upId frames := by
    have child : ((store.setChild side.other x (rootId inner)).entries x).up = upId frames := by
      rw [Store.setChild, Store.modify_same, ← xUp]
      cases side <;> rfl
    rw [baseEq]
    split
    · exact child
    · next present =>
        rw [Store.setUp, Store.modify_ne _ (xInner present)]
        exact child
  have unfolded : store.rotate side x =
      (((base.setUp y (upId frames)).replaceChild (upId frames) x y).setChild side y x).setUp
        x y := by
    unfold Store.rotate
    simp only [xFar, yNear, if_neg yPresent]
    rw [← baseEq, baseUp]
  rw [unfolded, Store.setUp, Store.modify_ne _ notX, Store.setChild, Store.modify_ne _ notY,
    Store.replaceChild_outside _ notAbove, Store.setUp, Store.modify_ne _ notY, baseEq]
  split
  · exact Store.modify_ne _ notX _
  · next present =>
      rw [Store.setUp, Store.modify_ne _ (notInner present)]
      exact Store.modify_ne _ notX _

/-! ## The repair -/

/-- The second step of case 4: the parent comes to the top. -/
theorem Holds.repairHashStep42 {store : Store Hash} {side : Side} {tree sibling uncle : RbTree Id}
    {up grand : Id} {outer : List (Frame Id)}
    (holds : Holds store
      (plug tree (⟨side, .red, up, sibling⟩ :: ⟨side, .black, grand, uncle⟩ :: outer)))
    (present : rootId tree ≠ 0) :
    Exists fun next => store.repairHashStep42 (rootId tree) = .ok next ∧
      Holds next (plug (side.node .black tree up (side.node .red sibling grand uncle)) outer) ∧
      forall id, id ∉
          (plug tree (⟨side, .red, up, sibling⟩ :: ⟨side, .black, grand, uncle⟩ :: outer)).inorder ->
        next.entries id = store.entries id := by
  obtain ⟨upEq, upPresent, -, -⟩ := holds.brother present
  have parent : Holds store
      (plug (side.node .red tree up sibling) (⟨side, .black, grand, uncle⟩ :: outer)) := holds
  obtain ⟨grandEq, grandPresent, -, -⟩ := parent.brother (by rwa [rootId_node])
  rw [rootId_node] at grandEq
  obtain ⟨-, -, -, near, far⟩ := parent.links
  have distinct := parent.split.2.2
  -- The grandparent goes down on the other side.
  have turned : Holds store (plug (side.other.node .black uncle grand
      (side.other.node .red sibling up tree)) outer) := by
    rw [Side.other_node, Side.other_node]
    exact holds
  have rotated := turned.rotate
  rw [Side.other_node, Side.other_node] at rotated
  have painted := rotated.setColor .black
  have last : Holds (((store.rotate side.other grand).setColor up .black).setColor grand .red)
      (plug (side.node .black tree up (side.node .red sibling grand uncle)) outer) := by
    have below : Holds ((store.rotate side.other grand).setColor up .black)
        (plug (side.node .black sibling grand uncle) (⟨side.other, .black, up, tree⟩ :: outer)) := by
      cases side <;> exact painted
    have both := below.setColor .red
    cases side <;> exact both
  have apart : rootId tree ≠ rootId sibling := by
    have inTree : rootId tree ∈ tree.inorder := rootId_mem present
    have inSibling : rootId sibling ≠ 0 -> rootId sibling ∈ sibling.inorder := rootId_mem
    grind
  refine ⟨_, ?_, last, fun id outside => ?_⟩
  · unfold Store.repairHashStep42
    simp only [upEq, grandEq, upPresent, grandPresent, or_self, if_false]
    cases side with
    | left =>
        have stands : rootId tree = (store.entries up).left := near.symm
        rw [if_pos stands]
        rfl
    | right =>
        have stands : rootId tree ≠ (store.entries up).left := fun same => apart (same.trans far)
        rw [if_neg stands]
        rfl
  · have member := (plug_perm tree
      (⟨side, .red, up, sibling⟩ :: ⟨side, .black, grand, uncle⟩ :: outer)).mem_iff (a := id)
    simp only [around, List.mem_append, List.mem_cons] at member
    have notUp : id ≠ up := by grind
    have notGrand : id ≠ grand := by grind
    rw [Store.setColor, Store.modify_ne _ notGrand, Store.setColor, Store.modify_ne _ notUp]
    refine turned.rotate_outside ?_
    rw [Side.other_node, Side.other_node]
    exact outside

/-- The uncle of an entry. -/
theorem Holds.uncle {store : Store Hash} {tree : RbTree Id} {frame above : Frame Id}
    {outer : List (Frame Id)} (holds : Holds store (plug tree (frame :: above :: outer)))
    (present : rootId tree ≠ 0) :
    (store.entries (rootId tree)).up = frame.value ∧ frame.value ≠ 0 ∧
      (store.entries frame.value).up = above.value ∧ above.value ≠ 0 ∧
      store.uncle (rootId tree) = rootId above.sibling := by
  obtain ⟨upEq, upPresent, -, -⟩ := holds.brother present
  have parent : Holds store (plug (frame.fill tree) (above :: outer)) := holds
  have root : rootId (frame.fill tree) = frame.value := rootId_node _ _ _ _ _
  obtain ⟨grandEq, grandPresent, brotherEq, -⟩ := parent.brother (by rwa [root])
  rw [root] at grandEq brotherEq
  refine ⟨upEq, upPresent, grandEq, grandPresent, ?_⟩
  unfold Store.uncle
  simp only [upEq, brotherEq]
  rw [if_pos upPresent]

/-- A subtree is linked to nothing that is not in it. -/
theorem IsTree.child_ne {entries : Id -> Links Hash} {above : Id} {tree : RbTree Id}
    (isTree : IsTree entries above tree) {id : Id} (present : id ≠ 0) (outside : id ∉ tree.inorder)
    (side : Side) (some : rootId tree ≠ 0) : (entries (rootId tree)).child side ≠ id := by
  rcases Side.cases_node side tree with leaf | ⟨color, near, value, far, node⟩
  · exact absurd (by rw [leaf]; rfl) some
  · subst node
    rw [rootId_node]
    obtain ⟨-, -, -, nearLink, -, -, -⟩ := isTree_node.mp isTree
    rw [nearLink]
    rintro rfl
    have member : rootId near ∈ near.inorder := rootId_mem present
    exact outside ((side.node_perm color near value far).mem_iff.mpr
      (List.mem_cons_of_mem _ (List.mem_append_left _ member)))

/-- Next to a black uncle one or two rotations end the repair. -/
theorem Holds.repairHash_black {store : Store Hash} {side upSide : Side}
    {near far sibling uncle : RbTree Id} {id up grand : Id} {outer : List (Frame Id)}
    (holds : Holds store (plug (upSide.node .red near id far)
      (⟨side, .red, up, sibling⟩ :: ⟨upSide, .black, grand, uncle⟩ :: outer)))
    (uncleBlack : uncle.color = .black) :
    Exists fun next => Exists fun whole =>
      (forall fuel, store.repairHash (fuel + 1) id = .ok next) ∧
      Rise (upSide.node .red near id far)
        (⟨side, .red, up, sibling⟩ :: ⟨upSide, .black, grand, uncle⟩ :: outer) whole ∧
      Holds next whole ∧ forall other, other ∉ whole.inorder ->
        next.entries other = store.entries other := by
  have present : rootId (upSide.node .red near id far) ≠ 0 := by
    rw [rootId_node]
    exact holds.links.1
  obtain ⟨upEq, upPresent, grandEq, grandPresent, uncleEq⟩ := holds.uncle present
  rw [rootId_node] at upEq uncleEq present
  have parent : Holds store (plug (side.node .red (upSide.node .red near id far) up sibling)
      (⟨upSide, .black, grand, uncle⟩ :: outer)) := holds
  have top : Holds store (plug (upSide.node .black
      (side.node .red (upSide.node .red near id far) up sibling) grand uncle) outer) := holds
  obtain ⟨-, upColor, -, idLink, siblingLink⟩ := parent.links
  obtain ⟨-, -, -, upLink, uncleLink⟩ := top.links
  rw [rootId_node] at idLink upLink
  obtain ⟨topTree, -, distinct⟩ := top.split
  obtain ⟨-, -, -, -, -, -, uncleTree⟩ := isTree_node.mp topTree
  have inParent := (side.node_perm .red (upSide.node .red near id far) up sibling).nodup_iff
  have inNode := (upSide.node_perm .red near id far).mem_iff (a := id)
  have siblingRoot : rootId sibling ≠ 0 -> rootId sibling ∈ sibling.inorder := rootId_mem
  have parentMember := (side.node_perm .red (upSide.node .red near id far) up sibling).mem_iff
    (a := id)
  have notSibling : rootId sibling ≠ id := by grind
  have notInUncle : id ∉ uncle.inorder := by grind
  have notUncle := fun which => uncleTree.child_ne present notInUncle which
  have notRed : store.isRed (rootId uncle) = false := by
    have place : Holds store (plug uncle (⟨upSide.other, .black, grand,
        side.node .red (upSide.node .red near id far) up sibling⟩ :: outer)) := by
      cases upSide <;> exact holds
    rw [place.isRed, uncleBlack]
    rfl
  -- The two tests of case 4 look for an entry between its parent and its grandparent.
  have unfolded : forall fuel, store.repairHash (fuel + 1) id =
      if (store.entries grand).left ≠ 0 ∧
          id = (store.entries (store.entries grand).left).right then
        if ((store.rotateLeft up).entries id).left ≠ 0 then
          (store.rotateLeft up).repairHashStep42 ((store.rotateLeft up).entries id).left
        else .ok (store.rotateLeft up)
      else if (store.entries grand).right ≠ 0 ∧
          id = (store.entries (store.entries grand).right).left then
        if ((store.rotateRight up).entries id).right ≠ 0 then
          (store.rotateRight up).repairHashStep42 ((store.rotateRight up).entries id).right
        else .ok (store.rotateRight up)
      else store.repairHashStep42 id := by
    intro fuel
    rw [Store.repairHash]
    simp only [upEq, upPresent, upColor, uncleEq, notRed, grandEq, grandPresent, reduceCtorEq,
      Bool.false_eq_true, if_false]
  by_cases between : side = upSide.other
  · subst between
    have turned : Holds store (plug (upSide.node .red sibling up (upSide.node .red near id far))
        (⟨upSide, .black, grand, uncle⟩ :: outer)) := by
      rw [← Side.other_node]
      exact holds
    have rotated := turned.rotate
    have childLink := rotated.links.2.2.2.1
    rw [rootId_node] at childLink
    have place : Holds (store.rotate upSide up) (plug (upSide.node .red sibling up near)
        (⟨upSide, .red, id, far⟩ :: ⟨upSide, .black, grand, uncle⟩ :: outer)) := rotated
    obtain ⟨next, returned, last, outside⟩ := place.repairHashStep42 (by rwa [rootId_node])
    rw [rootId_node] at returned
    refine ⟨next, _, fun fuel => ?_, .double uncleBlack, last, fun other away => ?_⟩
    · rw [unfolded]
      cases upSide with
      | left =>
          have left : (store.entries grand).left = up := upLink
          have right : (store.entries up).right = id := idLink
          have child : ((store.rotateLeft up).entries id).left = up := childLink
          simp only [left, right, child, ne_eq, upPresent, not_false_eq_true, and_self, if_true]
          exact returned
      | right =>
          have left : (store.entries grand).left = rootId uncle := uncleLink
          have right : (store.entries grand).right = up := upLink
          have inner : (store.entries up).left = id := idLink
          have child : ((store.rotateRight up).entries id).right = up := childLink
          have first : ¬ (rootId uncle ≠ 0 ∧ id = (store.entries (rootId uncle)).right) :=
            fun both => notUncle .right both.1 both.2.symm
          simp only [left, right, inner, child, if_neg first, ne_eq, upPresent, not_false_eq_true,
            and_self, if_true]
          exact returned
    · have away' : other ∉ (plug (upSide.node .red sibling up (upSide.node .red near id far))
          (⟨upSide, .black, grand, uncle⟩ :: outer)).inorder := by
        rw [Rise.inorder (.double uncleBlack)] at away
        rw [← Side.other_node]
        exact away
      refine (outside other ?_).trans (turned.rotate_outside away')
      have order : (plug (upSide.node .red sibling up near)
          (⟨upSide, .red, id, far⟩ :: ⟨upSide, .black, grand, uncle⟩ :: outer)).inorder =
          (plug (upSide.node .red sibling up (upSide.node .red near id far))
            (⟨upSide, .black, grand, uncle⟩ :: outer)).inorder := by
        cases upSide <;> simp [plug, Frame.fill, Side.node, RbTree.inorder]
      rwa [order]
  · have same : side = upSide := by
      cases side <;> cases upSide <;> first | rfl | exact absurd rfl between
    subst same
    obtain ⟨next, returned, last, outside⟩ := holds.repairHashStep42 (by rwa [rootId_node])
    rw [rootId_node] at returned
    refine ⟨next, _, fun fuel => ?_, .single uncleBlack, last, fun other away => ?_⟩
    · rw [unfolded]
      have siblingNot : ¬ id = rootId sibling := fun same => notSibling same.symm
      cases side with
      | left =>
          have left : (store.entries grand).left = up := upLink
          have right : (store.entries grand).right = rootId uncle := uncleLink
          have inner : (store.entries up).right = rootId sibling := siblingLink
          have second : ¬ (rootId uncle ≠ 0 ∧ id = (store.entries (rootId uncle)).left) :=
            fun both => notUncle .left both.1 both.2.symm
          simp only [left, right, inner, siblingNot, and_false, if_false, if_neg second]
          exact returned
      | right =>
          have left : (store.entries grand).left = rootId uncle := uncleLink
          have right : (store.entries grand).right = up := upLink
          have inner : (store.entries up).left = rootId sibling := siblingLink
          have first : ¬ (rootId uncle ≠ 0 ∧ id = (store.entries (rootId uncle)).right) :=
            fun both => notUncle .right both.1 both.2.symm
          simp only [left, right, inner, siblingNot, and_false, if_false, if_neg first]
          exact returned
    · rw [Rise.inorder (.single uncleBlack)] at away
      exact outside other away

/-- Below a black parent there is nothing to repair. -/
theorem Holds.repairHash_stop {store : Store Hash} {nodeSide side : Side}
    {near far sibling : RbTree Id} {id up : Id} {outer : List (Frame Id)}
    (holds : Holds store
      (plug (nodeSide.node .red near id far) (⟨side, .black, up, sibling⟩ :: outer)))
    (fuel : Nat) : store.repairHash (fuel + 1) id = .ok store := by
  have parent : Holds store (plug (side.node .black (nodeSide.node .red near id far) up sibling)
      outer) := holds
  obtain ⟨upPresent, upColor, -, -, -⟩ := parent.links
  have above : (store.entries id).up = up := holds.links.2.2.1
  rw [Store.repairHash]
  simp only [above, upPresent, upColor, if_false, if_true]

/-- The repair does what `Rise` does, and does not concern what is outside the tree. -/
theorem repairHash_rises {store : Store Hash} {nodeSide : Side} {near far : RbTree Id} {id : Id}
    {frames : List (Frame Id)} {height : Nat}
    (holds : Holds store (plug (nodeSide.node .red near id far) frames))
    (accepts : Accepts frames height .black) :
    Exists fun next => Exists fun whole =>
      (forall fuel, frames.length < fuel -> store.repairHash fuel id = .ok next) ∧
      Rise (nodeSide.node .red near id far) frames whole ∧ Holds next whole ∧
      forall other, other ∉ whole.inorder -> next.entries other = store.entries other := by
  induction frames using List.twoStepInduction generalizing store nodeSide near far id height with
  | nil =>
      have above : (store.entries id).up = 0 := holds.links.2.2.1
      have painted := holds.setColor .black
      have blackened : plug (nodeSide.node .black near id far) [] =
          (nodeSide.node .red near id far).blacken := by
        cases nodeSide <;> rfl
      rw [blackened] at painted
      refine ⟨_, _, fun fuel enough => ?_, .root, painted, fun other away => ?_⟩
      · obtain ⟨fuel, rfl⟩ := Nat.exists_eq_add_of_le' (Nat.succ_le_of_lt enough)
        rw [Nat.add_succ, Store.repairHash]
        simp only [above, if_true]
      · rw [RbTree.blacken_inorder, (nodeSide.node_perm _ _ _ _).mem_iff] at away
        exact store.modify_ne (List.ne_of_not_mem_cons away) _
  | singleton frame =>
      obtain ⟨side, color, up, sibling⟩ := frame
      cases color with
      | red => exact absurd accepts.2.2.2 (by simp [Accepts])
      | black =>
          refine ⟨store, _, fun fuel enough => ?_, .stop, holds, fun _ _ => rfl⟩
          obtain ⟨fuel, rfl⟩ := Nat.exists_eq_add_of_le' (Nat.succ_le_of_lt enough)
          exact holds.repairHash_stop _
  | cons_cons frame above outer inductionHypothesis _ =>
      obtain ⟨side, color, up, sibling⟩ := frame
      cases color with
      | black =>
          refine ⟨store, _, fun fuel enough => ?_, .stop, holds, fun _ _ => rfl⟩
          obtain ⟨fuel, rfl⟩ := Nat.exists_eq_add_of_le' (Nat.succ_le_of_lt enough)
          exact holds.repairHash_stop _
      | red =>
          obtain ⟨upSide, grand, uncle, outer', same, siblingBlack, siblingBalanced, uncleBalanced,
            outside⟩ := accepts.grandparent
          obtain ⟨rfl, rfl⟩ := List.cons.inj same
          cases uncleColor : uncle.color with
          | black =>
              obtain ⟨near', far', node⟩ : Exists fun near' => Exists fun far' =>
                  nodeSide.node .red near id far = upSide.node .red near' id far' := by
                cases nodeSide <;> cases upSide <;> exact ⟨_, _, rfl⟩
              rw [node] at holds ⊢
              obtain ⟨next, whole, returned, rises⟩ := holds.repairHash_black uncleColor
              refine ⟨next, whole, fun fuel enough => ?_, rises⟩
              obtain ⟨fuel, rfl⟩ := Nat.exists_eq_add_of_le' (Nat.succ_le_of_lt enough)
              exact returned _
          | red =>
              obtain ⟨near', value, far', rfl⟩ : Exists fun near' => Exists fun value =>
                  Exists fun far' => uncle = Side.left.node .red near' value far' := by
                cases uncle with
                | leaf => cases uncleColor
                | node color left value right => exact ⟨left, value, right, by rw [← uncleColor]; rfl⟩
              have present : rootId (nodeSide.node .red near id far) ≠ 0 := by
                rw [rootId_node]
                exact holds.links.1
              obtain ⟨upEq, upPresent, grandEq, grandPresent, uncleEq⟩ := holds.uncle present
              rw [rootId_node] at upEq uncleEq
              simp only [rootId_node] at uncleEq
              have parent : Holds store (plug
                  (side.node .red (nodeSide.node .red near id far) up sibling)
                  (⟨upSide, .black, grand, Side.left.node .red near' value far'⟩ :: outer)) := holds
              have upColor := parent.links.2.1
              have first := parent.setColor .black
              have unclePlace : Holds (store.setColor up .black)
                  (plug (Side.left.node .red near' value far') (⟨upSide.other, .black, grand,
                    side.node .black (nodeSide.node .red near id far) up sibling⟩ :: outer)) := by
                cases upSide <;> exact first
              have second := unclePlace.setColor .black
              have top : Holds ((store.setColor up .black).setColor value .black)
                  (plug (upSide.node .black
                    (side.node .black (nodeSide.node .red near id far) up sibling) grand
                    (Side.left.node .black near' value far')) outer) := by
                cases upSide <;> exact second
              have upPlace : Holds ((store.setColor up .black).setColor value .black)
                  (plug (side.node .black (nodeSide.node .red near id far) up sibling)
                    (⟨upSide, .black, grand, Side.left.node .black near' value far'⟩ :: outer)) :=
                top
              have upStill := upPlace.links.2.2.1
              have isRed : store.isRed value = true := by
                have place : Holds store
                    (plug (Side.left.node .red near' value far') (⟨upSide.other, .black, grand,
                      side.node .red (nodeSide.node .red near id far) up sibling⟩ :: outer)) := by
                  cases upSide <;> exact holds
                have red := place.isRed
                rwa [rootId_node, uncleColor] at red
              obtain ⟨next, whole, returned, rise, last, same⟩ :=
                inductionHypothesis (top.setColor .red) outside
              have rises : Rise (nodeSide.node .red near id far)
                  (⟨side, .red, up, sibling⟩ ::
                    ⟨upSide, .black, grand, Side.left.node .red near' value far'⟩ :: outer) whole :=
                .ascend uncleColor rise
              refine ⟨next, whole, fun fuel enough => ?_, rises, last, fun other away => ?_⟩
              · obtain ⟨fuel, rfl⟩ := Nat.exists_eq_add_of_le' (Nat.succ_le_of_lt enough)
                rw [Nat.add_succ, Store.repairHash]
                simp only [upEq, upPresent, upColor, uncleEq, isRed, upStill, upId, reduceCtorEq,
                  if_false, if_true]
                exact returned _ (by simp only [List.length_cons] at *; omega)
              · rw [same other away]
                rw [rises.inorder, (plug_perm _ _).mem_iff] at away
                simp only [around, Side.node, RbTree.inorder, List.mem_append, List.mem_cons,
                  not_or] at away
                rw [Store.setColor, Store.modify_ne _ (by tauto), Store.setColor,
                  Store.modify_ne _ (by tauto), Store.setColor, Store.modify_ne _ (by tauto)]

/-! ## The new leaf -/

/-- A red entry without children is linked below a leaf. -/
theorem Holds.attach {store : Store Hash} {frame : Frame Id} {outer : List (Frame Id)} {mdata : Id}
    (holds : Holds store (plug .leaf (frame :: outer))) (present : mdata ≠ 0)
    (outside : mdata ∉ (plug .leaf (frame :: outer)).inorder)
    (left : (store.entries mdata).left = 0) (right : (store.entries mdata).right = 0) :
    Holds (((store.setChild frame.side frame.value mdata).setUp mdata frame.value).setColor mdata
        .red)
      (plug (Side.left.node .red .leaf mdata .leaf) (frame :: outer)) := by
  obtain ⟨-, isPlace⟩ := isTree_plug.mp holds.isTree
  have perm := plug_perm (.leaf : RbTree Id) (frame :: outer)
  have distinct : (around (frame :: outer)).Nodup := perm.nodup_iff.mp holds.distinct
  have away : mdata ∉ around (frame :: outer) := fun member => outside (perm.mem_iff.mpr member)
  have elsewhere : forall id, id ≠ mdata ->
      (((store.setChild frame.side frame.value mdata).setUp mdata frame.value).setColor mdata
        .red).entries id = (store.setChild frame.side frame.value mdata).entries id := by
    intro id different
    rw [Store.setColor, Store.modify_ne _ different, Store.setUp, Store.modify_ne _ different]
  have here : (((store.setChild frame.side frame.value mdata).setUp mdata frame.value).setColor
      mdata .red).entries mdata =
        { store.entries mdata with up := frame.value, color := .red } := by
    have notUp : mdata ≠ frame.value := fun same => away (same ▸ List.mem_cons_self)
    rw [Store.setColor, Store.modify_same, Store.setUp, Store.modify_same, Store.setChild,
      Store.modify_ne _ notUp]
  refine ⟨isTree_plug.mpr ⟨?_, ?_⟩, ?_, ?_⟩
  · refine ⟨present, ?_, ?_, ?_, ?_, trivial, trivial⟩
    · rw [here]
    · rw [here]
      rfl
    · rw [here]
      exact left
    · rw [here]
      exact right
  · refine (isPlace.setChild distinct).congr fun id member => elsewhere id ?_
    exact fun same => away (same ▸ member)
  · rw [(plug_perm _ _).nodup_iff]
    exact List.nodup_cons.mpr ⟨away, distinct⟩
  · have root : rootId (plug (Side.left.node .red .leaf mdata .leaf) (frame :: outer)) =
        rootId (plug .leaf (frame :: outer)) := by
      rw [rootId_plug_cons, ← rootId_plug_cons .leaf]
    rw [root]
    exact holds.root

section Order

variable [LinearOrder Hash]

/-- Where no entry has the hash, the descent of an insertion ends above a leaf, between the
entries with smaller and those with greater hashes. -/
theorem IsTree.insertBelow {store : Store Hash} {up mdata : Id} {tree : RbTree Id}
    (isTree : IsTree store.entries up tree) (some : rootId tree ≠ 0)
    (ordered : tree.inorder.Pairwise fun one two =>
      (store.entries one).hash < (store.entries two).hash)
    (unlike : forall id, id ∈ tree.inorder ->
      (store.entries id).hash ≠ (store.entries mdata).hash) :
    Exists fun frame => Exists fun outer => Exists fun steps =>
      tree = plug .leaf (frame :: outer) ∧
      (forall fuel, store.insertBelow (fuel + 1 + steps) (rootId tree) mdata =
        .ok ((store.setChild frame.side frame.value mdata).setUp mdata frame.value)) ∧
      (forall id, id ∈ before (frame :: outer) ->
        (store.entries id).hash < (store.entries mdata).hash) ∧
      forall id, id ∈ after (frame :: outer) ->
        (store.entries mdata).hash < (store.entries id).hash := by
  induction tree generalizing up with
  | leaf => exact absurd rfl some
  | node color left id right leftHypothesis rightHypothesis =>
      obtain ⟨present, -, -, leftLink, rightLink, inLeft, inRight⟩ := isTree
      simp only [RbTree.inorder] at ordered unlike
      obtain ⟨leftOrdered, restOrdered, apart⟩ := List.pairwise_append.mp ordered
      obtain ⟨above, rightOrdered⟩ := List.pairwise_cons.mp restOrdered
      have root : rootId (.node color left id right) = id := rfl
      have middle : id ∈ left.inorder ++ id :: right.inorder :=
        List.mem_append_right _ List.mem_cons_self
      rcases lt_or_gt_of_ne (unlike id middle) with greater | less
      · have smaller : forall other, other ∈ left.inorder ++ [id] ->
            (store.entries other).hash < (store.entries mdata).hash := by
          intro other member
          rcases List.mem_append.mp member with inside | last
          · exact (apart other inside id List.mem_cons_self).trans greater
          · rwa [List.mem_singleton.mp last]
        have notLess := greater.not_gt
        by_cases leaf : rootId right = 0
        · have none : right = .leaf := by
            cases right with
            | leaf => rfl
            | node _ _ value _ => exact absurd leaf inRight.1
          subst none
          refine ⟨⟨.right, color, id, left⟩, [], 0, rfl, fun fuel => ?_, ?_, by simp [after]⟩
          · rw [Nat.add_zero, Store.insertBelow]
            simp only [rootId, present, notLess, greater, rightLink, ne_eq, not_true_eq_false,
              if_false, if_true]
          · simpa [before] using smaller
        · obtain ⟨frame, outer, steps, same, returned, below, beyond⟩ :=
            rightHypothesis inRight leaf rightOrdered fun other member =>
              unlike other (List.mem_append_right _ (List.mem_cons_of_mem id member))
          refine ⟨frame, outer ++ [⟨.right, color, id, left⟩], steps + 1, ?_, fun fuel => ?_,
            fun other member => ?_, fun other member => ?_⟩
          · rw [← List.cons_append, plug_append, ← same]
            rfl
          · rw [root, ← Nat.add_assoc, Store.insertBelow]
            simp only [present, notLess, greater, rightLink, ne_eq, leaf, not_false_eq_true,
              if_false, if_true]
            exact returned fuel
          · rw [← List.cons_append, before_append] at member
            rcases List.mem_append.mp member with outside | inside
            · exact smaller other (by simpa [before] using outside)
            · exact below other inside
          · rw [← List.cons_append, after_append] at member
            refine beyond other ?_
            simpa [after] using member
      · have bigger : forall other, other ∈ id :: right.inorder ->
            (store.entries mdata).hash < (store.entries other).hash := by
          intro other member
          rcases List.mem_cons.mp member with rfl | inside
          · exact less
          · exact less.trans (above other inside)
        by_cases leaf : rootId left = 0
        · have none : left = .leaf := by
            cases left with
            | leaf => rfl
            | node _ _ value _ => exact absurd leaf inLeft.1
          subst none
          refine ⟨⟨.left, color, id, right⟩, [], 0, rfl, fun fuel => ?_, by simp [before], ?_⟩
          · rw [Nat.add_zero, Store.insertBelow]
            simp only [rootId, present, less, leftLink, ne_eq, not_true_eq_false, if_false,
              if_true]
          · simpa [after] using bigger
        · obtain ⟨frame, outer, steps, same, returned, below, beyond⟩ :=
            leftHypothesis inLeft leaf leftOrdered fun other member =>
              unlike other (List.mem_append_left _ member)
          refine ⟨frame, outer ++ [⟨.left, color, id, right⟩], steps + 1, ?_, fun fuel => ?_,
            fun other member => ?_, fun other member => ?_⟩
          · rw [← List.cons_append, plug_append, ← same]
            rfl
          · rw [root, ← Nat.add_assoc, Store.insertBelow]
            simp only [present, less, leftLink, ne_eq, leaf, not_false_eq_true, if_false, if_true]
            exact returned fuel
          · rw [← List.cons_append, before_append] at member
            refine below other ?_
            simpa [before] using member
          · rw [← List.cons_append, after_append] at member
            rcases List.mem_append.mp member with inside | outside
            · exact beyond other inside
            · exact bigger other (by simpa [after] using outside)

/-! ## Insertion -/

/-- A valid index with an entry in it, as `/` always is, whose collision lists are black below
their heads. -/
structure ChainedIndex (store : Store Hash) (tree : RbTree Id) (tails : Id -> List Id) : Prop
    extends ValidIndex store tree tails where
  some : rootId tree ≠ 0
  black : forall id, id ∈ tree.inorder -> forall tail, tail ∈ tails id ->
    (store.entries tail).color = .black

/-- What an insertion should make of an index. -/
structure Inserts (store next : Store Hash) (tree newTree : RbTree Id)
    (tails newTails : Id -> List Id) (mdata : Id) : Prop where
  index : ChainedIndex next newTree newTails
  indexed : forall id, Indexed newTree newTails id ↔ Indexed tree tails id ∨ id = mdata
  hash : forall id, (next.entries id).hash = (store.entries id).hash
  /-- The other collision lists stay. -/
  lists : forall head, head ∈ tree.inorder ->
    (store.entries head).hash ≠ (store.entries mdata).hash -> newTails head = tails head
  /-- Where the hash is there already, the entry ends its list and the tree stays. -/
  collision : forall head, head ∈ tree.inorder ->
    (store.entries head).hash = (store.entries mdata).hash ->
      newTree = tree ∧ newTails head = tails head ++ [mdata] ∧
        next.hash_root = store.hash_root ∧ forall id, id ∈ tree.inorder ->
          Renamed (fun id => id) (store.entries id) (next.entries id)
  /-- Otherwise it is a node of the tree. -/
  node : (forall head, head ∈ tree.inorder ->
      (store.entries head).hash ≠ (store.entries mdata).hash) ->
    mdata ∈ newTree.inorder ∧ newTails mdata = []
  root : next.hash_root = rootId newTree
  rootBlack : (next.entries next.hash_root).color = .black

/-- The root of a valid index is black. -/
theorem ValidIndex.rootBlack {store : Store Hash} {tree : RbTree Id} {tails : Id -> List Id}
    (valid : ValidIndex store tree tails) (some : rootId tree ≠ 0) :
    (store.entries store.hash_root).color = .black := by
  rw [valid.holds.root]
  cases tree with
  | leaf => exact absurd rfl some
  | node color left id right => exact valid.holds.isTree.2.1.trans valid.redBlack.1

/-- An entry with a new hash becomes a node of the tree. -/
theorem ChainedIndex.grown {store : Store Hash} {tree : RbTree Id} {tails : Id -> List Id}
    (index : ChainedIndex store tree tails) {mdata : Id} (present : mdata ≠ 0)
    (notIndexed : ¬ Indexed tree tails mdata)
    (noNext : (store.entries mdata).collision_next = 0)
    (noPrevious : (store.entries mdata).collision_previous = 0)
    (unlike : forall head, head ∈ tree.inorder ->
      (store.entries head).hash ≠ (store.entries mdata).hash) :
    Exists fun next => Exists fun newTree => Exists fun bound =>
      (forall fuel, bound ≤ fuel -> store.insertHash fuel mdata = .ok next) ∧
      ChainedIndex next newTree (Function.update tails mdata []) ∧
      newTree.inorder.Perm (mdata :: tree.inorder) := by
  have outside : mdata ∉ tree.inorder := fun inTree =>
    notIndexed ⟨mdata, inTree, List.mem_cons_self⟩
  obtain ⟨base, baseEq⟩ : Exists fun base => base = store.cleanupHash mdata := ⟨_, rfl⟩
  have baseKeys : store.SameKeys base := baseEq ▸ store.sameKeys_cleanupHash mdata
  have baseHash : forall id, (base.entries id).hash = (store.entries id).hash :=
    fun id => (baseKeys id).1
  have baseHolds : Holds base tree := baseEq ▸ index.holds.cleanupHash outside
  have baseElse : forall id, id ≠ mdata -> base.entries id = store.entries id := by
    intro id different
    rw [baseEq, Store.cleanupHash, Store.modify_ne _ different]
  have baseOwn : (base.entries mdata).left = 0 ∧ (base.entries mdata).right = 0 := by
    rw [baseEq, Store.cleanupHash, Store.modify_same]
    exact ⟨rfl, rfl⟩
  obtain ⟨frame, outer, steps, rfl, returned, below, beyond⟩ :=
    baseHolds.isTree.insertBelow index.some (by simp only [baseHash]; exact index.ordered)
      (show forall id, id ∈ tree.inorder -> (base.entries id).hash ≠ (base.entries mdata).hash by
        simp only [baseHash]
        exact unlike)
  have attached := baseHolds.attach present outside baseOwn.1 baseOwn.2
  obtain ⟨height, leafBalanced, accepts⟩ := (redBlack_plug_iff _ _).mp index.redBlack
  obtain ⟨next, whole, repaired, rise, last, rest⟩ := repairHash_rises attached accepts
  have order : whole.inorder = before (frame :: outer) ++ mdata :: after (frame :: outer) := by
    rw [rise.inorder, plug_inorder]
    rfl
  have oldOrder : (plug .leaf (frame :: outer)).inorder =
      before (frame :: outer) ++ after (frame :: outer) := plug_inorder _ _
  have keys : store.SameKeys next := by
    have linked := ((baseKeys.trans (base.sameKeys_setChild frame.side frame.value mdata)).trans
      (Store.sameKeys_setUp _ mdata frame.value)).trans (Store.sameKeys_setColor _ mdata .red)
    exact linked.trans (Store.repairHash_sameKeys (repaired _ (Nat.lt_succ_self _)))
  have hash : forall id, (next.entries id).hash = (store.entries id).hash := fun id => (keys id).1
  have perm : whole.inorder.Perm (mdata :: (plug .leaf (frame :: outer)).inorder) := by
    rw [order, oldOrder]
    exact List.perm_middle
  have kept : forall id, id ∉ (plug .leaf (frame :: outer)).inorder -> id ≠ mdata ->
      next.entries id = store.entries id := by
    intro id away different
    have notUp : id ≠ frame.value := by
      rintro rfl
      exact away ((plug_perm _ _).mem_iff.mpr List.mem_cons_self)
    have notWhole : id ∉ whole.inorder := fun member =>
      (List.mem_cons.mp (perm.mem_iff.mp member)).elim different away
    rw [rest id notWhole, Store.setColor, Store.modify_ne _ different, Store.setUp,
      Store.modify_ne _ different, Store.setChild, Store.modify_ne _ notUp, baseElse id different]
  have members : forall id, id ∈ whole.inorder ->
      id = mdata ∨ id ≠ mdata ∧ id ∈ (plug .leaf (frame :: outer)).inorder := by
    intro id member
    rcases List.mem_cons.mp (perm.mem_iff.mp member) with same | old
    · exact Or.inl same
    · exact Or.inr ⟨ne_of_mem_of_not_mem old outside, old⟩
  have tailKept : forall id, id ∈ (plug .leaf (frame :: outer)).inorder ->
      forall tail, tail ∈ tails id -> next.entries tail = store.entries tail := by
    intro id member tail inTail
    refine kept tail (fun inTree => ?_) fun same => ?_
    · have same := index.head_unique inTree member (index.sameHash id member tail inTail)
      exact (List.nodup_cons.mp (index.distinct id member)).1 (same ▸ inTail)
    · exact notIndexed ⟨id, member, List.mem_cons_of_mem id (same ▸ inTail)⟩
  have someRoot : rootId whole ≠ 0 := by
    cases whole with
    | leaf => exact absurd (order ▸ List.mem_append_right _ List.mem_cons_self) List.not_mem_nil
    | node color left id right => exact last.isTree.1
  refine ⟨next, whole, outer.length + 2 + 1 + steps, fun fuel enough => ?_, ⟨⟨last, ?_, ?_, ?_, ?_,
    ?_, ?_⟩, someRoot, ?_⟩, perm⟩
  · obtain ⟨fuel, rfl⟩ := Nat.exists_eq_add_of_le' enough
    rw [Store.insertHash, Store.doInsertHash, ← baseEq]
    have descended := returned (fuel + (outer.length + 2))
    rw [Nat.add_assoc, Nat.add_assoc, ← Nat.add_assoc] at descended
    have amount : fuel + (outer.length + 2) + (1 + steps) =
        fuel + (outer.length + 2 + 1 + steps) := by omega
    rw [amount, ← baseHolds.root] at descended
    simp only [descended, bind, Except.bind]
    exact repaired _ (by rw [List.length_cons]; omega)
  · exact rise.redBlack rfl (Side.balanced_red.mpr ⟨leafBalanced, leafBalanced, rfl, rfl⟩) accepts
  · simp only [baseHash] at below beyond
    have ordered := index.ordered
    rw [oldOrder] at ordered
    obtain ⟨first, second, apart⟩ := List.pairwise_append.mp ordered
    simp only [hash]
    rw [order]
    refine List.pairwise_append.mpr ⟨first, List.pairwise_cons.mpr ⟨beyond, second⟩, ?_⟩
    intro one inBefore two inRest
    rcases List.mem_cons.mp inRest with rfl | inAfter
    · exact below one inBefore
    · exact apart one inBefore two inAfter
  all_goals
    intro id member
    rcases members id member with rfl | ⟨different, old⟩
  · rw [Function.update_self]
    exact ⟨present, (keys id).2.2.trans noPrevious, (keys id).2.1.trans noNext, trivial⟩
  · rw [Function.update_of_ne different]
    exact (index.chained id old).congr fun entry _ => ⟨(keys entry).2.2, (keys entry).2.1⟩
  · rw [Function.update_self]
    exact List.nodup_singleton id
  · rw [Function.update_of_ne different]
    exact index.distinct id old
  · rw [Function.update_self]
    exact fun _ impossible => absurd impossible List.not_mem_nil
  · rw [Function.update_of_ne different]
    intro tail inTail
    rw [hash, hash]
    exact index.sameHash id old tail inTail
  · rw [Function.update_self]
    exact fun _ impossible => absurd impossible List.not_mem_nil
  · rw [Function.update_of_ne different]
    intro tail inTail
    rw [tailKept id old tail inTail]
    exact index.detached id old tail inTail
  · rw [Function.update_self]
    exact fun _ impossible => absurd impossible List.not_mem_nil
  · rw [Function.update_of_ne different]
    intro tail inTail
    rw [tailKept id old tail inTail]
    exact index.black id old tail inTail

/-- An insertion comes to an end and leaves a valid index with the entry in it. -/
theorem insertHash_inserts (store : Store Hash) (tree : RbTree Id) (tails : Id -> List Id)
    (index : ChainedIndex store tree tails) (mdata : Id) (present : mdata ≠ 0)
    (notIndexed : ¬ Indexed tree tails mdata)
    (noNext : (store.entries mdata).collision_next = 0)
    (noPrevious : (store.entries mdata).collision_previous = 0) :
    Exists fun next => Exists fun newTree => Exists fun newTails => Exists fun bound =>
      (forall fuel, bound ≤ fuel -> store.insertHash fuel mdata = .ok next) ∧
        Inserts store next tree newTree tails newTails mdata := by
  have outside : mdata ∉ tree.inorder := fun inTree =>
    notIndexed ⟨mdata, inTree, List.mem_cons_self⟩
  by_cases collides : Exists fun head => head ∈ tree.inorder ∧
      (store.entries head).hash = (store.entries mdata).hash
  · obtain ⟨head, headIn, headHash⟩ := collides
    obtain ⟨next, bound, inserted, valid, indexed, kept, black, root⟩ :=
      index.appended present notIndexed noNext headIn headHash
    have onlyHead : forall other, other ∈ tree.inorder ->
        (store.entries other).hash = (store.entries mdata).hash -> other = head :=
      fun other otherIn same => index.head_unique otherIn headIn (same.trans headHash.symm)
    have newIndex : ChainedIndex next tree
        (Function.update tails head (tails head ++ [mdata])) := by
      refine ⟨valid, index.some, fun id member tail inTail => ?_⟩
      have old : tail ∈ tails id ∨ tail = mdata := by
        by_cases isHead : id = head
        · rw [isHead, Function.update_self, List.mem_append, List.mem_singleton] at inTail
          rwa [isHead]
        · rw [Function.update_of_ne isHead] at inTail
          exact Or.inl inTail
      rcases old with old | rfl
      · have different : tail ≠ mdata := by
          rintro rfl
          exact notIndexed ⟨id, member, List.mem_cons_of_mem id old⟩
        rw [(kept tail different).links.color]
        exact index.black id member tail old
      · exact black
    have hash := (Store.insertHash_inserted (inserted bound (Nat.le_refl bound))).hash
    refine ⟨next, tree, _, bound, inserted, newIndex, indexed, hash, fun other otherIn unlike => ?_,
      fun other otherIn same => ?_, fun unlike => absurd headHash (unlike head headIn),
      valid.holds.root, valid.rootBlack index.some⟩
    · have different : other ≠ head := by
        rintro rfl
        exact unlike headHash
      exact Function.update_of_ne different _ _
    · obtain rfl := onlyHead other otherIn same
      refine ⟨rfl, Function.update_self _ _ _, root, fun id member => ?_⟩
      exact (kept id (ne_of_mem_of_not_mem member outside)).links
  · have unlike : forall head, head ∈ tree.inorder ->
        (store.entries head).hash ≠ (store.entries mdata).hash :=
      fun head headIn same => collides ⟨head, headIn, same⟩
    obtain ⟨next, newTree, bound, inserted, newIndex, perm⟩ :=
      index.grown present notIndexed noNext noPrevious unlike
    have hash := (Store.insertHash_inserted (inserted bound (Nat.le_refl bound))).hash
    refine ⟨next, newTree, _, bound, inserted, newIndex, fun id => ?_, hash, fun head headIn _ => ?_,
      fun head headIn same => absurd same (unlike head headIn), fun _ => ⟨?_, ?_⟩,
      newIndex.holds.root, newIndex.toValidIndex.rootBlack newIndex.some⟩
    · constructor
      · rintro ⟨head, headIn, member⟩
        rcases List.mem_cons.mp (perm.mem_iff.mp headIn) with rfl | old
        · rw [Function.update_self] at member
          exact Or.inr (List.mem_singleton.mp member)
        · rw [Function.update_of_ne (ne_of_mem_of_not_mem old outside)] at member
          exact Or.inl ⟨head, old, member⟩
      · rintro (⟨head, headIn, member⟩ | rfl)
        · refine ⟨head, perm.mem_iff.mpr (List.mem_cons_of_mem _ headIn), ?_⟩
          rwa [Function.update_of_ne (ne_of_mem_of_not_mem headIn outside)]
        · exact ⟨id, perm.mem_iff.mpr List.mem_cons_self, List.mem_cons_self⟩
    · exact Function.update_of_ne (ne_of_mem_of_not_mem headIn outside) _ _
    · exact perm.mem_iff.mpr List.mem_cons_self
    · exact Function.update_self _ _ _

/-- An entry with a new hash comes to stand in the tree of `colliding`. -/
theorem insertHash_inserts_colliding :
    ¬ Indexed collidingTree collidingTails 4 ∧ (colliding.entries 4).collision_next = 0 ∧
      Exists fun next => Exists fun newTree => Exists fun newTails => Exists fun bound =>
        (forall fuel, bound ≤ fuel -> colliding.insertHash fuel 4 = .ok next) ∧
          Inserts colliding next collidingTree newTree collidingTails newTails 4 := by
  have notIndexed : ¬ Indexed collidingTree collidingTails 4 := by
    rintro ⟨head, headIn, member⟩
    have heads : forall head, head ∈ collidingTree.inorder -> 4 ∉ head :: collidingTails head := by
      decide
    exact heads head headIn member
  exact ⟨notIndexed, rfl, insertHash_inserts colliding collidingTree collidingTails
    ⟨colliding_valid, by decide, by decide⟩ 4 (by decide) notIndexed rfl rfl⟩

end Order

end HashIndex
end Mcachefs
