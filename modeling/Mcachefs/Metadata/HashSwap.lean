import Mcachefs.Metadata.HashRepair
import Mathlib.Logic.Equiv.Basic

namespace Mcachefs
namespace HashIndex

open Library

/-!
# Exchanging two entries

An entry with two children cannot be unlinked.  `hashSwap` exchanges it with
another one: each takes the links and the colour of the other, and the
neighbours are told.  In the tree that the store holds this exchanges two
names and changes nothing else.
-/

variable {Hash : Type}

namespace Store

/-- `mcachefs_metadata_hash_swap_restore`. -/
def hashSwapRestore (first : Id) (isLeft : Bool) (store : Store Hash) : Store Hash :=
  let up := (store.entries first).up
  let store :=
    if up = 0 then store
    else if isLeft then store.setChild .left up first
    else store.setChild .right up first
  let left := (store.entries first).left
  let store := if left = 0 then store else store.setUp left first
  let right := (store.entries first).right
  if right = 0 then store else store.setUp right first

/-- The entry stands on the left side of its parent. -/
def isLeftChild (store : Store Hash) (id : Id) : Bool :=
  (store.entries id).up ≠ 0 ∧ (store.entries (store.entries id).up).left = id

/-- The tail of `mcachefs_metadata_hash_swap`, after the links are exchanged. -/
def finishSwap (first second : Id) (firstIsLeft secondIsLeft : Bool) (store : Store Hash) :
    Except Fault (Store Hash) :=
  let store := store.hashSwapRestore first secondIsLeft
  let store := store.hashSwapRestore second firstIsLeft
  if store.selfReference first then .error .corruptedEntry
  else if store.selfReference second then .error .corruptedEntry
  else .ok store

/-- `mcachefs_metadata_hash_swap`. -/
def hashSwap : (fuel : Nat) -> Id -> Id -> Store Hash -> Except Fault (Store Hash)
  | 0, _, _, _ => .error .fuel
  | fuel + 1, first, second, store =>
      if store.selfReference first then .error .corruptedEntry
      else if store.selfReference second then .error .corruptedEntry
      else if (store.entries second).up = first then hashSwap fuel second first store
      else
        let firstIsLeft := store.isLeftChild first
        let secondIsLeft := store.isLeftChild second
        let one := store.entries first
        let two := store.entries second
        let store := (store.setColor first two.color).setColor second one.color
        if one.up = second then
          let otherChild := if two.left = first then two.right else two.left
          let store := store.modify first fun links =>
            if firstIsLeft then { links with up := two.up, left := second, right := otherChild }
            else { links with up := two.up, left := otherChild, right := second }
          let store := store.modify second fun links =>
            { links with up := first, left := one.left, right := one.right }
          finishSwap first second firstIsLeft secondIsLeft store
        else if one.left = second ∨ one.right = second then .error .secondIsChildOfFirst
        else if two.left = first ∨ two.right = first then .error .firstIsChildOfSecond
        else
          let store := store.modify first fun links =>
            { links with up := two.up, left := two.left, right := two.right }
          let store := store.modify second fun links =>
            { links with up := one.up, left := one.left, right := one.right }
          finishSwap first second firstIsLeft secondIsLeft store

end Store

/-! ## Neighbours -/

/-- Links lead back to where they come from. -/
structure Linked (entries : Id -> Links Hash) (ids : List Id) : Prop where
  present : forall id, id ∈ ids -> id ≠ 0
  left : forall id, id ∈ ids -> (entries id).left ≠ 0 ->
    (entries id).left ∈ ids ∧ (entries (entries id).left).up = id
  right : forall id, id ∈ ids -> (entries id).right ≠ 0 ->
    (entries id).right ∈ ids ∧ (entries (entries id).right).up = id
  apart : forall id, id ∈ ids -> (entries id).left ≠ 0 -> (entries id).left ≠ (entries id).right
  up : forall id, id ∈ ids -> (entries id).up ≠ 0 -> (entries id).up ∈ ids ∧
    ((entries (entries id).up).left = id ∨ (entries (entries id).up).right = id)
  notSelf : forall id, id ∈ ids ->
    (entries id).left ≠ id ∧ (entries id).right ≠ id ∧ (entries id).up ≠ id

theorem IsTree.root_up {entries : Id -> Links Hash} {up : Id} {tree : RbTree Id}
    (isTree : IsTree entries up tree) (present : rootId tree ≠ 0) :
    (entries (rootId tree)).up = up := by
  cases tree with
  | leaf => exact absurd rfl present
  | node color left id right => exact isTree.2.2.1

/-- What is around a place is in the whole tree. -/
theorem mem_plug {tree : RbTree Id} {frames : List (Frame Id)} {id : Id} :
    id ∈ (plug tree frames).inorder ↔ id ∈ tree.inorder ∨ id ∈ around frames := by
  rw [(plug_perm tree frames).mem_iff, List.mem_append]

theorem Holds.linked {store : Store Hash} {tree : RbTree Id} (holds : Holds store tree) :
    Linked store.entries tree.inorder := by
  refine ⟨fun _ => holds.isTree.ne_zero, ?_, ?_, ?_, ?_, ?_⟩
  all_goals
    intro id member
    obtain ⟨color, left, right, frames, rfl⟩ := RbTree.exists_place member
    have node : Holds store (plug (Side.left.node color left id right) frames) := holds
    obtain ⟨-, -, above, leftLink, rightLink⟩ := node.links
    obtain ⟨isTree, isPlace, distinct⟩ := node.split
    obtain ⟨-, -, -, -, -, leftTree, rightTree⟩ := isTree_node.mp isTree
    simp only [Links.child, Side.other] at leftLink rightLink
  · intro present
    rw [leftLink] at present ⊢
    exact ⟨mem_plug.mpr (Or.inl (List.mem_append_left _ (rootId_mem present))),
      leftTree.root_up present⟩
  · intro present
    rw [rightLink] at present ⊢
    exact ⟨mem_plug.mpr (Or.inl (List.mem_append_right _ (List.mem_cons_of_mem _
      (rootId_mem present)))), rightTree.root_up present⟩
  · rw [leftLink, rightLink]
    intro present same
    have inLeft := rootId_mem present
    have inRight := rootId_mem (same ▸ present)
    rw [← same] at inRight
    grind
  · intro present
    rw [above] at present ⊢
    refine ⟨mem_plug.mpr (Or.inr (upId_mem present)), ?_⟩
    cases frames with
    | nil => exact absurd rfl present
    | cons frame outer =>
        have link := isPlace.2.2.2.1
        cases side : frame.side with
        | left =>
            rw [side] at link
            exact Or.inl link
        | right =>
            rw [side] at link
            exact Or.inr link
  · have selfReference := node.not_selfReference
    unfold Store.selfReference at selfReference
    simpa using selfReference

/-! ## The exchange renames the tree -/

/-- The links of an entry with all ids renamed. -/
structure Renamed (rename : Id -> Id) (old new : Links Hash) : Prop where
  color : new.color = old.color
  left : new.left = rename old.left
  right : new.right = rename old.right
  up : new.up = rename old.up

theorem rootId_map {rename : Id -> Id} (zero : rename 0 = 0) (tree : RbTree Id) :
    rootId (tree.map rename) = rename (rootId tree) := by
  cases tree with
  | leaf => exact zero.symm
  | node color left id right => rfl

/-- Entries whose links are renamed hold the renamed tree. -/
theorem IsTree.map {entries other : Id -> Links Hash} {rename : Id -> Id} {up : Id}
    {tree : RbTree Id} (isTree : IsTree entries up tree) (zero : rename 0 = 0)
    (nonzero : forall id, id ∈ tree.inorder -> rename id ≠ 0)
    (renamed : forall id, id ∈ tree.inorder ->
      Renamed rename (entries id) (other (rename id))) :
    IsTree other (rename up) (tree.map rename) := by
  induction tree generalizing up with
  | leaf => trivial
  | node color left id right leftHypothesis rightHypothesis =>
      obtain ⟨-, colored, above, leftLink, rightLink, inLeft, inRight⟩ := isTree
      simp only [RbTree.inorder, List.mem_append, List.mem_cons] at nonzero renamed
      have here := renamed id (Or.inr (Or.inl rfl))
      refine ⟨nonzero id (Or.inr (Or.inl rfl)), by rw [here.color, colored], by rw [here.up, above],
        by rw [here.left, leftLink, rootId_map zero],
        by rw [here.right, rightLink, rootId_map zero], ?_, ?_⟩
      · exact leftHypothesis inLeft (fun other member => nonzero other (Or.inl member))
          (fun other member => renamed other (Or.inl member))
      · exact rightHypothesis inRight (fun other member => nonzero other (Or.inr (Or.inr member)))
          (fun other member => renamed other (Or.inr (Or.inr member)))

namespace Store

/-- What `hashSwapRestore` leaves in an entry. -/
theorem hashSwapRestore_entries (store : Store Hash) {first : Id} (isLeft : Bool)
    (notUp : (store.entries first).up ≠ first) (notLeft : (store.entries first).left ≠ first)
    {id : Id} (present : id ≠ 0) :
    (store.hashSwapRestore first isLeft).entries id =
      { store.entries id with
        left := if id = (store.entries first).up ∧ isLeft then first else (store.entries id).left
        right := if id = (store.entries first).up ∧ ¬ isLeft then first
          else (store.entries id).right
        up := if id = (store.entries first).left ∨ id = (store.entries first).right then first
          else (store.entries id).up } := by
  obtain ⟨one, oneEq⟩ : Exists fun one : Store Hash => one =
      if (store.entries first).up = 0 then store
      else if isLeft then store.setChild .left (store.entries first).up first
      else store.setChild .right (store.entries first).up first := ⟨_, rfl⟩
  have oneFirst : one.entries first = store.entries first := by
    rw [oneEq]
    split
    · rfl
    · split <;> exact store.modify_ne (Ne.symm notUp) _
  have oneId : one.entries id = { store.entries id with
      left := if id = (store.entries first).up ∧ isLeft then first else (store.entries id).left
      right := if id = (store.entries first).up ∧ ¬ isLeft then first
        else (store.entries id).right } := by
    rw [oneEq]
    by_cases here : id = (store.entries first).up
    · rw [← here, if_neg present]
      cases isLeft <;> simp [setChild, Links.setChild]
    · split
      · simp [here]
      · cases isLeft <;> simp [here, setChild, modify_ne]
  obtain ⟨two, twoEq⟩ : Exists fun two : Store Hash => two =
      if (store.entries first).left = 0 then one else one.setUp (store.entries first).left first :=
    ⟨_, rfl⟩
  have twoFirst : two.entries first = store.entries first := by
    rw [twoEq, ← oneFirst]
    split
    · rfl
    · exact one.modify_ne (by rw [oneFirst]; exact Ne.symm notLeft) _
  have twoId : two.entries id = { one.entries id with
      up := if id = (store.entries first).left then first else (store.entries id).up } := by
    rw [twoEq]
    by_cases here : id = (store.entries first).left
    · rw [← here, if_neg present]
      simp [setUp]
    · split <;> simp [here, setUp, modify_ne, oneId]
  have unfolded : store.hashSwapRestore first isLeft =
      if (store.entries first).right = 0 then two else two.setUp (store.entries first).right first
      := by
    unfold hashSwapRestore
    simp only [← oneEq, oneFirst, ← twoEq, twoFirst]
  rw [unfolded]
  by_cases here : id = (store.entries first).right
  · rw [← here, if_neg present]
    simp [setUp, twoId, oneId]
  · split <;> simp [here, setUp, modify_ne, twoId, oneId]

end Store

/-- The side on which an entry stands, read off its parent. -/
theorem Linked.isLeftChild {store : Store Hash} {ids : List Id}
    (linked : Linked store.entries ids) {id : Id} (member : id ∈ ids) {up : Id} (above : up ∈ ids) :
    ((store.entries up).left = id ↔ up = (store.entries id).up ∧ store.isLeftChild id) ∧
      ((store.entries up).right = id ↔ up = (store.entries id).up ∧ ¬ store.isLeftChild id) := by
  have present := linked.present id member
  have upPresent := linked.present up above
  have below := linked.left up above
  have beside := linked.right up above
  have apart := linked.apart up above
  have upward := linked.up id member
  unfold Store.isLeftChild
  simp only [decide_eq_true_eq]
  constructor
  · constructor
    · rintro rfl
      have back := (below present).2
      rw [back]
      exact ⟨rfl, upPresent, rfl⟩
    · rintro ⟨rfl, -, left⟩
      exact left
  · constructor
    · rintro rfl
      have back := (beside present).2
      rw [back]
      exact ⟨rfl, fun left => apart (left.2 ▸ present) left.2⟩
    · rintro ⟨rfl, notLeft⟩
      rcases (upward upPresent).2 with left | right
      · exact absurd ⟨upPresent, left⟩ notLeft
      · exact right

namespace Store

/-- What the exchange has to leave behind. -/
structure Swapped (store next : Store Hash) (ids : List Id) (first second : Id) : Prop where
  renamed : forall id, id ∈ ids ->
    Renamed (Equiv.swap first second) (store.entries id)
      (next.entries (Equiv.swap first second id))
  sameKeys : store.SameKeys next
  root : next.hash_root = store.hash_root

theorem SameKeys.ite {store one two : Store Hash} {condition : Prop} [Decidable condition]
    (yes : store.SameKeys one) (no : store.SameKeys two) :
    store.SameKeys (if condition then one else two) := by
  split
  · exact yes
  · exact no

theorem SameKeys.setUpUnless {store one : Store Hash} {condition : Prop} [Decidable condition]
    {id up : Id} (same : store.SameKeys one) :
    store.SameKeys (if condition then one else one.setUp id up) :=
  same.ite (same.trans (sameKeys_setUp one id up))

theorem sameKeys_hashSwapRestore (store : Store Hash) (first : Id) (isLeft : Bool) :
    store.SameKeys (store.hashSwapRestore first isLeft) := by
  unfold hashSwapRestore
  apply SameKeys.setUpUnless
  apply SameKeys.setUpUnless
  apply (SameKeys.refl store).ite
  apply SameKeys.ite
  · exact sameKeys_setChild store .left _ first
  · exact sameKeys_setChild store .right _ first

theorem hashSwapRestore_hash_root (store : Store Hash) (first : Id) (isLeft : Bool) :
    (store.hashSwapRestore first isLeft).hash_root = store.hash_root := by
  unfold hashSwapRestore setUp setChild
  simp only [apply_ite Store.hash_root, modify_hash_root, ite_self]

end Store

/-- The children of an entry are those that are below it. -/
theorem Linked.up_iff {entries : Id -> Links Hash} {ids : List Id} (linked : Linked entries ids)
    {id up : Id} (member : id ∈ ids) (above : up ∈ ids) :
    (entries id).up = up ↔ id = (entries up).left ∨ id = (entries up).right := by
  have present := linked.present id member
  constructor
  · rintro rfl
    exact (linked.up id member (linked.present _ above)).2.imp Eq.symm Eq.symm
  · rintro (rfl | rfl)
    · exact (linked.left up above present).2
    · exact (linked.right up above present).2

/-- Other ids are not affected by the exchange of two. -/
theorem eq_swap_iff {first second id : Id} (notFirst : id ≠ first) (notSecond : id ≠ second)
    (other : Id) : id = Equiv.swap first second other ↔ id = other := by
  rw [Equiv.swap_apply_def]
  grind

/-- Once the two entries have each other's links, telling the neighbours
completes the exchange. -/
theorem finishSwap_swapped {store base : Store Hash} {ids : List Id}
    (linked : Linked store.entries ids) {first second : Id} (firstIn : first ∈ ids)
    (secondIn : second ∈ ids) (different : first ≠ second)
    (notAbove : (store.entries second).up ≠ first)
    (one : Renamed (Equiv.swap first second) (store.entries first) (base.entries second))
    (two : Renamed (Equiv.swap first second) (store.entries second) (base.entries first))
    (others : forall id, id ≠ first -> id ≠ second -> base.entries id = store.entries id)
    (sameKeys : store.SameKeys base) (root : base.hash_root = store.hash_root) :
    Exists fun next => Store.finishSwap first second (store.isLeftChild first)
      (store.isLeftChild second) base = .ok next ∧ Store.Swapped store next ids first second := by
  have oneColor := one.color
  have oneLeft := one.left
  have oneRight := one.right
  have oneUp := one.up
  have twoColor := two.color
  have twoLeft := two.left
  have twoRight := two.right
  have twoUp := two.up
  have oneSelf := linked.notSelf first firstIn
  have twoSelf := linked.notSelf second secondIn
  have firstPresent := linked.present first firstIn
  have secondPresent := linked.present second secondIn
  have oneAbove := linked.up_iff firstIn secondIn
  have twoAbove := linked.up_iff secondIn firstIn
  simp only [Equiv.swap_apply_def] at oneLeft oneRight oneUp twoLeft twoRight twoUp
  have middle := fun {id : Id} (present : id ≠ 0) =>
    base.hashSwapRestore_entries (store.isLeftChild second) (by grind : (base.entries first).up ≠ first)
      (by grind) present
  obtain ⟨step, stepEq⟩ : Exists fun step => step =
    base.hashSwapRestore first (store.isLeftChild second) := ⟨_, rfl⟩
  rw [← stepEq] at middle
  have middleSecond := middle secondPresent
  have middleFirst := middle firstPresent
  have final := fun {id : Id} (present : id ≠ 0) =>
    step.hashSwapRestore_entries (store.isLeftChild first)
      (by grind : (step.entries second).up ≠ second) (by grind) present
  obtain ⟨next, nextEq⟩ : Exists fun next => next =
    step.hashSwapRestore second (store.isLeftChild first) := ⟨_, rfl⟩
  rw [← nextEq] at final
  have finalSecond := final secondPresent
  have finalFirst := final firstPresent
  have stepSecond : (step.entries second).left = (base.entries second).left ∧
      (step.entries second).right = (base.entries second).right ∧
      (step.entries second).up = (base.entries second).up := by grind
  have leftOfOne := (linked.isLeftChild firstIn secondIn).1
  have rightOfOne := (linked.isLeftChild firstIn secondIn).2
  have leftOfTwo := (linked.isLeftChild secondIn firstIn).1
  have rightOfTwo := (linked.isLeftChild secondIn firstIn).2
  have atSecond : Renamed (Equiv.swap first second) (store.entries first) (next.entries second) := by
    refine ⟨by grind, ?_, ?_, ?_⟩ <;> simp only [Equiv.swap_apply_def] <;> grind
  have atFirst : Renamed (Equiv.swap first second) (store.entries second) (next.entries first) := by
    refine ⟨by grind, ?_, ?_, ?_⟩ <;> simp only [Equiv.swap_apply_def] <;> grind
  refine ⟨next, ?_, ?_, ?_, ?_⟩
  · have firstLinked : next.selfReference first = false := by
      unfold Store.selfReference
      rw [atFirst.left, atFirst.right, atFirst.up]
      simp only [Equiv.swap_apply_def]
      grind
    have secondLinked : next.selfReference second = false := by
      unfold Store.selfReference
      rw [atSecond.left, atSecond.right, atSecond.up]
      simp only [Equiv.swap_apply_def]
      grind
    unfold Store.finishSwap
    simp only [← stepEq, ← nextEq, firstLinked, secondLinked, Bool.false_eq_true, if_false]
  · intro id member
    by_cases atOne : id = first
    · rw [atOne, Equiv.swap_apply_left]
      exact atSecond
    · by_cases atTwo : id = second
      · rw [atTwo, Equiv.swap_apply_right]
        exact atFirst
      · have present := linked.present id member
        have here := others id atOne atTwo
        have middleHere := middle present
        have finalHere := final present
        have leftOne := (linked.isLeftChild firstIn member).1
        have rightOne := (linked.isLeftChild firstIn member).2
        have leftTwo := (linked.isLeftChild secondIn member).1
        have rightTwo := (linked.isLeftChild secondIn member).2
        have belowOne := linked.up_iff member firstIn
        have belowTwo := linked.up_iff member secondIn
        rw [Equiv.swap_apply_of_ne_of_ne atOne atTwo]
        have underFirst : id = (base.entries first).left ∨ id = (base.entries first).right ↔
            (store.entries id).up = second := by
          rw [two.left, two.right, eq_swap_iff atOne atTwo, eq_swap_iff atOne atTwo, ← belowTwo]
        have underSecond : id = (base.entries second).left ∨ id = (base.entries second).right ↔
            (store.entries id).up = first := by
          rw [one.left, one.right, eq_swap_iff atOne atTwo, eq_swap_iff atOne atTwo, ← belowOne]
        refine ⟨by grind, ?_, ?_, ?_⟩
        · simp only [Equiv.swap_apply_def, finalHere, middleHere, here, stepSecond]
          grind
        · simp only [Equiv.swap_apply_def, finalHere, middleHere, here, stepSecond]
          grind
        · simp only [Equiv.swap_apply_def, finalHere, middleHere, here, stepSecond, underFirst,
            underSecond]
  · rw [nextEq, stepEq]
    exact sameKeys.trans ((base.sameKeys_hashSwapRestore _ _).trans
      (Store.sameKeys_hashSwapRestore _ _ _))
  · rw [nextEq, stepEq, Store.hashSwapRestore_hash_root, Store.hashSwapRestore_hash_root, root]

/-- The exchange succeeds for two entries of a tree, of which the first is not
the parent of the second. -/
theorem hashSwap_swapped {store : Store Hash} {ids : List Id} (linked : Linked store.entries ids)
    {first second : Id} (firstIn : first ∈ ids) (secondIn : second ∈ ids)
    (different : first ≠ second) (notAbove : (store.entries second).up ≠ first) (fuel : Nat) :
    Exists fun next => Store.hashSwap (fuel + 1) first second store = .ok next ∧
      Store.Swapped store next ids first second := by
  have oneSelf := linked.notSelf first firstIn
  have twoSelf := linked.notSelf second secondIn
  have oneApart := linked.apart first firstIn
  have twoApart := linked.apart second secondIn
  have firstPresent := linked.present first firstIn
  have oneAbove := linked.up_iff firstIn secondIn
  have twoAbove := linked.up_iff secondIn firstIn
  have oneLeft := (linked.isLeftChild firstIn secondIn).1
  have firstLinked : store.selfReference first = false := by
    unfold Store.selfReference
    simpa using oneSelf
  have secondLinked : store.selfReference second = false := by
    unfold Store.selfReference
    simpa using twoSelf
  obtain ⟨painted, paintedEq⟩ : Exists fun painted => painted =
    (store.setColor first (store.entries second).color).setColor second
      (store.entries first).color := ⟨_, rfl⟩
  have paintedFirst : painted.entries first =
      { store.entries first with color := (store.entries second).color } := by
    rw [paintedEq]
    exact (Store.modify_ne _ different _).trans (Store.modify_same _ _ _)
  have paintedSecond : painted.entries second =
      { store.entries second with color := (store.entries first).color } := by
    rw [paintedEq]
    refine (Store.modify_same _ _ _).trans ?_
    rw [Store.setColor, Store.modify_ne _ different.symm]
  have paintedElse : forall id, id ≠ first -> id ≠ second ->
      painted.entries id = store.entries id := by
    intro id notFirst notSecond
    rw [paintedEq]
    exact (Store.modify_ne _ notSecond _).trans (Store.modify_ne _ notFirst _)
  have paintedKeys : store.SameKeys painted := by
    rw [paintedEq]
    exact (store.sameKeys_setColor _ _).trans (Store.sameKeys_setColor _ _ _)
  have paintedRoot : painted.hash_root = store.hash_root := by
    rw [paintedEq]
    rfl
  -- Both cases exchange the links of the two and leave the rest to `finishSwap`.
  have exchange : forall changeFirst changeSecond : Links Hash -> Links Hash,
      Renamed (Equiv.swap first second) (store.entries first)
        (changeSecond (painted.entries second)) ->
      Renamed (Equiv.swap first second) (store.entries second)
        (changeFirst (painted.entries first)) ->
      painted.SameKeys (painted.modify first changeFirst) ->
      (painted.modify first changeFirst).SameKeys
        ((painted.modify first changeFirst).modify second changeSecond) ->
      Exists fun next => Store.finishSwap first second (store.isLeftChild first)
        (store.isLeftChild second)
          ((painted.modify first changeFirst).modify second changeSecond) = .ok next ∧
        Store.Swapped store next ids first second := by
    intro changeFirst changeSecond one two firstKeys secondKeys
    refine finishSwap_swapped linked firstIn secondIn different notAbove ?_ ?_ ?_
      (paintedKeys.trans (firstKeys.trans secondKeys)) paintedRoot
    · rw [Store.modify_same, Store.modify_ne _ different.symm]
      exact one
    · rw [Store.modify_ne _ different, Store.modify_same]
      exact two
    · intro id notFirst notSecond
      rw [Store.modify_ne _ notSecond, Store.modify_ne _ notFirst,
        paintedElse id notFirst notSecond]
  rw [Store.hashSwap]
  simp only [firstLinked, secondLinked, Bool.false_eq_true, if_false, if_neg notAbove,
    ← paintedEq]
  by_cases adjacent : (store.entries first).up = second
  · rw [if_pos adjacent]
    refine exchange _ _ ⟨?_, ?_, ?_, ?_⟩ ⟨?_, ?_, ?_, ?_⟩ ?_ ?_
    · rw [paintedSecond]
    · simp only [Equiv.swap_apply_def]
      grind
    · simp only [Equiv.swap_apply_def]
      grind
    · rw [paintedSecond, adjacent, Equiv.swap_apply_right]
    · rw [paintedFirst]
      split <;> rfl
    · simp only [paintedFirst, Equiv.swap_apply_def]
      grind
    · simp only [paintedFirst, Equiv.swap_apply_def]
      grind
    · simp only [paintedFirst, Equiv.swap_apply_def]
      grind
    · apply Store.sameKeys_modify <;> split <;> rfl
    · exact Store.sameKeys_modify _ _ rfl rfl rfl
  · have notOne : ¬ ((store.entries first).left = second ∨ (store.entries first).right = second) := by
      grind
    have notTwo : ¬ ((store.entries second).left = first ∨ (store.entries second).right = first) := by
      grind
    rw [if_neg adjacent, if_neg notOne, if_neg notTwo]
    refine exchange _ _ ⟨?_, ?_, ?_, ?_⟩ ⟨?_, ?_, ?_, ?_⟩
      (Store.sameKeys_modify _ _ rfl rfl rfl) (Store.sameKeys_modify _ _ rfl rfl rfl)
    · rw [paintedSecond]
    · simp only [Equiv.swap_apply_def]
      grind
    · simp only [Equiv.swap_apply_def]
      grind
    · simp only [Equiv.swap_apply_def]
      grind
    · rw [paintedFirst]
    · simp only [Equiv.swap_apply_def]
      grind
    · simp only [Equiv.swap_apply_def]
      grind
    · simp only [Equiv.swap_apply_def]
      grind

/-- Only an exchange with the own parent takes a second call. -/
theorem hashSwap_fuel {store : Store Hash} {first second : Id}
    (notAbove : (store.entries second).up ≠ first) (fuel : Nat) :
    Store.hashSwap (fuel + 1) first second store = Store.hashSwap 1 first second store := by
  rw [Store.hashSwap, Store.hashSwap, if_neg notAbove, if_neg notAbove]

/-- Afterwards the entries hold the tree with the two names exchanged. -/
theorem Store.Swapped.isTree {store next : Store Hash} {tree : RbTree Id} {first second : Id}
    (swapped : Store.Swapped store next tree.inorder first second)
    (isTree : IsTree store.entries 0 tree) (firstIn : first ∈ tree.inorder)
    (secondIn : second ∈ tree.inorder) :
    IsTree next.entries 0 (tree.map (Equiv.swap first second)) := by
  have firstPresent := isTree.ne_zero firstIn
  have secondPresent := isTree.ne_zero secondIn
  have zero : Equiv.swap first second 0 = 0 :=
    Equiv.swap_apply_of_ne_of_ne firstPresent.symm secondPresent.symm
  have renamed := isTree.map zero (fun id member same => ?_) swapped.renamed
  · rwa [zero] at renamed
  · exact isTree.ne_zero member ((Equiv.swap first second).injective (same.trans zero.symm))

end HashIndex
end Mcachefs
