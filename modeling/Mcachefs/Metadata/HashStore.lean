import Mcachefs.Library.RedBlack
import Mathlib.Order.Lattice
import Mathlib.Logic.Function.Basic
import Mathlib.Data.List.Nodup

namespace Mcachefs
namespace HashIndex

open Library

/-!
# The hash index in the metadata store

Every metadata entry is a node of a red-black tree ordered by the hash of its
full path, or hangs off such a node in a list of entries with the same hash.
All links are entry ids, and `0` is the null id.

The functions below follow the source on the link fields.  Where the source
has a function for either side, there is one definition with a side and the
two functions are its instances.  How wide a `hash_t` is depends on a
compile-time choice; the functions only compare hashes.
-/

/-- `mcachefs_metadata_id`. -/
abbrev Id := Nat

/-- The fields of `struct mcachefs_metadata_t` that make up the index. -/
structure Links (Hash : Type) where
  hash : Hash
  left : Id
  right : Id
  up : Id
  color : Color
  collision_next : Id
  collision_previous : Id
  deriving DecidableEq, Repr

/-- The metafile: its entries, and the root in its head. -/
structure Store (Hash : Type) where
  entries : Id -> Links Hash
  hash_root : Id

/-- The calls of `Bug` in the functions of the index, a null pointer, and the
end of the fuel that stands for a loop that goes on. -/
inductive Fault
  | corruptedEntry
  | secondIsChildOfFirst
  | firstIsChildOfSecond
  | deletedTheRoot
  | noUpButNoRoot
  | dot
  | noPreviousNoNext
  | noUpNotRoot
  | nextHasLeft
  | nextHasRight
  | nullPointer
  | fuel
  deriving DecidableEq, Repr

variable {Hash : Type}

/-- The child on one side. -/
def Links.child (links : Links Hash) : Side -> Id
  | .left => links.left
  | .right => links.right

/-- The same entry with another child on one side. -/
def Links.setChild (links : Links Hash) (side : Side) (id : Id) : Links Hash :=
  match side with
  | .left => { links with left := id }
  | .right => { links with right := id }

namespace Store

/-- Change the links of one entry. -/
def modify (store : Store Hash) (id : Id) (change : Links Hash -> Links Hash) : Store Hash :=
  { store with entries := Function.update store.entries id (change (store.entries id)) }

def setUp (store : Store Hash) (id up : Id) : Store Hash :=
  store.modify id fun links => { links with up := up }

def setColor (store : Store Hash) (id : Id) (color : Color) : Store Hash :=
  store.modify id fun links => { links with color := color }

def setChild (store : Store Hash) (side : Side) (id child : Id) : Store Hash :=
  store.modify id fun links => links.setChild side child

/-- `mcachefs_metadata_set_hash_root`. -/
def setHashRoot (store : Store Hash) (id : Id) : Store Hash :=
  { store with hash_root := id }

/-- Where `old` is linked from `up`, or at the root, put `new`. -/
def replaceChild (store : Store Hash) (up old new : Id) : Store Hash :=
  if up = 0 then store.setHashRoot new
  else if old = (store.entries up).left then store.setChild .left up new
  else store.setChild .right up new

/-- `mcachefs_metadata_rotate_left` and `mcachefs_metadata_rotate_right`: the
child on the other side takes the place of `x`. -/
def rotate (side : Side) (x : Id) (store : Store Hash) : Store Hash :=
  let y := (store.entries x).child side.other
  if y = 0 then store
  else
    let inner := (store.entries y).child side
    let store := store.setChild side.other x inner
    let store := if inner = 0 then store else store.setUp inner x
    let up := (store.entries x).up
    let store := store.setUp y up
    let store := store.replaceChild up x y
    let store := store.setChild side y x
    store.setUp x y

/-- `mcachefs_metadata_rotate_left`. -/
def rotateLeft (x : Id) (store : Store Hash) : Store Hash :=
  store.rotate .left x

/-- `mcachefs_metadata_rotate_right`. -/
def rotateRight (x : Id) (store : Store Hash) : Store Hash :=
  store.rotate .right x

/-- `mcachefs_metadata_brother`; `0` for `NULL`. -/
def brother (store : Store Hash) (id : Id) : Id :=
  let up := (store.entries id).up
  if up = 0 then 0
  else if (store.entries up).left = id then (store.entries up).right
  else (store.entries up).left

end Store

/-! ## Stores that hold a tree -/

/-- The id at the root of a tree, `0` for a leaf. -/
def rootId : RbTree Id -> Id
  | .leaf => 0
  | .node _ _ id _ => id

/-- The id above a place. -/
def upId : List (Frame Id) -> Id
  | [] => 0
  | frame :: _ => frame.value

/-- The entries hold this tree, below `up`. -/
def IsTree (entries : Id -> Links Hash) : Id -> RbTree Id -> Prop
  | _, .leaf => True
  | up, .node color left id right =>
      id ≠ 0 ∧ (entries id).color = color ∧ (entries id).up = up ∧
        (entries id).left = rootId left ∧ (entries id).right = rootId right ∧
        IsTree entries id left ∧ IsTree entries id right

/-- The entries hold what surrounds a place in which `hole` is linked. -/
def IsPlace (entries : Id -> Links Hash) : Id -> List (Frame Id) -> Prop
  | _, [] => True
  | hole, frame :: outer =>
      frame.value ≠ 0 ∧ (entries frame.value).color = frame.color ∧
        (entries frame.value).up = upId outer ∧
        (entries frame.value).child frame.side = hole ∧
        (entries frame.value).child frame.side.other = rootId frame.sibling ∧
        IsTree entries frame.value frame.sibling ∧ IsPlace entries frame.value outer

theorem isTree_node {entries : Id -> Links Hash} {up : Id} {side : Side} {color : Color}
    {near far : RbTree Id} {id : Id} :
    IsTree entries up (side.node color near id far) ↔
      id ≠ 0 ∧ (entries id).color = color ∧ (entries id).up = up ∧
        (entries id).child side = rootId near ∧ (entries id).child side.other = rootId far ∧
        IsTree entries id near ∧ IsTree entries id far := by
  cases side with
  | left => exact Iff.rfl
  | right =>
      simp only [Side.node, IsTree, Links.child, Side.other]
      tauto

@[simp] theorem rootId_node (side : Side) (color : Color) (near : RbTree Id) (id : Id)
    (far : RbTree Id) : rootId (side.node color near id far) = id := by
  cases side <;> rfl

theorem rootId_mem {tree : RbTree Id} (present : rootId tree ≠ 0) :
    rootId tree ∈ tree.inorder := by
  cases tree with
  | leaf => exact absurd rfl present
  | node color left id right => exact List.mem_append_right _ List.mem_cons_self

/-- A whole tree is a subtree and its surroundings. -/
theorem isTree_plug {entries : Id -> Links Hash} {tree : RbTree Id} {frames : List (Frame Id)} :
    IsTree entries 0 (plug tree frames) ↔
      IsTree entries (upId frames) tree ∧ IsPlace entries (rootId tree) frames := by
  induction frames generalizing tree with
  | nil => simp [plug, upId, IsPlace]
  | cons frame outer inductionHypothesis =>
      rw [plug, inductionHypothesis, Frame.fill, isTree_node, rootId_node]
      simp only [IsPlace, upId]
      tauto

theorem IsTree.ne_zero {entries : Id -> Links Hash} {up : Id} {tree : RbTree Id}
    (isTree : IsTree entries up tree) {id : Id} (member : id ∈ tree.inorder) : id ≠ 0 := by
  induction tree generalizing up with
  | leaf => exact absurd member List.not_mem_nil
  | node color left value right leftHypothesis rightHypothesis =>
      obtain ⟨nonzero, -, -, -, -, inLeft, inRight⟩ := isTree
      rcases List.mem_append.mp member with before | rest
      · exact leftHypothesis inLeft before
      · rcases List.mem_cons.mp rest with same | after
        · exact same ▸ nonzero
        · exact rightHypothesis inRight after

/-- Only a leaf has no id at its root. -/
theorem IsTree.leaf_of_root {entries : Id -> Links Hash} {up : Id} {tree : RbTree Id}
    (isTree : IsTree entries up tree) (none : rootId tree = 0) : tree = .leaf := by
  cases tree with
  | leaf => rfl
  | node color left id right => exact absurd none isTree.1

/-- Only the entries of a tree matter. -/
theorem IsTree.congr {entries other : Id -> Links Hash} {up : Id} {tree : RbTree Id}
    (isTree : IsTree entries up tree)
    (same : forall id, id ∈ tree.inorder -> other id = entries id) : IsTree other up tree := by
  induction tree generalizing up with
  | leaf => trivial
  | node color left value right leftHypothesis rightHypothesis =>
      obtain ⟨nonzero, colored, above, leftLink, rightLink, inLeft, inRight⟩ := isTree
      have here := same value (by simp [RbTree.inorder])
      refine ⟨nonzero, by rw [here, colored], by rw [here, above], by rw [here, leftLink],
        by rw [here, rightLink], leftHypothesis inLeft ?_, rightHypothesis inRight ?_⟩
      · exact fun id member => same id (List.mem_append_left _ member)
      · exact fun id member => same id
          (List.mem_append_right _ (List.mem_cons_of_mem value member))

/-- A tree may be moved below another entry by changing the `up` of its root. -/
theorem IsTree.moved {entries other : Id -> Links Hash} {up above : Id} {tree : RbTree Id}
    (isTree : IsTree entries up tree) (distinct : tree.inorder.Nodup)
    (root : rootId tree ≠ 0 -> other (rootId tree) = { entries (rootId tree) with up := above })
    (same : forall id, id ∈ tree.inorder -> id ≠ rootId tree -> other id = entries id) :
    IsTree other above tree := by
  cases tree with
  | leaf => trivial
  | node color left value right =>
      obtain ⟨nonzero, colored, -, leftLink, rightLink, inLeft, inRight⟩ := isTree
      have here := root nonzero
      simp only [rootId] at here same
      simp only [RbTree.inorder, List.nodup_append, List.nodup_cons, List.mem_cons] at distinct
      refine ⟨nonzero, by rw [here]; exact colored, by rw [here], by rw [here]; exact leftLink,
        by rw [here]; exact rightLink, inLeft.congr ?_, inRight.congr ?_⟩
      · intro id member
        exact same id (List.mem_append_left _ member)
          (distinct.2.2 id member value (Or.inl rfl))
      · intro id member
        exact same id (List.mem_append_right _ (List.mem_cons_of_mem value member))
          (fun equal => distinct.2.1.1 (equal ▸ member))

theorem IsPlace.ne_zero {entries : Id -> Links Hash} {hole : Id} {frames : List (Frame Id)}
    (isPlace : IsPlace entries hole frames) {id : Id} (member : id ∈ around frames) : id ≠ 0 := by
  induction frames generalizing hole with
  | nil => exact absurd member List.not_mem_nil
  | cons frame outer inductionHypothesis =>
      obtain ⟨nonzero, -, -, -, -, isTree, outside⟩ := isPlace
      rcases List.mem_cons.mp member with same | rest
      · exact same ▸ nonzero
      · exact (List.mem_append.mp rest).elim isTree.ne_zero (inductionHypothesis outside)

/-- Only the entries around a place matter. -/
theorem IsPlace.congr {entries other : Id -> Links Hash} {hole : Id} {frames : List (Frame Id)}
    (isPlace : IsPlace entries hole frames)
    (same : forall id, id ∈ around frames -> other id = entries id) :
    IsPlace other hole frames := by
  induction frames generalizing hole with
  | nil => trivial
  | cons frame outer inductionHypothesis =>
      obtain ⟨nonzero, colored, above, link, sibling, isTree, outside⟩ := isPlace
      have here := same frame.value List.mem_cons_self
      refine ⟨nonzero, by rw [here, colored], by rw [here, above], by rw [here, link],
        by rw [here, sibling], isTree.congr ?_, inductionHypothesis outside ?_⟩
      · exact fun id member => same id (List.mem_cons_of_mem _ (List.mem_append_left _ member))
      · exact fun id member => same id (List.mem_cons_of_mem _ (List.mem_append_right _ member))

theorem upId_mem {frames : List (Frame Id)} (present : upId frames ≠ 0) :
    upId frames ∈ around frames := by
  cases frames with
  | nil => exact absurd rfl present
  | cons frame outer => exact List.mem_cons_self

namespace Store

@[simp] theorem modify_same (store : Store Hash) (id : Id) (change : Links Hash -> Links Hash) :
    (store.modify id change).entries id = change (store.entries id) :=
  Function.update_self ..

theorem modify_ne (store : Store Hash) {id other : Id} (different : other ≠ id)
    (change : Links Hash -> Links Hash) :
    (store.modify id change).entries other = store.entries other :=
  Function.update_of_ne different ..

@[simp] theorem modify_hash_root (store : Store Hash) (id : Id)
    (change : Links Hash -> Links Hash) : (store.modify id change).hash_root = store.hash_root :=
  rfl

theorem replaceChild_hash_root (store : Store Hash) (up old new : Id) :
    (store.replaceChild up old new).hash_root = if up = 0 then new else store.hash_root := by
  unfold replaceChild
  split
  · rfl
  · split <;> rfl

theorem replaceChild_ne (store : Store Hash) {up other : Id} (different : other ≠ up)
    (old new : Id) : (store.replaceChild up old new).entries other = store.entries other := by
  unfold replaceChild
  split
  · rfl
  · split
    · exact store.modify_ne different _
    · exact store.modify_ne different _

end Store

/-- Where the entry is linked from is the side of the innermost frame. -/
theorem IsPlace.replaceChild_eq {store : Store Hash} {old : Id} {frame : Frame Id}
    {outer : List (Frame Id)} (isPlace : IsPlace store.entries old (frame :: outer))
    (nonzero : old ≠ 0) (outside : old ∉ around (frame :: outer)) (new : Id) :
    store.replaceChild frame.value old new = store.setChild frame.side frame.value new := by
  obtain ⟨present, -, -, link, sibling, -, -⟩ := isPlace
  simp only [around, List.mem_cons, List.mem_append, not_or] at outside
  unfold Store.replaceChild
  rw [if_neg present]
  cases side : frame.side with
  | left =>
      rw [side] at link
      have stands : old = (store.entries frame.value).left := link.symm
      rw [if_pos stands]
  | right =>
      rw [side] at sibling
      have other : old ≠ (store.entries frame.value).left := by
        intro same
        have root : rootId frame.sibling = old := sibling.symm.trans same.symm
        exact outside.2.1 (root ▸ rootId_mem (root ▸ nonzero))
      rw [if_neg other]

/-- The new child stands where the old one stood. -/
theorem IsPlace.setChild {store : Store Hash} {old new : Id} {frame : Frame Id}
    {outer : List (Frame Id)} (isPlace : IsPlace store.entries old (frame :: outer))
    (distinct : (around (frame :: outer)).Nodup) :
    IsPlace (store.setChild frame.side frame.value new).entries new (frame :: outer) := by
  obtain ⟨present, colored, above, link, sibling, isTree, outerPlace⟩ := isPlace
  simp only [around, List.nodup_cons, List.mem_append, not_or] at distinct
  have changed : (store.setChild frame.side frame.value new).entries frame.value =
      (store.entries frame.value).setChild frame.side new := store.modify_same _ _
  have kept : forall id, id ∈ frame.sibling.inorder ∨ id ∈ around outer ->
      (store.setChild frame.side frame.value new).entries id = store.entries id := by
    intro id member
    apply store.modify_ne
    rintro rfl
    exact member.elim distinct.1.1 distinct.1.2
  refine ⟨present, ?_, ?_, ?_, ?_, isTree.congr (fun id member => kept id (Or.inl member)),
    outerPlace.congr (fun id member => kept id (Or.inr member))⟩
  all_goals simp only [changed]
  · cases frame.side <;> exact colored
  · cases frame.side <;> exact above
  · cases frame.side <;> rfl
  · cases side : frame.side <;> rw [side] at sibling <;> exact sibling

theorem IsPlace.replaceChild {store : Store Hash} {old new : Id} {frames : List (Frame Id)}
    (isPlace : IsPlace store.entries old frames) (nonzero : old ≠ 0)
    (distinct : (around frames).Nodup) (outside : old ∉ around frames) :
    IsPlace (store.replaceChild (upId frames) old new).entries new frames := by
  cases frames with
  | nil => trivial
  | cons frame outer =>
      rw [upId, isPlace.replaceChild_eq nonzero outside]
      exact isPlace.setChild distinct

/-- The store holds a tree: its entries are linked to it, and the head knows
its root. -/
structure Holds (store : Store Hash) (tree : RbTree Id) : Prop where
  isTree : IsTree store.entries 0 tree
  distinct : tree.inorder.Nodup
  root : store.hash_root = rootId tree

/-- What a store that holds a tree says of one node and its surroundings. -/
theorem Holds.split {store : Store Hash} {side : Side} {color : Color} {near far : RbTree Id}
    {id : Id} {frames : List (Frame Id)}
    (holds : Holds store (plug (side.node color near id far) frames)) :
    IsTree store.entries (upId frames) (side.node color near id far) ∧
      IsPlace store.entries id frames ∧
      (id :: (near.inorder ++ far.inorder) ++ around frames).Nodup := by
  obtain ⟨isTree, isPlace⟩ := isTree_plug.mp holds.isTree
  rw [rootId_node] at isPlace
  refine ⟨isTree, isPlace, ?_⟩
  exact (((plug_perm _ _).trans ((side.node_perm color near id far).append_right _)).nodup_iff).mp
    holds.distinct

theorem rootId_plug_cons (tree : RbTree Id) (frame : Frame Id) (frames : List (Frame Id)) :
    rootId (plug tree (frame :: frames)) = rootId (plug (frame.fill .leaf) frames) := by
  induction frames generalizing tree frame with
  | nil => simp [plug, Frame.fill]
  | cons next frames inductionHypothesis =>
      rw [plug, inductionHypothesis]
      exact (inductionHypothesis (frame.fill .leaf) next).symm

/-- A rotation moves the far child above its parent. -/
theorem Holds.rotate {store : Store Hash} {side : Side} {color childColor : Color}
    {near inner outer : RbTree Id} {x y : Id} {frames : List (Frame Id)}
    (holds : Holds store
      (plug (side.node color near x (side.node childColor inner y outer)) frames)) :
    Holds (store.rotate side x)
      (plug (side.node childColor (side.node color near x inner) y outer) frames) := by
  obtain ⟨isTree, isPlace, distinct⟩ := holds.split
  obtain ⟨xPresent, xColor, xUp, xNear, xFar, nearTree, farTree⟩ := isTree_node.mp isTree
  obtain ⟨yPresent, yColor, yUp, yNear, yFar, innerTree, outerTree⟩ := isTree_node.mp farTree
  rw [rootId_node] at xFar
  have permuted := ((side.node_perm childColor inner y outer).append_left near.inorder).cons x
    |>.append_right (around frames)
  rw [permuted.nodup_iff] at distinct
  have innerRoot : rootId inner ≠ 0 -> rootId inner ∈ inner.inorder := rootId_mem
  have aboveRoot : upId frames ≠ 0 -> upId frames ∈ around frames := upId_mem
  have zeroInner : 0 ∉ inner.inorder := fun member => innerTree.ne_zero member rfl
  -- What each changed entry is different from.
  have xy : x ≠ y := by
    rintro rfl
    simp at distinct
  have xInner : x ≠ rootId inner := by grind
  have yInner : y ≠ rootId inner := by grind
  have xAbove : x ≠ upId frames := by grind
  have yAbove : y ≠ upId frames := by grind
  have innerAbove : rootId inner ≠ 0 -> rootId inner ≠ upId frames := by grind
  have apart : forall id, id ∈ near.inorder ∨ id ∈ outer.inorder ∨ id ∈ around frames ->
      id ≠ x ∧ id ≠ y ∧ id ≠ rootId inner := by
    intro id member
    have present : id ≠ 0 :=
      member.elim nearTree.ne_zero (fun rest => rest.elim outerTree.ne_zero isPlace.ne_zero)
    grind
  have innerDistinct : inner.inorder.Nodup := by grind
  have aroundDistinct : (around frames).Nodup := by grind
  have xOutside : x ∉ around frames := by grind
  have yOutside : y ∉ around frames := by grind
  have xNotInner : x ∉ inner.inorder := by grind
  have yNotInner : y ∉ inner.inorder := by grind
  -- The state after the first two assignments, which concern `x` and `inner`.
  obtain ⟨base, baseEq⟩ : Exists fun base : Store Hash => base =
      if rootId inner = 0 then store.setChild side.other x (rootId inner)
      else (store.setChild side.other x (rootId inner)).setUp (rootId inner) x := ⟨_, rfl⟩
  have baseX : base.entries x = (store.entries x).setChild side.other (rootId inner) := by
    rw [baseEq]
    split
    · exact store.modify_same x _
    · exact ((store.setChild side.other x (rootId inner)).modify_ne xInner _).trans
        (store.modify_same x _)
  have baseInner : rootId inner ≠ 0 -> base.entries (rootId inner) =
      { store.entries (rootId inner) with up := x } := by
    intro present
    rw [baseEq, if_neg present]
    have unchanged : (store.setChild side.other x (rootId inner)).entries (rootId inner) =
        store.entries (rootId inner) := store.modify_ne xInner.symm _
    exact (Store.modify_same _ _ _).trans (by rw [unchanged])
  have baseElse : forall id, id ≠ x -> id ≠ rootId inner ->
      base.entries id = store.entries id := by
    intro id notX notInner
    rw [baseEq]
    split
    · exact store.modify_ne notX _
    · exact ((store.setChild side.other x (rootId inner)).modify_ne notInner _).trans
        (store.modify_ne notX _)
  have baseXUp : (base.entries x).up = upId frames := by
    rw [baseX, ← xUp]
    cases side <;> rfl
  have unfolded : store.rotate side x =
      ((((base.setUp y (upId frames)).replaceChild (upId frames) x y).setChild side y x).setUp
        x y) := by
    unfold Store.rotate
    simp only [xFar, yNear, if_neg yPresent]
    rw [← baseEq, baseXUp]
  -- The parent's link, and then the links of `x` and `y` themselves.
  have placed : IsPlace ((base.setUp y (upId frames)).replaceChild (upId frames) x y).entries y
      frames := by
    refine IsPlace.replaceChild (isPlace.congr fun id member => ?_) xPresent aroundDistinct xOutside
    obtain ⟨notX, notY, notInner⟩ := apart id (Or.inr (Or.inr member))
    exact (base.modify_ne notY _).trans (baseElse id notX notInner)
  have finalX : (store.rotate side x).entries x =
      { (store.entries x).setChild side.other (rootId inner) with up := y } := by
    rw [unfolded]
    refine (Store.modify_same _ _ _).trans ?_
    rw [Store.setChild, Store.modify_ne _ xy, Store.replaceChild_ne _ xAbove, Store.setUp,
      Store.modify_ne _ xy, baseX]
  have finalY : (store.rotate side x).entries y =
      { store.entries y with up := upId frames }.setChild side x := by
    rw [unfolded]
    refine (Store.modify_ne _ xy.symm _).trans ((Store.modify_same _ _ _).trans ?_)
    rw [Store.replaceChild_ne _ yAbove, Store.setUp, Store.modify_same,
      baseElse y xy.symm yInner]
  have finalElse : forall id, id ≠ x -> id ≠ y -> id ≠ upId frames ->
      (store.rotate side x).entries id = base.entries id := by
    intro id notX notY notAbove
    rw [unfolded]
    exact (Store.modify_ne _ notX _).trans ((Store.modify_ne _ notY _).trans
      ((Store.replaceChild_ne _ notAbove _ _).trans (Store.modify_ne _ notY _)))
  have finalPlace : IsPlace (store.rotate side x).entries y frames := by
    refine placed.congr fun id member => ?_
    rw [unfolded]
    have notX : id ≠ x := fun same => xOutside (same ▸ member)
    have notY : id ≠ y := fun same => yOutside (same ▸ member)
    exact (Store.modify_ne _ notX _).trans (Store.modify_ne _ notY _)
  have belowAbove : forall id, id ∈ near.inorder ∨ id ∈ outer.inorder ∨ id ∈ inner.inorder ->
      id ≠ upId frames := by
    intro id member
    have present : id ≠ 0 :=
      member.elim nearTree.ne_zero (fun rest => rest.elim outerTree.ne_zero innerTree.ne_zero)
    grind
  have unmoved : forall id, id ∈ near.inorder ∨ id ∈ outer.inorder ->
      (store.rotate side x).entries id = store.entries id := by
    intro id member
    obtain ⟨notX, notY, notInner⟩ := apart id (member.imp_right Or.inl)
    rw [finalElse id notX notY (belowAbove id (member.imp_right Or.inl)),
      baseElse id notX notInner]
  refine ⟨isTree_plug.mpr ⟨isTree_node.mpr ?_, by rwa [rootId_node]⟩, ?_, ?_⟩
  · refine ⟨yPresent, ?_, ?_, ?_, ?_, isTree_node.mpr ⟨xPresent, ?_, ?_, ?_, ?_, ?_, ?_⟩, ?_⟩
    · rw [finalY]
      cases side <;> exact yColor
    · rw [finalY]
      cases side <;> rfl
    · rw [finalY, rootId_node]
      cases side <;> rfl
    · rw [finalY]
      cases side <;> exact yFar
    · rw [finalX]
      cases side <;> exact xColor
    · rw [finalX]
    · rw [finalX]
      cases side <;> exact xNear
    · rw [finalX]
      cases side <;> rfl
    · exact nearTree.congr fun id member => unmoved id (Or.inl member)
    · refine innerTree.moved innerDistinct (fun present => ?_) (fun id member notRoot => ?_)
      · rw [finalElse _ xInner.symm yInner.symm (innerAbove present), baseInner present]
      · have notX : id ≠ x := fun same => xNotInner (same ▸ member)
        have notY : id ≠ y := fun same => yNotInner (same ▸ member)
        rw [finalElse id notX notY (belowAbove id (Or.inr (Or.inr member))),
          baseElse id notX notRoot]
    · exact outerTree.congr fun id member => unmoved id (Or.inr member)
  · have order : (plug (side.node childColor (side.node color near x inner) y outer)
        frames).inorder = (plug (side.node color near x (side.node childColor inner y outer))
        frames).inorder := by
      cases side <;> simp [Side.node, RbTree.inorder]
    rw [order]
    exact holds.distinct
  · have roots : (store.rotate side x).hash_root =
        if upId frames = 0 then y else store.hash_root := by
      have baseRoot : base.hash_root = store.hash_root := by
        rw [baseEq]
        split <;> rfl
      rw [unfolded, ← baseRoot]
      exact Store.replaceChild_hash_root _ _ _ _
    rw [roots, holds.root]
    cases frames with
    | nil => simp [upId, plug]
    | cons frame frames =>
        have present : upId (frame :: frames) ≠ 0 := isPlace.1
        rw [if_neg present, rootId_plug_cons, ← rootId_plug_cons]

/-- Painting a node. -/
theorem Holds.setColor {store : Store Hash} {side : Side} {color : Color}
    {near far : RbTree Id} {id : Id} {frames : List (Frame Id)}
    (holds : Holds store (plug (side.node color near id far) frames)) (paint : Color) :
    Holds (store.setColor id paint) (plug (side.node paint near id far) frames) := by
  obtain ⟨isTree, isPlace, distinct⟩ := holds.split
  obtain ⟨present, -, above, nearLink, farLink, nearTree, farTree⟩ := isTree_node.mp isTree
  have elsewhere : forall other, other ≠ id ->
      (store.setColor id paint).entries other = store.entries other :=
    fun other different => store.modify_ne different _
  have here : (store.setColor id paint).entries id = { store.entries id with color := paint } :=
    store.modify_same id _
  simp only [List.cons_append, List.nodup_cons, List.mem_append, not_or] at distinct
  refine ⟨isTree_plug.mpr ⟨isTree_node.mpr ⟨present, ?_, ?_, ?_, ?_, ?_, ?_⟩, ?_⟩, ?_, ?_⟩
  · rw [here]
  · rw [here]
    exact above
  · rw [here]
    cases side <;> exact nearLink
  · rw [here]
    cases side <;> exact farLink
  · exact nearTree.congr fun other member =>
      elsewhere other (fun same => distinct.1.1.1 (same ▸ member))
  · exact farTree.congr fun other member =>
      elsewhere other (fun same => distinct.1.1.2 (same ▸ member))
  · rw [rootId_node]
    exact isPlace.congr fun other member =>
      elsewhere other (fun same => distinct.1.2 (same ▸ member))
  · have order : (plug (side.node paint near id far) frames).inorder =
        (plug (side.node color near id far) frames).inorder := by
      cases side <;> simp [Side.node, RbTree.inorder]
    rw [order]
    exact holds.distinct
  · rw [← (by cases frames with
      | nil => simp [plug]
      | cons frame frames => rw [rootId_plug_cons, ← rootId_plug_cons] :
      rootId (plug (side.node color near id far) frames) =
        rootId (plug (side.node paint near id far) frames))]
    exact holds.root

/-- What a node of the tree has in its links. -/
theorem Holds.links {store : Store Hash} {side : Side} {color : Color} {near far : RbTree Id}
    {id : Id} {frames : List (Frame Id)}
    (holds : Holds store (plug (side.node color near id far) frames)) :
    id ≠ 0 ∧ (store.entries id).color = color ∧ (store.entries id).up = upId frames ∧
      (store.entries id).child side = rootId near ∧
      (store.entries id).child side.other = rootId far := by
  obtain ⟨present, colored, above, nearLink, farLink, -, -⟩ := isTree_node.mp holds.split.1
  exact ⟨present, colored, above, nearLink, farLink⟩

/-! ## What the operations leave alone -/

/-- The hashes and the collision lists are the same. -/
def Store.SameKeys (store other : Store Hash) : Prop :=
  forall id, (other.entries id).hash = (store.entries id).hash ∧
    (other.entries id).collision_next = (store.entries id).collision_next ∧
    (other.entries id).collision_previous = (store.entries id).collision_previous

namespace Store

theorem SameKeys.refl (store : Store Hash) : store.SameKeys store :=
  fun _ => ⟨rfl, rfl, rfl⟩

theorem SameKeys.trans {first second third : Store Hash} (one : first.SameKeys second)
    (two : second.SameKeys third) : first.SameKeys third :=
  fun id => ⟨(two id).1.trans (one id).1, (two id).2.1.trans (one id).2.1,
    (two id).2.2.trans (one id).2.2⟩

theorem sameKeys_modify (store : Store Hash) (id : Id) {change : Links Hash -> Links Hash}
    (hash : (change (store.entries id)).hash = (store.entries id).hash)
    (next : (change (store.entries id)).collision_next = (store.entries id).collision_next)
    (previous : (change (store.entries id)).collision_previous =
      (store.entries id).collision_previous) : store.SameKeys (store.modify id change) := by
  intro other
  by_cases same : other = id
  · subst same
    rw [modify_same]
    exact ⟨hash, next, previous⟩
  · rw [store.modify_ne same]
    exact ⟨rfl, rfl, rfl⟩

theorem sameKeys_setUp (store : Store Hash) (id up : Id) : store.SameKeys (store.setUp id up) :=
  store.sameKeys_modify id rfl rfl rfl

theorem sameKeys_setColor (store : Store Hash) (id : Id) (color : Color) :
    store.SameKeys (store.setColor id color) :=
  store.sameKeys_modify id rfl rfl rfl

theorem sameKeys_setChild (store : Store Hash) (side : Side) (id child : Id) :
    store.SameKeys (store.setChild side id child) := by
  cases side <;> exact store.sameKeys_modify id rfl rfl rfl

theorem sameKeys_replaceChild (store : Store Hash) (up old new : Id) :
    store.SameKeys (store.replaceChild up old new) := by
  unfold replaceChild
  split
  · exact fun _ => ⟨rfl, rfl, rfl⟩
  · split
    · exact store.sameKeys_setChild .left up new
    · exact store.sameKeys_setChild .right up new

theorem sameKeys_rotate (store : Store Hash) (side : Side) (x : Id) :
    store.SameKeys (store.rotate side x) := by
  unfold rotate
  simp only
  split
  · exact SameKeys.refl store
  · refine SameKeys.trans ?_ (sameKeys_setUp _ _ _)
    refine SameKeys.trans ?_ (sameKeys_setChild _ _ _ _)
    refine SameKeys.trans ?_ (sameKeys_replaceChild _ _ _ _)
    refine SameKeys.trans ?_ (sameKeys_setUp _ _ _)
    split
    · exact sameKeys_setChild _ _ _ _
    · exact (sameKeys_setChild _ _ _ _).trans (sameKeys_setUp _ _ _)

end Store

end HashIndex
end Mcachefs
