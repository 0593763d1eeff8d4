import Mcachefs.Metadata.HashGrowth

namespace Mcachefs
namespace HashIndex

open Library

/-!
# Removing an entry of a collision list

`mcachefs_metadata_do_remove_hash_collision` takes an entry off its collision
list.  Where the entry heads the list, the next one should take its place in the
tree.  It gets the two children and the parent's link, but its own link `up` and
its colour stay as they were, so that the place is taken over as it should be at
the root only: `removeHash_promotes_iff`.
-/

variable {Hash : Type} [LinearOrder Hash]

/-- What the removal of an entry of a collision list should make of an index. -/
structure TakesOff (store next : Store Hash) (tree newTree : RbTree Id)
    (tails newTails : Id -> List Id) (mdata : Id) : Prop where
  index : ChainedIndex next newTree newTails
  indexed : forall id, Indexed newTree newTails id ↔ Indexed tree tails id ∧ id ≠ mdata
  /-- The head of a list hands its place in the tree to the next entry. -/
  head : mdata ∈ tree.inorder ->
    newTree = tree.map (fun id => if id = mdata then (store.entries mdata).collision_next else id) ∧
      Renamed (fun id => id) (store.entries mdata)
        (next.entries (store.entries mdata).collision_next) ∧
      next.hash_root = if store.hash_root = mdata then (store.entries mdata).collision_next
        else store.hash_root
  /-- Any other entry leaves the tree as it is. -/
  tail : mdata ∉ tree.inorder -> newTree = tree ∧ next.hash_root = store.hash_root ∧
    forall id, id ∈ tree.inorder -> Renamed (fun id => id) (store.entries id) (next.entries id)
  /-- The lists keep their order. -/
  order : forall head, head ∈ tree.inorder -> Exists fun newHead => newHead ∈ newTree.inorder ∧
    newHead :: newTails newHead = (head :: tails head).erase mdata

/-- The removal comes to an end and does what it should. -/
def Promotes (store : Store Hash) (tree : RbTree Id) (tails : Id -> List Id) (mdata : Id) : Prop :=
  Exists fun bound => forall fuel, bound ≤ fuel -> Exists fun next => Exists fun newTree =>
    Exists fun newTails => store.removeHash fuel mdata = .ok next ∧
      TakesOff store next tree newTree tails newTails mdata

/-! ## Below the head of a list -/

/-- An entry that does not head its list is taken off. -/
theorem ChainedIndex.takesOff_tail {store : Store Hash} {tree : RbTree Id} {tails : Id -> List Id}
    (index : ChainedIndex store tree tails) {mdata : Id} (indexed : Indexed tree tails mdata)
    (some : (store.entries mdata).collision_previous ≠ 0) : Promotes store tree tails mdata := by
  obtain ⟨head, headIn, member⟩ := indexed
  obtain ⟨before, back, list⟩ := List.append_of_mem member
  have chain := index.chained head headIn
  have distinct := index.distinct head headIn
  rw [list] at chain distinct
  obtain ⟨front, previous, rfl⟩ : Exists fun front => Exists fun previous =>
      before = front ++ [previous] := by
    rcases List.eq_nil_or_concat before with none | ⟨front, previous, same⟩
    · subst none
      exact absurd chain.links.1 some
    · exact ⟨front, previous, same.trans List.concat_eq_append⟩
  have listed : head :: tails head = front ++ previous :: mdata :: back :=
    list.trans (List.append_cons _ _ _).symm
  obtain ⟨next, tail, removed, skipped, agrees, newIndexed, kept, -, -, root⟩ :=
    index.unchain headIn listed
  have valid := agrees next (fun _ _ => rfl) rfl
  have outside : mdata ∉ tree.inorder := by
    intro inTree
    have same := index.list_unique inTree headIn List.mem_cons_self member
    subst same
    exact some (index.chained mdata headIn).2.1
  have erased : (head :: tails head).erase mdata = head :: tail := by
    have notBefore : mdata ∉ front ++ [previous] := fun inBefore =>
      (List.nodup_append.mp distinct).2.2 mdata inBefore mdata List.mem_cons_self rfl
    rw [list, List.erase_append_right _ notBefore, List.erase_cons_head, skipped,
      List.append_assoc]
    rfl
  have inTail : forall id, id ∈ tail -> id ∈ tails head ∧ id ≠ mdata := by
    intro id inside
    have nodup : (head :: tails head).Nodup := index.distinct head headIn
    have either : id ∈ (head :: tails head).erase mdata := erased ▸ List.mem_cons_of_mem head inside
    have headNot : id ≠ head := by
      have still : (head :: tail).Nodup := erased ▸ nodup.erase mdata
      exact ne_of_mem_of_not_mem inside (List.nodup_cons.mp still).1
    obtain ⟨different, inList⟩ := nodup.mem_erase_iff.mp either
    exact ⟨(List.mem_cons.mp inList).resolve_left headNot, different⟩
  refine ⟨1, fun fuel enough => ?_⟩
  obtain ⟨fuel, rfl⟩ := Nat.exists_eq_add_of_le' enough
  refine ⟨next, tree, _, removed fuel, ⟨⟨valid, index.some, ?_⟩, newIndexed,
    fun inTree => absurd inTree outside, fun _ => ⟨rfl, root, fun id inTree =>
      (kept id (ne_of_mem_of_not_mem inTree outside)).links⟩, ?_⟩⟩
  · intro id inTree entry inList
    by_cases isHead : id = head
    · rw [isHead, Function.update_self] at inList
      obtain ⟨old, different⟩ := inTail entry inList
      rw [(kept entry different).links.color]
      exact index.black head headIn entry old
    · rw [Function.update_of_ne isHead] at inList
      have different : entry ≠ mdata := by
        rintro rfl
        exact isHead (index.list_unique inTree headIn (List.mem_cons_of_mem id inList) member)
      rw [(kept entry different).links.color]
      exact index.black id inTree entry inList
  · intro other otherIn
    refine ⟨other, otherIn, ?_⟩
    by_cases isHead : other = head
    · rw [isHead, Function.update_self, erased]
    · rw [Function.update_of_ne isHead, List.erase_of_not_mem]
      exact fun inOther => isHead (index.list_unique otherIn headIn inOther member)

/-! ## The head of a list -/

omit [LinearOrder Hash] in
theorem takeChild_spec {store : Store Hash} {side : Side} {next mdata : Id} {nextHas : Fault}
    (free : (store.entries next).child side = 0) (apart : (store.entries mdata).child side ≠ next) :
    Exists fun other => store.takeChild side next mdata nextHas = .ok other ∧
      other.hash_root = store.hash_root ∧
      other.entries next =
        (store.entries next).setChild side ((store.entries mdata).child side) ∧
      forall id, id ≠ next -> other.entries id =
        if id = (store.entries mdata).child side ∧ id ≠ 0 then
          { store.entries id with up := next }
        else store.entries id := by
  unfold Store.takeChild
  by_cases none : (store.entries mdata).child side = 0
  · refine ⟨store, if_pos none, rfl, ?_, fun id _ => ?_⟩
    · rw [none]
      cases side
      · exact congrArg (fun left => { store.entries next with left := left }) free
      · exact congrArg (fun right => { store.entries next with right := right }) free
    · rw [none, if_neg (fun both => both.2 both.1)]
  · refine ⟨_, (if_neg none).trans (if_neg (not_not.mpr free)), rfl, ?_, fun id different => ?_⟩
    · rw [Store.setUp, Store.modify_ne _ apart.symm, Store.setChild, Store.modify_same]
    · by_cases isChild : id = (store.entries mdata).child side
      · rw [if_pos ⟨isChild, isChild ▸ none⟩, ← isChild, Store.setUp, Store.modify_same,
          Store.setChild, Store.modify_ne _ different]
      · rw [if_neg (fun both => isChild both.1), Store.setUp, Store.modify_ne _ isChild,
          Store.setChild, Store.modify_ne _ different]

omit [LinearOrder Hash] in
/-- The next entry takes over both children. -/
theorem takeChildren_spec {store : Store Hash} {mdata heir : Id}
    (free : (store.entries heir).left = 0 ∧ (store.entries heir).right = 0)
    (different : heir ≠ mdata)
    (leftLink : (store.entries mdata).left ≠ mdata ∧ (store.entries mdata).left ≠ heir)
    (rightLink : (store.entries mdata).right ≠ heir) :
    Exists fun other => (store.takeChild .left heir mdata .nextHasLeft >>= fun middle =>
        middle.takeChild .right heir mdata .nextHasRight) = .ok other ∧
      other.hash_root = store.hash_root ∧
      other.entries heir = { store.entries heir with
        left := (store.entries mdata).left, right := (store.entries mdata).right } ∧
      forall id, id ≠ heir -> other.entries id =
        if (id = (store.entries mdata).left ∨ id = (store.entries mdata).right) ∧ id ≠ 0 then
          { store.entries id with up := heir }
        else store.entries id := by
  obtain ⟨one, oneTaken, oneRoot, oneHeir, oneElse⟩ := @takeChild_spec _ store
    .left heir mdata .nextHasLeft free.1 leftLink.2
  have left : (store.entries mdata).child .left = (store.entries mdata).left := rfl
  have right : (one.entries mdata).child .right = (store.entries mdata).right := by
    rw [oneElse mdata different.symm, if_neg (fun both => leftLink.1 both.1.symm)]
    rfl
  obtain ⟨two, twoTaken, twoRoot, twoHeir, twoElse⟩ := @takeChild_spec _ one .right heir mdata
    .nextHasRight (by rw [oneHeir]; exact free.2) (by rw [right]; exact rightLink)
  rw [right] at twoHeir twoElse
  rw [left] at oneHeir oneElse
  refine ⟨two, ?_, twoRoot.trans oneRoot, ?_, fun id notHeir => ?_⟩
  · simp only [bind, Except.bind, oneTaken, twoTaken]
  · rw [twoHeir, oneHeir]
    rfl
  · rw [twoElse id notHeir, oneElse id notHeir]
    by_cases isRight : id = (store.entries mdata).right ∧ id ≠ 0 <;>
      by_cases isLeft : id = (store.entries mdata).left ∧ id ≠ 0
    · have either : (id = (store.entries mdata).left ∨ id = (store.entries mdata).right) ∧ id ≠ 0 :=
        ⟨Or.inl isLeft.1, isLeft.2⟩
      rw [if_pos isRight, if_pos isLeft, if_pos either]
    · have either : (id = (store.entries mdata).left ∨ id = (store.entries mdata).right) ∧ id ≠ 0 :=
        ⟨Or.inr isRight.1, isRight.2⟩
      rw [if_pos isRight, if_neg isLeft, if_pos either]
    · have either : (id = (store.entries mdata).left ∨ id = (store.entries mdata).right) ∧ id ≠ 0 :=
        ⟨Or.inl isLeft.1, isLeft.2⟩
      rw [if_neg isRight, if_pos isLeft, if_pos either]
    · rw [if_neg isRight, if_neg isLeft, if_neg]
      rintro ⟨isChild | isChild, nonzero⟩
      · exact isLeft ⟨isChild, nonzero⟩
      · exact isRight ⟨isChild, nonzero⟩

omit [LinearOrder Hash] in
/-- The root of the tree hands its place to the next entry of its list. -/
theorem removeHash_root {store : Store Hash} {mdata heir : Id} (root : store.hash_root = mdata)
    (present : mdata ≠ 0) (above : (store.entries mdata).up = 0)
    (first : (store.entries mdata).collision_previous = 0)
    (following : (store.entries mdata).collision_next = heir) (some : heir ≠ 0)
    (detached : (store.entries heir).left = 0 ∧ (store.entries heir).right = 0)
    (different : heir ≠ mdata)
    (leftLink : (store.entries mdata).left ≠ mdata ∧ (store.entries mdata).left ≠ heir)
    (rightLink : (store.entries mdata).right ≠ mdata ∧ (store.entries mdata).right ≠ heir) :
    Exists fun next => (forall fuel, store.removeHash (fuel + 1) mdata = .ok next) ∧
      next.hash_root = heir ∧
      next.entries heir = { store.entries heir with
        left := (store.entries mdata).left, right := (store.entries mdata).right,
        collision_previous := 0 } ∧
      forall id, id ≠ heir -> id ≠ mdata -> next.entries id =
        if (id = (store.entries mdata).left ∨ id = (store.entries mdata).right) ∧ id ≠ 0 then
          { store.entries id with up := heir }
        else store.entries id := by
  have notSelf : store.selfReference mdata = false := by
    unfold Store.selfReference
    simp [above, present.symm, leftLink.1, rightLink.1]
  obtain ⟨two, taken, twoRoot, atHeir, elsewhere⟩ := @takeChildren_spec _
    (store.setHashRoot heir) mdata heir detached different leftLink rightLink.2
  refine ⟨((two.modify heir fun links => { links with collision_previous := 0 }).cleanupHash mdata),
    fun fuel => ?_, twoRoot, ?_, fun id notHeir notMdata => ?_⟩
  · rw [Store.removeHash, Store.doRemoveHash]
    simp only [notSelf, Bool.false_eq_true, if_false, first, following, ne_eq, some, not_true,
      not_false_eq_true, or_true, if_true, Store.doRemoveHashCollision, Store.replaceHead, above,
      root, and_false]
    rw [taken]
    rfl
  · rw [Store.cleanupHash, Store.modify_ne _ different, Store.modify_same, atHeir]
    rfl
  · rw [Store.cleanupHash, Store.modify_ne _ notMdata, Store.modify_ne _ notHeir,
      elsewhere id notHeir]
    rfl

omit [LinearOrder Hash] in
/-- The next entry does not get the link `up` of the head. -/
theorem removeHash_head_up {store next : Store Hash} {mdata heir : Id} {fuel : Nat}
    (returned : store.removeHash fuel mdata = .ok next)
    (first : (store.entries mdata).collision_previous = 0)
    (following : (store.entries mdata).collision_next = heir) (some : heir ≠ 0)
    (detached : (store.entries heir).left = 0 ∧ (store.entries heir).right = 0)
    (different : heir ≠ mdata)
    (upLink : (store.entries mdata).up ≠ mdata ∧ (store.entries mdata).up ≠ heir)
    (leftLink : (store.entries mdata).left ≠ mdata ∧ (store.entries mdata).left ≠ heir)
    (rightLink : (store.entries mdata).right ≠ heir) :
    (next.entries heir).up = (store.entries heir).up := by
  obtain ⟨base, baseEq⟩ : Exists fun base => base =
      if (store.entries mdata).up = 0 then store.setHashRoot heir
      else if (store.entries (store.entries mdata).up).left = mdata then
        store.setChild .left (store.entries mdata).up heir
      else store.setChild .right (store.entries mdata).up heir := ⟨_, rfl⟩
  have same : forall id, id ≠ (store.entries mdata).up -> base.entries id = store.entries id := by
    intro id other
    rw [baseEq]
    split
    · rfl
    · split <;> exact Store.modify_ne _ other _
  have sameMdata := same mdata upLink.1.symm
  have sameHeir := same heir upLink.2.symm
  obtain ⟨two, taken, -, atHeir, -⟩ := @takeChildren_spec _ base mdata heir
    (by rw [sameHeir]; exact detached) different (by rw [sameMdata]; exact leftLink)
    (by rw [sameMdata]; exact rightLink)
  cases fuel with
  | zero => cases returned
  | succ fuel =>
      rw [Store.removeHash, Store.doRemoveHash] at returned
      simp only [first, following, ne_eq, some, not_true, not_false_eq_true, or_true, if_true,
        Store.doRemoveHashCollision, Store.replaceHead, if_false, ← baseEq] at returned
      by_cases self : store.selfReference mdata = true
      · rw [if_pos self] at returned
        cases returned
      · rw [if_neg self] at returned
        by_cases lost : (store.entries mdata).up = 0 ∧ ¬ store.hash_root = mdata
        · rw [if_pos lost] at returned
          cases returned
        · rw [if_neg lost, taken] at returned
          cases returned
          rw [Store.cleanupHash, Store.modify_ne _ different, Store.modify_same]
          simp only
          rw [atHeir, sameHeir]

/-- What is below the head of a list is not in the tree. -/
theorem ValidIndex.tail_outside {store : Store Hash} {tree : RbTree Id} {tails : Id -> List Id}
    (valid : ValidIndex store tree tails) {head id : Id} (headIn : head ∈ tree.inorder)
    (member : id ∈ tails head) : id ∉ tree.inorder := by
  intro inTree
  have same := valid.list_unique inTree headIn List.mem_cons_self (List.mem_cons_of_mem head member)
  subst same
  exact (List.nodup_cons.mp (valid.distinct id inTree)).1 member

/-- The entry after the head of a list. -/
structure Heir (store : Store Hash) (tree : RbTree Id) (tails : Id -> List Id)
    (mdata heir : Id) (rest : List Id) : Prop where
  list : tails mdata = heir :: rest
  first : (store.entries mdata).collision_previous = 0
  following : (store.entries mdata).collision_next = heir
  present : heir ≠ 0
  next : (store.entries heir).collision_next = rest.headD 0
  rest : IsChain store.entries heir rest 0
  different : heir ≠ mdata
  outside : heir ∉ tree.inorder
  up : (store.entries heir).up = 0
  free : (store.entries heir).left = 0 ∧ (store.entries heir).right = 0
  aboveHead : (store.entries mdata).up ≠ mdata ∧ (store.entries mdata).up ≠ heir
  leftOfHead : (store.entries mdata).left ≠ mdata ∧ (store.entries mdata).left ≠ heir
  rightOfHead : (store.entries mdata).right ≠ mdata ∧ (store.entries mdata).right ≠ heir

theorem ValidIndex.heir {store : Store Hash} {tree : RbTree Id} {tails : Id -> List Id}
    (valid : ValidIndex store tree tails) {mdata : Id} (inTree : mdata ∈ tree.inorder)
    (some : (store.entries mdata).collision_next ≠ 0) :
    Exists fun heir => Exists fun rest => Heir store tree tails mdata heir rest := by
  have chain := valid.chained mdata inTree
  obtain ⟨heir, rest, list⟩ : Exists fun heir => Exists fun rest => tails mdata = heir :: rest := by
    cases same : tails mdata with
    | nil =>
        rw [same] at chain
        exact absurd chain.2.2.1 some
    | cons heir rest => exact ⟨heir, rest, rfl⟩
  have heirIn : heir ∈ tails mdata := list ▸ List.mem_cons_self
  have outside := valid.tail_outside inTree heirIn
  rw [list] at chain
  obtain ⟨-, first, following, present, -, next, rest⟩ := chain
  have linked := valid.holds.linked
  obtain ⟨notLeft, notRight, notUp⟩ := linked.notSelf mdata inTree
  have apart : forall id, (id ≠ 0 -> id ∈ tree.inorder) -> id ≠ heir :=
    fun id member same => outside (same ▸ member (same ▸ present))
  obtain ⟨up, free⟩ := valid.detached mdata inTree heir heirIn
  exact ⟨heir, _, list, first, following, present, next, rest,
    (ne_of_mem_of_not_mem inTree outside).symm, outside, up, free,
    ⟨notUp, apart _ fun nonzero => (linked.up mdata inTree nonzero).1⟩,
    ⟨notLeft, apart _ fun nonzero => (linked.left mdata inTree nonzero).1⟩,
    ⟨notRight, apart _ fun nonzero => (linked.right mdata inTree nonzero).1⟩⟩

/-- The head of a list at the root of the tree is taken off. -/
theorem ChainedIndex.takesOff_root {store : Store Hash} {color : Color} {left right : RbTree Id}
    {mdata : Id} {tails : Id -> List Id}
    (index : ChainedIndex store (.node color left mdata right) tails)
    (some : (store.entries mdata).collision_next ≠ 0) :
    Promotes store (.node color left mdata right) tails mdata := by
  have inTree : mdata ∈ (RbTree.node color left mdata right).inorder :=
    List.mem_append_right _ List.mem_cons_self
  obtain ⟨present, colored, above, leftLink, rightLink, leftTree, rightTree⟩ := index.holds.isTree
  have distinct := index.holds.distinct
  have isRoot : store.hash_root = mdata := index.holds.root
  obtain ⟨heir, rest, heirs⟩ := index.heir inTree some
  have list := heirs.list
  have heirNot := heirs.different
  have heirIn : heir ∈ tails mdata := list ▸ List.mem_cons_self
  have listDistinct := index.distinct mdata inTree
  rw [list] at listDistinct
  have away : forall id, id ∈ tails mdata -> id ∉ (RbTree.node color left mdata right).inorder :=
    fun id => index.tail_outside inTree
  have leftRoot : rootId left ≠ 0 -> rootId left ∈ left.inorder := rootId_mem
  have rightRoot : rootId right ≠ 0 -> rootId right ∈ right.inorder := rootId_mem
  have heirAway := heirs.outside
  simp only [RbTree.inorder] at distinct heirAway
  obtain ⟨next, removed, root, atHeir, elsewhere⟩ := removeHash_root isRoot present above
    heirs.first heirs.following heirs.present heirs.free heirNot heirs.leftOfHead heirs.rightOfHead
  rw [leftLink, rightLink] at atHeir elsewhere
  obtain ⟨rename, renameEq⟩ : Exists fun rename : Id -> Id =>
      rename = fun id => if id = mdata then heir else id := ⟨_, rfl⟩
  have renameOther : forall id, id ≠ mdata -> rename id = id := by
    intro id other
    rw [renameEq]
    exact if_neg other
  have renameMdata : rename mdata = heir := by
    rw [renameEq]
    exact if_pos rfl
  have leftSame : left.map rename = left :=
    RbTree.map_eq_self fun id member => renameOther id (by grind)
  have rightSame : right.map rename = right :=
    RbTree.map_eq_self fun id member => renameOther id (by grind)
  have mapped : (RbTree.node color left mdata right).map rename = .node color left heir right := by
    rw [RbTree.map, leftSame, rightSame, renameMdata]
  have black : color = .black := index.redBlack.1
  have heirBlack := index.black mdata inTree heir heirIn
  -- The other entries keep everything but a link `up`.
  have kept : forall id, id ≠ heir -> id ≠ mdata ->
      Exists fun up => next.entries id = { store.entries id with up := up } := by
    intro id notHeir notMdata
    rw [elsewhere id notHeir notMdata]
    split
    · exact ⟨_, rfl⟩
    · exact ⟨_, rfl⟩
  have farKept : forall id, id ∉ (RbTree.node color left mdata right).inorder -> id ≠ heir ->
      next.entries id = store.entries id := by
    intro id outside notHeir
    simp only [RbTree.inorder] at outside
    rw [elsewhere id notHeir (by grind), if_neg]
    grind
  have hash : forall id, id ≠ mdata -> (next.entries id).hash = (store.entries id).hash := by
    intro id notMdata
    by_cases isHeir : id = heir
    · rw [isHeir, atHeir]
    · obtain ⟨up, same⟩ := kept id isHeir notMdata
      rw [same]
  have renamedHash : forall id, id ∈ (RbTree.node color left mdata right).inorder ->
      (next.entries (rename id)).hash = (store.entries id).hash := by
    intro id member
    by_cases isMdata : id = mdata
    · rw [isMdata, renameMdata, hash heir heirNot]
      exact index.sameHash mdata inTree heir heirIn
    · rw [renameOther id isMdata, hash id isMdata]
  have nodup : (RbTree.node color left heir right).inorder.Nodup := by
    simp only [RbTree.inorder]
    grind
  have isTree : IsTree next.entries 0 (.node color left heir right) := by
    refine ⟨heirs.present, ?_, ?_, ?_, ?_, ?_, ?_⟩
    · rw [atHeir]
      exact heirBlack.trans black.symm
    · rw [atHeir]
      exact heirs.up
    · rw [atHeir]
    · rw [atHeir]
    · refine leftTree.moved (List.nodup_append.mp distinct).1 (fun some => ?_)
        fun id member notRoot => ?_
      · rw [elsewhere _ (by grind) (by grind), if_pos ⟨Or.inl rfl, some⟩]
      · rw [elsewhere id (by grind) (by grind), if_neg]
        grind
    · refine rightTree.moved (List.nodup_cons.mp (List.nodup_append.mp distinct).2.1).2
        (fun some => ?_) fun id member notRoot => ?_
      · rw [elsewhere _ (by grind) (by grind), if_pos ⟨Or.inr rfl, some⟩]
      · rw [elsewhere id (by grind) (by grind), if_neg]
        grind
  have members : forall id, id ∈ (RbTree.node color left heir right).inorder -> id = heir ∨
      id ≠ heir ∧ id ≠ mdata ∧ id ∈ (RbTree.node color left mdata right).inorder := by
    intro id member
    simp only [RbTree.inorder] at member ⊢
    grind
  have inTail : forall id, id ∈ rest -> id ∈ tails mdata ∧ id ≠ heir ∧ id ≠ mdata := by
    intro id member
    rw [list]
    grind
  have others : forall id, id ∈ (RbTree.node color left mdata right).inorder -> id ≠ mdata ->
      forall entry, entry ∈ tails id -> next.entries entry = store.entries entry := by
    intro id member notMdata entry inside
    refine farKept entry (index.tail_outside member inside) ?_
    rintro rfl
    exact notMdata (index.list_unique member inTree (List.mem_cons_of_mem id inside)
      (List.mem_cons_of_mem mdata heirIn))
  have valid : ValidIndex next (.node color left heir right)
      (Function.update tails heir rest) := by
    refine ⟨⟨isTree, nodup, root⟩, ?_, ?_, ?_, ?_, ?_, ?_⟩
    · rw [← mapped, RbTree.map_redBlack]
      exact index.redBlack
    · rw [← mapped, RbTree.map_inorder, List.pairwise_map]
      refine index.ordered.imp_of_mem fun {one two} oneIn twoIn less => ?_
      rwa [renamedHash one oneIn, renamedHash two twoIn]
    all_goals
      intro id member
      rcases members id member with rfl | ⟨notHeir, notMdata, old⟩
    · rw [Function.update_self]
      refine ⟨heirs.present, by rw [atHeir], by rw [atHeir]; exact heirs.next,
        heirs.rest.congr fun entry inRest => ?_⟩
      obtain ⟨inList, notHeir, -⟩ := inTail entry inRest
      rw [farKept entry (away entry inList) notHeir]
      exact ⟨rfl, rfl⟩
    · rw [Function.update_of_ne notHeir]
      refine (index.chained id old).congr fun entry inList => ?_
      rcases List.mem_cons.mp inList with rfl | inside
      · obtain ⟨up, same⟩ := kept entry notHeir notMdata
        rw [same]
        exact ⟨rfl, rfl⟩
      · rw [others id old notMdata entry inside]
        exact ⟨rfl, rfl⟩
    · rw [Function.update_self]
      exact (List.nodup_cons.mp listDistinct).2
    · rw [Function.update_of_ne notHeir]
      exact index.distinct id old
    · rw [Function.update_self]
      intro entry inRest
      obtain ⟨inList, -, notEntry⟩ := inTail entry inRest
      rw [hash entry notEntry, hash id heirNot, index.sameHash mdata inTree entry inList,
        index.sameHash mdata inTree id heirIn]
    · rw [Function.update_of_ne notHeir]
      intro entry inside
      rw [others id old notMdata entry inside, hash id notMdata]
      exact index.sameHash id old entry inside
    · rw [Function.update_self]
      intro entry inRest
      obtain ⟨inList, notHeir, -⟩ := inTail entry inRest
      rw [farKept entry (away entry inList) notHeir]
      exact index.detached mdata inTree entry inList
    · rw [Function.update_of_ne notHeir]
      intro entry inside
      rw [others id old notMdata entry inside]
      exact index.detached id old entry inside
  refine ⟨1, fun fuel enough => ?_⟩
  obtain ⟨fuel, rfl⟩ := Nat.exists_eq_add_of_le' enough
  refine ⟨next, _, _, removed fuel, ⟨⟨valid, heirs.present, ?_⟩, ?_, fun _ => ⟨?_, ?_, ?_⟩,
    fun outside => absurd inTree outside, ?_⟩⟩
  · intro id member
    rcases members id member with rfl | ⟨notHeir, notMdata, old⟩
    · rw [Function.update_self]
      intro entry inRest
      obtain ⟨inList, notHeir, -⟩ := inTail entry inRest
      rw [farKept entry (away entry inList) notHeir]
      exact index.black mdata inTree entry inList
    · rw [Function.update_of_ne notHeir]
      intro entry inside
      rw [others id old notMdata entry inside]
      exact index.black id old entry inside
  · intro id
    constructor
    · rintro ⟨head, headIn, inList⟩
      rcases members head headIn with rfl | ⟨notHeir, notMdata, old⟩
      · rw [Function.update_self, ← list] at inList
        exact ⟨⟨mdata, inTree, List.mem_cons_of_mem mdata inList⟩,
          ne_of_mem_of_not_mem inList fun self =>
            (List.nodup_cons.mp (index.distinct mdata inTree)).1 self⟩
      · rw [Function.update_of_ne notHeir] at inList
        refine ⟨⟨head, old, inList⟩, ?_⟩
        rintro rfl
        exact notMdata (index.list_unique old inTree inList List.mem_cons_self)
    · rintro ⟨⟨head, headIn, inList⟩, different⟩
      by_cases isMdata : head = mdata
      · rw [isMdata, list] at inList
        refine ⟨heir, List.mem_append_right _ List.mem_cons_self, ?_⟩
        rw [Function.update_self]
        exact (List.mem_cons.mp inList).resolve_left different
      · have notHeir : head ≠ heir := ne_of_mem_of_not_mem headIn (away heir heirIn)
        refine ⟨head, ?_, by rwa [Function.update_of_ne notHeir]⟩
        simp only [RbTree.inorder] at headIn ⊢
        grind
  · rw [heirs.following, ← mapped, renameEq]
  · rw [heirs.following, atHeir]
    exact ⟨heirBlack.trans (colored.trans black).symm, leftLink.symm, rightLink.symm,
      heirs.up.trans above.symm⟩
  · rw [heirs.following, root, if_pos isRoot]
  · intro head headIn
    by_cases isMdata : head = mdata
    · refine ⟨heir, List.mem_append_right _ List.mem_cons_self, ?_⟩
      rw [Function.update_self, isMdata, List.erase_cons_head, list]
    · have notHeir : head ≠ heir := ne_of_mem_of_not_mem headIn (away heir heirIn)
      refine ⟨head, ?_, ?_⟩
      · simp only [RbTree.inorder] at headIn ⊢
        grind
      · rw [Function.update_of_ne notHeir, List.erase_of_not_mem]
        exact fun inList => isMdata (index.list_unique headIn inTree inList List.mem_cons_self)

/-! ## Which entries are taken off as they should be -/

/-- The removal of an entry that collides does what it should exactly where the entry is not
the head of its list, or where its list stands at the root. -/
theorem removeHash_promotes_iff (store : Store Hash) (tree : RbTree Id) (tails : Id -> List Id)
    (index : ChainedIndex store tree tails) (mdata : Id) (indexed : Indexed tree tails mdata)
    (collides : (store.entries mdata).collision_previous ≠ 0 ∨
      (store.entries mdata).collision_next ≠ 0) :
    Promotes store tree tails mdata ↔
      (store.entries mdata).collision_previous ≠ 0 ∨ (store.entries mdata).up = 0 := by
  by_cases isTail : (store.entries mdata).collision_previous ≠ 0
  · exact ⟨fun _ => Or.inl isTail, fun _ => index.takesOff_tail indexed isTail⟩
  · have some := collides.resolve_left isTail
    have inTree : mdata ∈ tree.inorder := by
      obtain ⟨head, headIn, member⟩ := indexed
      obtain ⟨front, back, list⟩ := List.append_of_mem member
      have chain := index.chained head headIn
      rw [list] at chain
      have none : front = [] := by
        by_contra nonempty
        have last : front.getLastD 0 ∈ front := by
          cases front with
          | nil => exact absurd rfl nonempty
          | cons first front =>
              rw [List.getLastD_cons]
              exact List.getLastD_mem_cons
        exact isTail (chain.links.1 ▸ chain.ne_zero (List.mem_append_left _ last))
      rw [none] at list
      exact (List.cons.inj list).1 ▸ headIn
    obtain ⟨color, left, right, frames, rfl⟩ := RbTree.exists_place inTree
    constructor
    · rintro ⟨bound, promotes⟩
      obtain ⟨next, newTree, newTails, returned, takes⟩ := promotes bound (Nat.le_refl bound)
      obtain ⟨heir, rest, heirs⟩ := index.heir inTree some
      have link := (takes.head inTree).2.1.up
      rw [heirs.following, removeHash_head_up returned heirs.first heirs.following heirs.present
        heirs.free heirs.different heirs.aboveHead heirs.leftOfHead heirs.rightOfHead.2,
        heirs.up] at link
      exact Or.inr link.symm
    · rintro (tail | above)
      · exact absurd tail isTail
      · cases frames with
        | nil => exact index.takesOff_root some
        | cons frame outer =>
            have node : Holds store (plug (Side.left.node color left mdata right)
              (frame :: outer)) := index.holds
            obtain ⟨-, isPlace, -⟩ := node.split
            exact absurd (node.links.2.2.1.symm.trans above) isPlace.1

/-- The last entry of the list of `colliding` is taken off. -/
theorem removeHash_promotes_last : Promotes colliding collidingTree collidingTails 3 :=
  (removeHash_promotes_iff _ _ _ ⟨colliding_valid, by decide, by decide⟩ 3
    ⟨2, by decide, by decide⟩ (by decide)).mpr (by decide)

/-- Its head leaves a place in the tree that leads up to nothing. -/
theorem removeHash_head_loses_up :
    ChainedIndex colliding collidingTree collidingTails ∧
      Indexed collidingTree collidingTails 2 ∧
      (colliding.entries 2).collision_next = 3 ∧ (colliding.entries 2).up = 1 ∧
      (forall fuel, ((colliding.removeHash (fuel + 1) 2).map fun next =>
        ((next.entries 1).right, (next.entries 3).up)) = .ok (3, 0)) ∧
      ¬ Promotes colliding collidingTree collidingTails 2 := by
  refine ⟨⟨colliding_valid, by decide, by decide⟩, ⟨2, by decide, by decide⟩, rfl, rfl,
    fun fuel => rfl, fun ⟨bound, promotes⟩ => ?_⟩
  obtain ⟨next, newTree, newTails, returned, takes⟩ := promotes bound (Nat.le_refl bound)
  have link := (takes.head (by decide)).2.1.up
  cases bound with
  | zero => cases returned
  | succ bound =>
      cases returned
      exact absurd link (by decide)

end HashIndex
end Mcachefs
