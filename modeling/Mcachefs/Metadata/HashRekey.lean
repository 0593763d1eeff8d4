import Mcachefs.Metadata.HashLookup

namespace Mcachefs
namespace HashIndex

open Library

/-!
# Giving an entry of a collision list another hash

`mcachefs_metadata_rename_entry` and `mcachefs_metadata_rehash_children` remove
an entry from the index, change its hash and insert it again.  The removal of
an entry from a collision list leaves the entry's own collision links as they
were, and nothing clears them before the insertion.  The result is valid only
where they happen to be right: `rekey_valid_iff`.
-/

variable {Hash : Type} [LinearOrder Hash]

namespace Store

/-- Remove an entry, give it another hash, insert it. -/
def rekey (fuel : Nat) (mdata : Id) (hash : Hash) (store : Store Hash) :
    Except Fault (Store Hash) := do
  let store ← removeHash fuel mdata store
  insertHash fuel mdata (store.modify mdata fun links => { links with hash := hash })

end Store

/-- The entry gets its new hash, and the index is valid again: a lookup meets
the entries with a hash, each once. -/
def Rekeys (store : Store Hash) (tree : RbTree Id) (tails : Id -> List Id) (mdata : Id)
    (hash : Hash) : Prop :=
  Exists fun bound => forall fuel, bound ≤ fuel -> Exists fun next => Exists fun newTree =>
    Exists fun newTails => store.rekey fuel mdata hash = .ok next ∧
      ValidIndex next newTree newTails ∧
      (forall id, Indexed newTree newTails id ↔ Indexed tree tails id) ∧
      (forall id, (next.entries id).hash = if id = mdata then hash else (store.entries id).hash) ∧
      forall wanted, Exists fun enough => forall fuel, enough ≤ fuel -> Exists fun found =>
        next.met wanted fuel next.hash_root = .ok found ∧ found.Nodup ∧
          forall id, id ∈ found ↔ Indexed tree tails id ∧ (next.entries id).hash = wanted

/-! ## What the removal leaves in the collision links -/

/-- The entries on either side are told, the removed entry is not. -/
structure Unchained (mdata : Id) (store next : Store Hash) : Prop where
  hash : forall id, (next.entries id).hash = (store.entries id).hash
  previous : forall id, (next.entries id).collision_previous =
    if id = (store.entries mdata).collision_next ∧ id ≠ 0 then
      (store.entries mdata).collision_previous
    else (store.entries id).collision_previous
  next : forall id, (next.entries id).collision_next =
    if id = (store.entries mdata).collision_previous ∧ id ≠ 0 then
      (store.entries mdata).collision_next
    else (store.entries id).collision_next

namespace Store

omit [LinearOrder Hash] in
theorem takeChild_sameKeys {side : Side} {next mdata : Id} {nextHas : Fault}
    {store other : Store Hash} (returned : takeChild side next mdata nextHas store = .ok other) :
    store.SameKeys other := by
  unfold takeChild at returned
  simp only at returned
  split at returned
  · cases returned
    exact SameKeys.refl store
  · split at returned
    · cases returned
    · cases returned
      exact (sameKeys_setChild _ _ _ _).trans (sameKeys_setUp _ _ _)

omit [LinearOrder Hash] in
theorem replaceHead_sameKeys {mdata next : Id} {store other : Store Hash}
    (returned : store.replaceHead mdata next = .ok other) : store.SameKeys other := by
  unfold replaceHead at returned
  simp only at returned
  split at returned
  · cases returned
  · split at returned
    · cases returned
    · obtain ⟨base, baseEq⟩ : Exists fun base => base =
          if (store.entries mdata).up = 0 then store.setHashRoot next
          else if (store.entries (store.entries mdata).up).left = mdata then
            store.setChild .left (store.entries mdata).up next
          else store.setChild .right (store.entries mdata).up next := ⟨_, rfl⟩
      have same : store.SameKeys base := by
        rw [baseEq]
        exact SameKeys.ite (fun _ => ⟨rfl, rfl, rfl⟩)
          ((sameKeys_setChild _ .left _ _).ite (sameKeys_setChild _ .right _ _))
      rw [← baseEq] at returned
      cases left : takeChild .left next mdata .nextHasLeft base with
      | error fault =>
          rw [left] at returned
          cases returned
      | ok middle =>
          rw [left] at returned
          exact same.trans ((takeChild_sameKeys left).trans (takeChild_sameKeys returned))

omit [LinearOrder Hash] in
theorem doRemoveHashCollision_unchained {mdata : Id} {store next : Store Hash}
    (returned : store.doRemoveHashCollision mdata = .ok next) : Unchained mdata store next := by
  -- First the entry before the removed one is told, then the one after it.
  have finish : forall middle : Store Hash,
      (forall id, (middle.entries id).hash = (store.entries id).hash ∧
        (middle.entries id).collision_previous = (store.entries id).collision_previous ∧
        (middle.entries id).collision_next =
          if id = (store.entries mdata).collision_previous ∧ id ≠ 0 then
            (store.entries mdata).collision_next
          else (store.entries id).collision_next) ->
      (if (store.entries mdata).collision_next = 0 then .ok middle
        else .ok (middle.modify (store.entries mdata).collision_next fun links =>
          { links with collision_previous := (store.entries mdata).collision_previous })) =
        (.ok next : Except Fault (Store Hash)) -> Unchained mdata store next := by
    intro middle before result
    split at result
    · next last =>
        cases result
        refine ⟨fun id => (before id).1, fun id => ?_, fun id => (before id).2.2⟩
        rw [(before id).2.1, if_neg]
        rintro ⟨same, present⟩
        exact present (same.trans last)
    · next some =>
        cases result
        constructor
        all_goals
          intro id
          obtain ⟨hash, previous, following⟩ := before id
          by_cases isNext : id = (store.entries mdata).collision_next
        · rw [← isNext, modify_same]
          exact hash
        · rw [modify_ne _ isNext]
          exact hash
        · rw [← isNext, modify_same, if_pos ⟨rfl, isNext ▸ some⟩]
        · rw [modify_ne _ isNext, if_neg (fun both => isNext both.1)]
          exact previous
        · rw [← isNext, modify_same]
          exact isNext ▸ following
        · rw [modify_ne _ isNext]
          exact following
  unfold doRemoveHashCollision at returned
  simp only at returned
  split at returned
  · next head =>
      cases replaced : store.replaceHead mdata (store.entries mdata).collision_next with
      | error fault =>
          rw [replaced] at returned
          cases returned
      | ok middle =>
          rw [replaced] at returned
          have same := replaceHead_sameKeys replaced
          refine finish middle (fun id => ⟨(same id).1, (same id).2.2, ?_⟩) returned
          rw [(same id).2.1, if_neg]
          rintro ⟨isPrevious, present⟩
          exact present (isPrevious.trans head)
  · next some =>
      refine finish _ (fun id => ?_) returned
      by_cases isPrevious : id = (store.entries mdata).collision_previous
      · rw [← isPrevious, modify_same, if_pos ⟨rfl, isPrevious ▸ some⟩]
        exact ⟨rfl, rfl, rfl⟩
      · rw [modify_ne _ isPrevious, if_neg (fun both => isPrevious both.1)]
        exact ⟨rfl, rfl, rfl⟩

end Store

/-- What a rekeying leaves in the collision links when it returns. -/
structure Rekeyed (mdata : Id) (newHash : Hash) (store next : Store Hash) : Prop where
  hash : forall id, (next.entries id).hash =
    if id = mdata then newHash else (store.entries id).hash
  previous : forall id, id ≠ mdata -> (next.entries id).collision_previous =
    if id = (store.entries mdata).collision_next ∧ id ≠ 0 then
      (store.entries mdata).collision_previous
    else (store.entries id).collision_previous
  previousKept : (store.entries mdata).collision_previous ≠ 0 ->
    (next.entries mdata).collision_previous ≠ 0
  nextKept : (store.entries mdata).collision_next ≠ 0 ->
    (next.entries mdata).collision_next = (store.entries mdata).collision_next

omit [LinearOrder Hash] in
/-- The removal of an entry of a collision list. -/
theorem removeHash_unchained {fuel : Nat} {mdata : Id} {store next : Store Hash}
    (collides : (store.entries mdata).collision_previous ≠ 0 ∨
      (store.entries mdata).collision_next ≠ 0)
    (returned : store.removeHash fuel mdata = .ok next) : Unchained mdata store next := by
  cases fuel with
  | zero => cases returned
  | succ fuel =>
      unfold Store.removeHash Store.doRemoveHash at returned
      simp only [if_pos collides] at returned
      split at returned
      · cases returned
      · cases removed : store.doRemoveHashCollision mdata with
        | error fault =>
            rw [removed] at returned
            cases returned
        | ok middle =>
            rw [removed] at returned
            cases returned
            obtain ⟨hash, previous, following⟩ := Store.doRemoveHashCollision_unchained removed
            have same := middle.sameKeys_cleanupHash mdata
            exact ⟨fun id => (same id).1.trans (hash id),
              fun id => (same id).2.2.trans (previous id),
              fun id => (same id).2.1.trans (following id)⟩

theorem rekey_rekeyed {fuel : Nat} {mdata : Id} {hash : Hash} {store next : Store Hash}
    (collides : (store.entries mdata).collision_previous ≠ 0 ∨
      (store.entries mdata).collision_next ≠ 0)
    (returned : store.rekey fuel mdata hash = .ok next) : Rekeyed mdata hash store next := by
  unfold Store.rekey at returned
  cases removed : store.removeHash fuel mdata with
  | error fault =>
      rw [removed] at returned
      cases returned
  | ok middle =>
      rw [removed] at returned
      obtain ⟨hashes, previous, following⟩ := removeHash_unchained collides removed
      have inserted := Store.insertHash_inserted returned
      have own := middle.modify_same mdata fun links => { links with hash := hash }
      have others := fun {id : Id} (other : id ≠ mdata) =>
        middle.modify_ne other fun links => { links with hash := hash }
      constructor
      · intro id
        rw [inserted.hash]
        split
        · next same => rw [same, own]
        · next other => rw [others other, hashes]
      · intro id other
        rw [inserted.previous id other, others other, previous]
      · intro some
        refine inserted.previousKept ?_
        rw [own]
        simp only [previous]
        split <;> exact some
      · intro some
        have kept : ((middle.modify mdata fun links => { links with hash := hash }).entries
            mdata).collision_next = (store.entries mdata).collision_next := by
          rw [own]
          simp only [following]
          split <;> rfl
        rw [inserted.nextKept mdata (kept ▸ some), kept]

theorem getLastD_mem {list : List Id} (some : list.getLastD 0 ≠ 0) : list.getLastD 0 ∈ list := by
  cases list with
  | nil => exact absurd rfl some
  | cons id list =>
      rw [List.getLastD_cons]
      exact List.getLastD_mem_cons

/-- No entry of a valid index is its own neighbour in a collision list. -/
theorem ValidIndex.previous_ne {store : Store Hash} {tree : RbTree Id}
    {tails : Id -> List Id} (valid : ValidIndex store tree tails) {id : Id}
    (indexed : Indexed tree tails id) : (store.entries id).collision_previous ≠ id := by
  obtain ⟨head, headIn, member⟩ := indexed
  have present := (valid.chained head headIn).ne_zero member
  obtain ⟨front, back, list⟩ := List.append_of_mem member
  have chain := valid.chained head headIn
  have distinct := valid.distinct head headIn
  rw [list] at chain distinct
  intro same
  have last := chain.links.1.symm.trans same
  have inFront := getLastD_mem (last ▸ present)
  rw [last] at inFront
  exact (List.nodup_append.mp distinct).2.2 id inFront id List.mem_cons_self rfl

/-- A valid result has no stale links: the entry was the last one of its list,
and it went to the end of another. -/
theorem collides_of_rekeys {store : Store Hash} {tree : RbTree Id} {tails : Id -> List Id}
    (valid : ValidIndex store tree tails) {mdata : Id} (indexed : Indexed tree tails mdata)
    (collides : (store.entries mdata).collision_previous ≠ 0 ∨
      (store.entries mdata).collision_next ≠ 0) {hash : Hash}
    (rekeys : Rekeys store tree tails mdata hash) :
    (store.entries mdata).collision_next = 0 ∧ Exists fun other =>
      Indexed tree tails other ∧ other ≠ mdata ∧ (store.entries other).hash = hash := by
  obtain ⟨bound, rekeys⟩ := rekeys
  obtain ⟨next, newTree, newTails, returned, newValid, sameIndexed, -, -⟩ :=
    rekeys bound (Nat.le_refl bound)
  obtain ⟨hashes, previous, previousKept, nextKept⟩ := rekey_rekeyed collides returned
  obtain ⟨head, headIn, member⟩ := (sameIndexed mdata).mpr indexed
  obtain ⟨front, back, list⟩ := List.append_of_mem member
  have chain := newValid.chained head headIn
  have distinct := newValid.distinct head headIn
  have members := fun id => @ValidIndex.hash_of_mem _ _ _ _ _ newValid head id headIn
  rw [list] at chain distinct members
  have noNext : (store.entries mdata).collision_next = 0 := by
    by_contra some
    have following := chain.links.2.symm.trans (nextKept some)
    cases back with
    | nil => exact some following.symm
    | cons id back =>
        -- The next entry would have to lead back to the rekeyed one.
        have isNext : id = (store.entries mdata).collision_next := following
        have present : id ≠ 0 := isNext ▸ some
        have other : id ≠ mdata := by
          rintro rfl
          exact (List.nodup_cons.mp (List.nodup_append.mp distinct).2.1).1 List.mem_cons_self
        rw [List.append_cons] at chain
        have back := chain.links.1
        rw [previous id other, if_pos ⟨isNext, present⟩, List.getLastD_concat] at back
        exact valid.previous_ne indexed back
  have some := previousKept (collides.resolve_right (not_not.mpr noNext))
  rw [chain.links.1] at some
  obtain ⟨rest, frontEq⟩ : Exists fun rest => front = head :: rest := by
    cases front with
    | nil => exact absurd rfl some
    | cons first rest => exact ⟨rest, (List.cons.inj list).1 ▸ rfl⟩
  have first : head ∈ front := frontEq ▸ List.mem_cons_self
  have other : head ≠ mdata := (List.nodup_append.mp distinct).2.2 head first mdata List.mem_cons_self
  refine ⟨noNext, head, (sameIndexed head).mp ⟨head, headIn, List.mem_cons_self⟩, other, ?_⟩
  have hashed := (members mdata (List.mem_append_right _ List.mem_cons_self)).symm
  rw [hashes, hashes, if_neg other, if_pos rfl] at hashed
  exact hashed

/-! ## From the end of one list to the end of another -/

/-- The tree links of an entry and its hash are the same. -/
structure Kept (old new : Links Hash) : Prop where
  hash : new.hash = old.hash
  links : Renamed id old new

/-- One collision list has changed, and an entry outside the tree with it. -/
theorem ValidIndex.rechain {store next : Store Hash} {tree : RbTree Id} {tails : Id -> List Id}
    (valid : ValidIndex store tree tails) {mdata head : Id} {tail : List Id}
    (outside : mdata ∉ tree.inorder)
    (kept : forall other, other ≠ mdata -> Kept (store.entries other) (next.entries other))
    (root : next.hash_root = store.hash_root)
    (others : forall other, other ∈ tree.inorder -> other ≠ head ->
      forall entry, entry ∈ other :: tails other -> entry ≠ mdata ∧
        (next.entries entry).collision_previous = (store.entries entry).collision_previous ∧
        (next.entries entry).collision_next = (store.entries entry).collision_next)
    (chain : IsChain next.entries 0 (head :: tail) 0) (distinct : (head :: tail).Nodup)
    (sameHash : forall entry, entry ∈ tail ->
      (next.entries entry).hash = (next.entries head).hash)
    (detached : forall entry, entry ∈ tail -> (next.entries entry).up = 0 ∧
      (next.entries entry).left = 0 ∧ (next.entries entry).right = 0) :
    ValidIndex next tree (Function.update tails head tail) := by
  have inTree : forall other, other ∈ tree.inorder ->
      Kept (store.entries other) (next.entries other) :=
    fun other member => kept other (ne_of_mem_of_not_mem member outside)
  have isTree : IsTree next.entries 0 tree := by
    have renamed := @IsTree.map _ _ next.entries id _ _ valid.holds.isTree rfl
      (fun other => valid.holds.isTree.ne_zero) (fun other member => (inTree other member).links)
    have unrenamed : tree.map id = tree := RbTree.map_eq_self fun _ _ => rfl
    rwa [unrenamed] at renamed
  constructor
  · exact ⟨isTree, valid.holds.distinct, root.trans valid.holds.root⟩
  · exact valid.redBlack
  · refine valid.ordered.imp_of_mem fun {one two} oneIn twoIn less => ?_
    rwa [(inTree one oneIn).hash, (inTree two twoIn).hash]
  all_goals
    intro other otherIn
    by_cases isHead : other = head
  · rw [isHead, Function.update_self]
    exact chain
  · rw [Function.update_of_ne isHead]
    exact (valid.chained other otherIn).congr
      fun entry member => (others other otherIn isHead entry member).2
  · rw [isHead, Function.update_self]
    exact distinct
  · rw [Function.update_of_ne isHead]
    exact valid.distinct other otherIn
  · rw [isHead, Function.update_self]
    exact sameHash
  · rw [Function.update_of_ne isHead]
    intro entry member
    have away := (others other otherIn isHead entry (List.mem_cons_of_mem other member)).1
    rw [(kept entry away).hash, (inTree other otherIn).hash]
    exact valid.sameHash other otherIn entry member
  · rw [isHead, Function.update_self]
    exact detached
  · rw [Function.update_of_ne isHead]
    intro entry member
    have links :=
      (kept entry (others other otherIn isHead entry (List.mem_cons_of_mem other member)).1).links
    rw [links.up, links.left, links.right]
    exact valid.detached other otherIn entry member

/-- An entry is in the list of one head only. -/
theorem ValidIndex.list_unique {store : Store Hash} {tree : RbTree Id} {tails : Id -> List Id}
    (valid : ValidIndex store tree tails) {one two entry : Id} (oneIn : one ∈ tree.inorder)
    (twoIn : two ∈ tree.inorder) (inOne : entry ∈ one :: tails one)
    (inTwo : entry ∈ two :: tails two) : one = two :=
  valid.head_unique oneIn twoIn
    ((valid.hash_of_mem oneIn inOne).symm.trans (valid.hash_of_mem twoIn inTwo))

/-- The entries that are indexed after a list has changed. -/
theorem indexed_update {tree : RbTree Id} {tails : Id -> List Id} {head : Id} {tail : List Id}
    (headIn : head ∈ tree.inorder) (entry : Id) :
    Indexed tree (Function.update tails head tail) entry ↔ entry ∈ head :: tail ∨
      Exists fun other => other ∈ tree.inorder ∧ other ≠ head ∧ entry ∈ other :: tails other := by
  constructor
  · rintro ⟨other, otherIn, member⟩
    by_cases isHead : other = head
    · rw [isHead, Function.update_self] at member
      exact Or.inl member
    · rw [Function.update_of_ne isHead] at member
      exact Or.inr ⟨other, otherIn, isHead, member⟩
  · rintro (member | ⟨other, otherIn, notHead, member⟩)
    · exact ⟨head, headIn, by rwa [Function.update_self]⟩
    · exact ⟨other, otherIn, by rwa [Function.update_of_ne notHead]⟩

/-- A collision list goes on behind one of its entries that is not the head. -/
theorem ValidIndex.skip {store last : Store Hash} {tree : RbTree Id} {tails : Id -> List Id}
    (valid : ValidIndex store tree tails) {head mdata previous : Id} {front back : List Id}
    (headIn : head ∈ tree.inorder)
    (list : head :: tails head = front ++ previous :: mdata :: back)
    (atPrevious : last.entries previous =
      { store.entries previous with collision_next := back.headD 0 })
    (atNext : back.headD 0 ≠ 0 -> last.entries (back.headD 0) =
      { store.entries (back.headD 0) with collision_previous := previous })
    (elsewhere : forall id, id ≠ mdata -> id ≠ previous ->
      (back.headD 0 ≠ 0 -> id ≠ back.headD 0) -> last.entries id = store.entries id)
    (root : last.hash_root = store.hash_root) :
    Exists fun tail => head :: tail = front ++ previous :: back ∧
      ValidIndex last tree (Function.update tails head tail) ∧
      (forall id, Indexed tree (Function.update tails head tail) id ↔
        Indexed tree tails id ∧ id ≠ mdata) ∧
      forall id, id ≠ mdata -> Kept (store.entries id) (last.entries id) := by
  have chain := valid.chained head headIn
  have distinct := valid.distinct head headIn
  rw [list] at chain distinct
  obtain ⟨tail, listed⟩ : Exists fun tail => head :: tail = front ++ previous :: back := by
    cases front with
    | nil => exact ⟨back, congrArg (· :: back) (List.cons.inj list).1⟩
    | cons first front => exact ⟨front ++ previous :: back, congrArg (· :: _) (List.cons.inj list).1⟩
  have whole : forall id, id ∈ head :: tails head ↔ id ∈ head :: tail ∨ id = mdata := by
    intro id
    rw [list, listed]
    simp only [List.mem_append, List.mem_cons]
    tauto
  have notMdata : mdata ∉ head :: tail := by
    rw [listed]
    grind
  have nextIn : back.headD 0 ≠ 0 -> back.headD 0 ∈ back := by
    cases back with
    | nil => exact fun impossible => absurd rfl impossible
    | cons id rest => exact fun _ => List.mem_cons_self
  have kept : forall id, id ≠ mdata -> Kept (store.entries id) (last.entries id) := by
    intro id other
    by_cases isPrevious : id = previous
    · rw [isPrevious, atPrevious]
      exact ⟨rfl, rfl, rfl, rfl, rfl⟩
    · by_cases isNext : back.headD 0 ≠ 0 ∧ id = back.headD 0
      · rw [isNext.2, atNext isNext.1]
        exact ⟨rfl, rfl, rfl, rfl, rfl⟩
      · rw [elsewhere id other isPrevious fun some same => isNext ⟨some, same⟩]
        exact ⟨rfl, rfl, rfl, rfl, rfl⟩
  have inTail : forall entry, entry ∈ tail -> entry ∈ tails head := by
    intro entry member
    have distinctTail : head ∉ tail := by
      have nodup : (head :: tail).Nodup := by
        rw [listed]
        grind
      exact (List.nodup_cons.mp nodup).1
    have either := (whole entry).mpr (Or.inl (List.mem_cons_of_mem head member))
    exact (List.mem_cons.mp either).resolve_left fun same => distinctTail (same ▸ member)
  have outside : mdata ∉ tree.inorder := by
    intro inTree
    have same := valid.list_unique inTree headIn List.mem_cons_self
      ((whole mdata).mpr (Or.inr rfl))
    exact notMdata (same ▸ List.mem_cons_self)
  have elsewhereLists : forall other, other ∈ tree.inorder -> other ≠ head ->
      forall entry, entry ∈ other :: tails other -> entry ∉ head :: tails head :=
    fun other otherIn different entry inOther inList =>
      different (valid.list_unique otherIn headIn inOther inList)
  refine ⟨tail, listed, valid.rechain outside kept root ?_ ?_ ?_ ?_ ?_, fun id => ?_, kept⟩
  · intro other otherIn different entry inOther
    have away := elsewhereLists other otherIn different entry inOther
    rw [list] at away
    have notHere : entry ≠ mdata := by grind
    rw [elsewhere entry notHere (by grind) (by grind)]
    exact ⟨notHere, rfl, rfl⟩
  · rw [listed]
    obtain ⟨first, previousPresent, previousLink, -, mdataPresent, -, -, rest⟩ :=
      IsChain.append.mp chain
    refine IsChain.append.mpr ⟨first.congr fun entry member => ?_, previousPresent, ?_, ?_, ?_⟩
    · rw [elsewhere entry (by grind) (by grind) (by grind)]
      exact ⟨rfl, rfl⟩
    · rw [atPrevious]
      exact previousLink
    · rw [atPrevious]
    · cases back with
      | nil => trivial
      | cons next back =>
          obtain ⟨nextPresent, -, nextLink, others⟩ := rest
          rw [List.headD_cons] at atNext elsewhere
          refine ⟨nextPresent, ?_, ?_, others.congr fun entry member => ?_⟩
          · rw [atNext nextPresent]
          · rw [atNext nextPresent]
            exact nextLink
          · rw [elsewhere entry (by grind) (by grind) (by grind)]
            exact ⟨rfl, rfl⟩
  · rw [listed]
    grind
  · intro entry member
    have inList := List.mem_cons_of_mem head (inTail entry member)
    rw [(kept entry (ne_of_mem_of_not_mem (List.mem_cons_of_mem head member) notMdata)).hash,
      (kept head (ne_of_mem_of_not_mem List.mem_cons_self notMdata)).hash]
    exact valid.hash_of_mem headIn inList
  · intro entry member
    have links := (kept entry
      (ne_of_mem_of_not_mem (List.mem_cons_of_mem head member) notMdata)).links
    rw [links.up, links.left, links.right]
    exact valid.detached head headIn entry (inTail entry member)
  · rw [indexed_update headIn]
    constructor
    · rintro (inList | ⟨other, otherIn, different, inOther⟩)
      · exact ⟨⟨head, headIn, (whole id).mpr (Or.inl inList)⟩,
          ne_of_mem_of_not_mem inList notMdata⟩
      · refine ⟨⟨other, otherIn, inOther⟩, ?_⟩
        rintro rfl
        exact elsewhereLists other otherIn different id inOther ((whole id).mpr (Or.inr rfl))
    · rintro ⟨⟨other, otherIn, inOther⟩, different⟩
      by_cases isHead : other = head
      · rw [isHead] at inOther
        exact Or.inl (((whole id).mp inOther).resolve_right different)
      · exact Or.inr ⟨other, otherIn, isHead, inOther⟩

omit [LinearOrder Hash] in
/-- Removing an entry that is not the head of its collision list tells its neighbours. -/
theorem removeHash_tail {store : Store Hash} {mdata previous next : Id} (present : mdata ≠ 0)
    (previousLink : (store.entries mdata).collision_previous = previous)
    (nextLink : (store.entries mdata).collision_next = next) (some : previous ≠ 0)
    (detached : (store.entries mdata).up = 0 ∧ (store.entries mdata).left = 0 ∧
      (store.entries mdata).right = 0) (fuel : Nat) :
    store.removeHash (fuel + 1) mdata = .ok
      ((if next = 0 then
          store.modify previous fun links => { links with collision_next := next }
        else
          (store.modify previous fun links => { links with collision_next := next }).modify next
            fun links => { links with collision_previous := previous }).cleanupHash mdata) := by
  have notSelf : store.selfReference mdata = false := by
    unfold Store.selfReference
    simp [detached, present.symm]
  rw [Store.removeHash, Store.doRemoveHash]
  simp only [notSelf, Bool.false_eq_true, if_false, previousLink, nextLink, ne_eq, some,
    not_false_eq_true, true_or, if_true, Store.doRemoveHashCollision]
  by_cases last : next = 0
  · rw [if_pos last, last]
    rfl
  · rw [if_neg last]
    simp only [bind, Except.bind, last, if_false]

/-- An entry that is not the head can be taken off its collision list.  What its own links are
afterwards does not matter. -/
theorem ValidIndex.unchain {store : Store Hash} {tree : RbTree Id} {tails : Id -> List Id}
    (valid : ValidIndex store tree tails) {head mdata previous : Id} {front back : List Id}
    (headIn : head ∈ tree.inorder)
    (list : head :: tails head = front ++ previous :: mdata :: back) :
    Exists fun next => Exists fun tail =>
      (forall fuel, store.removeHash (fuel + 1) mdata = .ok next) ∧
      head :: tail = front ++ previous :: back ∧
      (forall last : Store Hash, (forall id, id ≠ mdata -> last.entries id = next.entries id) ->
        last.hash_root = next.hash_root ->
        ValidIndex last tree (Function.update tails head tail)) ∧
      (forall id, Indexed tree (Function.update tails head tail) id ↔
        Indexed tree tails id ∧ id ≠ mdata) ∧
      (forall id, id ≠ mdata -> Kept (store.entries id) (next.entries id)) ∧
      (next.entries mdata).hash = (store.entries mdata).hash ∧
      (next.entries mdata).collision_next = (store.entries mdata).collision_next ∧
      next.hash_root = store.hash_root := by
  have chain := valid.chained head headIn
  have distinct := valid.distinct head headIn
  rw [list] at chain distinct
  have listed : front ++ previous :: mdata :: back = (front ++ [previous]) ++ mdata :: back :=
    List.append_cons _ _ _
  obtain ⟨previousLink, nextLink⟩ := (listed ▸ chain).links
  rw [List.getLastD_concat] at previousLink
  have mdataIn : mdata ∈ tails head := by
    have member : mdata ∈ head :: tails head := by
      rw [list]
      simp
    refine (List.mem_cons.mp member).resolve_left ?_
    rintro rfl
    cases front with
    | nil =>
        obtain ⟨rfl, -⟩ := List.cons.inj list
        grind
    | cons first front =>
        obtain ⟨rfl, -⟩ := List.cons.inj list
        grind
  have present : mdata ≠ 0 := chain.ne_zero (by simp)
  have some : previous ≠ 0 := chain.ne_zero (by simp)
  have detached := valid.detached head headIn mdata mdataIn
  have removed := removeHash_tail present previousLink nextLink some detached
  obtain ⟨next, nextEq⟩ : Exists fun next => next =
      (if back.headD 0 = 0 then
          store.modify previous fun links => { links with collision_next := back.headD 0 }
        else
          (store.modify previous fun links => { links with collision_next := back.headD 0 }).modify
            (back.headD 0) fun links => { links with collision_previous := previous }).cleanupHash
        mdata := ⟨_, rfl⟩
  rw [← nextEq] at removed
  have nextIn : back.headD 0 ≠ 0 -> back.headD 0 ∈ back := by
    cases back with
    | nil => exact fun impossible => absurd rfl impossible
    | cons id rest => exact fun _ => List.mem_cons_self
  have previousNext : back.headD 0 ≠ 0 -> previous ≠ back.headD 0 := by grind
  have previousMdata : previous ≠ mdata := by grind
  have nextMdata : back.headD 0 ≠ 0 -> back.headD 0 ≠ mdata := by grind
  have atPrevious : next.entries previous =
      { store.entries previous with collision_next := back.headD 0 } := by
    rw [nextEq, Store.cleanupHash, Store.modify_ne _ previousMdata]
    split
    · rw [Store.modify_same]
    · next last => rw [Store.modify_ne _ (previousNext last), Store.modify_same]
  have atNext : back.headD 0 ≠ 0 -> next.entries (back.headD 0) =
      { store.entries (back.headD 0) with collision_previous := previous } := by
    intro last
    rw [nextEq, Store.cleanupHash, Store.modify_ne _ (nextMdata last), if_neg last,
      Store.modify_same, Store.modify_ne _ (previousNext last).symm]
  have elsewhere : forall id, id ≠ mdata -> id ≠ previous ->
      (back.headD 0 ≠ 0 -> id ≠ back.headD 0) -> next.entries id = store.entries id := by
    intro id notMdata notPrevious notNext
    rw [nextEq, Store.cleanupHash, Store.modify_ne _ notMdata]
    split
    · rw [Store.modify_ne _ notPrevious]
    · next last => rw [Store.modify_ne _ (notNext last), Store.modify_ne _ notPrevious]
  have root : next.hash_root = store.hash_root := by
    rw [nextEq]
    split <;> rfl
  obtain ⟨tail, same, -, indexed, kept⟩ := valid.skip headIn list atPrevious atNext elsewhere root
  have own : (next.entries mdata).hash = (store.entries mdata).hash ∧
      (next.entries mdata).collision_next = (store.entries mdata).collision_next := by
    rw [nextEq, Store.cleanupHash, Store.modify_same]
    split
    · rw [Store.modify_ne _ previousMdata.symm]
      exact ⟨rfl, rfl⟩
    · next last =>
        rw [Store.modify_ne _ (nextMdata last).symm, Store.modify_ne _ previousMdata.symm]
        exact ⟨rfl, rfl⟩
  refine ⟨next, tail, removed, same, fun last agrees lastRoot => ?_, indexed, kept, own.1, own.2,
    root⟩
  obtain ⟨tail', same', lastValid, -, -⟩ := valid.skip headIn list
    ((agrees previous previousMdata).trans atPrevious)
    (fun some => (agrees _ (nextMdata some)).trans (atNext some))
    (fun id notMdata notPrevious notNext =>
      (agrees id notMdata).trans (elsewhere id notMdata notPrevious notNext))
    (lastRoot.trans root)
  obtain rfl := (List.cons.inj (same'.trans same.symm)).2
  exact lastValid

theorem Descends.ne_zero {entries : Id -> Links Hash} {hash : Hash} {first last : Id}
    (way : Descends entries hash first last) (present : last ≠ 0) : first ≠ 0 := by
  cases way with
  | here => exact present
  | left present => exact present
  | right present => exact present

/-- The insertion descends as a lookup does. -/
theorem Descends.insertBelow {store : Store Hash} {hash : Hash} {first last mdata : Id}
    (way : Descends store.entries hash first last) (present : last ≠ 0)
    (own : (store.entries mdata).hash = hash) :
    Exists fun steps => forall fuel, store.insertBelow (fuel + steps) first mdata =
      store.insertBelow fuel last mdata := by
  induction way with
  | here id => exact ⟨0, fun _ => rfl⟩
  | left some less below inductionHypothesis =>
      obtain ⟨steps, follows⟩ := inductionHypothesis present
      have below := below.ne_zero present
      refine ⟨steps + 1, fun fuel => ?_⟩
      rw [← Nat.add_assoc, Store.insertBelow]
      simp only [own, if_neg some, if_pos less, ne_eq, below, not_false_eq_true, if_true, follows]
  | right some less below inductionHypothesis =>
      obtain ⟨steps, follows⟩ := inductionHypothesis present
      have below := below.ne_zero present
      refine ⟨steps + 1, fun fuel => ?_⟩
      rw [← Nat.add_assoc, Store.insertBelow]
      simp only [own, if_neg some, if_neg less.not_gt, if_pos less, ne_eq, below,
        not_false_eq_true, if_true, follows]

/-- The insertion appends to the collision list it has come to. -/
theorem IsChain.insertBelow {store : Store Hash} {hash : Hash} {mdata previous last : Id}
    {init : List Id} (chain : IsChain store.entries previous (init ++ [last]) 0)
    (sameHash : forall id, id ∈ init ++ [last] -> (store.entries id).hash = hash)
    (own : (store.entries mdata).hash = hash) (fuel : Nat) :
    store.insertBelow (fuel + init.length + 1) ((init ++ [last]).headD 0) mdata =
      .ok ((store.modify last fun links => { links with collision_next := mdata }).modify mdata
        fun links => { links with collision_previous := last }) := by
  induction init generalizing previous with
  | nil =>
      obtain ⟨present, -, noNext, -⟩ := chain
      have noNext : (store.entries last).collision_next = 0 := noNext
      have same := sameHash last List.mem_cons_self
      rw [Store.insertBelow]
      simp only [List.nil_append, List.headD_cons, if_neg present, own, same, lt_irrefl, if_false,
        noNext, ne_eq, not_true_eq_false]
  | cons id init inductionHypothesis =>
      rw [List.cons_append] at chain
      obtain ⟨present, -, next, rest⟩ := chain
      have same := sameHash id List.mem_cons_self
      have tail := inductionHypothesis rest
        fun other member => sameHash other (List.mem_cons_of_mem id member)
      have some : (init ++ [last]).headD 0 ≠ 0 := by
        refine rest.ne_zero ?_
        cases init <;> exact List.mem_cons_self
      rw [List.length_cons, ← Nat.add_assoc, Store.insertBelow]
      simp only [List.cons_append, List.headD_cons, if_neg present, own, same, lt_irrefl, if_false,
        next, ne_eq, some, not_false_eq_true, if_true, tail]

/-- An entry outside the index is appended to the list of its hash, and nothing is moved in the
tree. -/
theorem ValidIndex.appended {store : Store Hash} {tree : RbTree Id} {tails : Id -> List Id}
    (valid : ValidIndex store tree tails) {mdata : Id} (present : mdata ≠ 0)
    (notIndexed : ¬ Indexed tree tails mdata)
    (noNext : (store.entries mdata).collision_next = 0) {head : Id} (headIn : head ∈ tree.inorder)
    (headHash : (store.entries head).hash = (store.entries mdata).hash) :
    Exists fun next => Exists fun bound =>
      (forall fuel, bound ≤ fuel -> store.insertHash fuel mdata = .ok next) ∧
      ValidIndex next tree (Function.update tails head (tails head ++ [mdata])) ∧
      (forall id, Indexed tree (Function.update tails head (tails head ++ [mdata])) id ↔
        Indexed tree tails id ∨ id = mdata) ∧
      (forall id, id ≠ mdata -> Kept (store.entries id) (next.entries id)) ∧
      (next.entries mdata).color = .black ∧ next.hash_root = store.hash_root := by
  obtain ⟨init, last, list⟩ : Exists fun init => Exists fun last =>
      head :: tails head = init ++ [last] := by
    rcases List.eq_nil_or_concat (head :: tails head) with none | ⟨init, last, list⟩
    · exact absurd none (List.cons_ne_nil _ _)
    · exact ⟨init, last, list.trans List.concat_eq_append⟩
  have lastIn : last ∈ head :: tails head := list ▸ List.mem_append_right _ List.mem_cons_self
  have indexed : forall id, id ∈ head :: tails head -> id ≠ mdata := fun id member same =>
    notIndexed ⟨head, headIn, same ▸ member⟩
  have notLast : last ≠ mdata := indexed last lastIn
  have outside : mdata ∉ tree.inorder := fun inTree =>
    notIndexed ⟨mdata, inTree, List.mem_cons_self⟩
  -- The insertion proper, on the store with the entry's tree links cleared.
  obtain ⟨base, baseEq⟩ : Exists fun base => base = store.cleanupHash mdata := ⟨_, rfl⟩
  have baseElse : forall id, id ≠ mdata -> base.entries id = store.entries id := by
    intro id different
    rw [baseEq, Store.cleanupHash, Store.modify_ne _ different]
  have baseOwn : base.entries mdata =
      { store.entries mdata with up := 0, left := 0, right := 0 } := by
    rw [baseEq]
    exact Store.modify_same _ _ _
  have baseHolds : Holds base tree := baseEq ▸ valid.holds.cleanupHash outside
  have baseHash : forall id, (base.entries id).hash = (store.entries id).hash :=
    fun id => baseEq ▸ ((store.sameKeys_cleanupHash mdata) id).1
  have way : Descends base.entries (store.entries mdata).hash (rootId tree) head := by
    have ordered : tree.inorder.Pairwise fun one two =>
        (base.entries one).hash < (base.entries two).hash := by
      simp only [baseHash]
      exact valid.ordered
    rcases baseHolds.isTree.descends ordered (store.entries mdata).hash with
      ⟨found, foundIn, same, way⟩ | ⟨none, -⟩
    · rw [baseHash] at same
      exact valid.head_unique foundIn headIn (same.trans headHash.symm) ▸ way
    · exact absurd ((baseHash head).trans headHash) (none head headIn)
  obtain ⟨steps, descended⟩ := way.insertBelow (valid.holds.isTree.ne_zero headIn) (baseHash mdata)
  have baseChain : IsChain base.entries 0 (init ++ [last]) 0 := by
    rw [← list]
    refine (valid.chained head headIn).congr fun id member => ?_
    rw [baseElse id (indexed id member)]
    exact ⟨rfl, rfl⟩
  have inserted := baseChain.insertBelow (fun id member => (baseHash id).trans
    ((valid.hash_of_mem headIn (list ▸ member)).trans headHash)) (baseHash mdata)
  rw [← list, List.headD_cons] at inserted
  obtain ⟨next, nextEq⟩ : Exists fun next => next =
    ((((base.modify last fun links => { links with collision_next := mdata }).modify mdata
      fun links => { links with collision_previous := last }).setColor mdata .red).setColor mdata
        .black) := ⟨_, rfl⟩
  have nextOwn : next.entries mdata = { store.entries mdata with
      up := 0, left := 0, right := 0, collision_previous := last, color := .black } := by
    rw [nextEq, Store.setColor, Store.modify_same, Store.setColor, Store.modify_same,
      Store.modify_same, Store.modify_ne _ notLast.symm, baseOwn]
  have nextElse : forall id, id ≠ mdata -> next.entries id =
      (base.modify last fun links => { links with collision_next := mdata }).entries id := by
    intro id different
    rw [nextEq, Store.setColor, Store.modify_ne _ different, Store.setColor,
      Store.modify_ne _ different, Store.modify_ne _ different]
  have nextLast : next.entries last = { store.entries last with collision_next := mdata } := by
    rw [nextElse last notLast, Store.modify_same, baseElse last notLast]
  have nextOthers : forall id, id ≠ mdata -> id ≠ last -> next.entries id = store.entries id := by
    intro id different differentLast
    rw [nextElse id different, Store.modify_ne _ differentLast, baseElse id different]
  have kept : forall id, id ≠ mdata -> Kept (store.entries id) (next.entries id) := by
    intro id different
    by_cases isLast : id = last
    · rw [isLast, nextLast]
      exact ⟨rfl, rfl, rfl, rfl, rfl⟩
    · rw [nextOthers id different isLast]
      exact ⟨rfl, rfl, rfl, rfl, rfl⟩
  have nextRoot : next.hash_root = store.hash_root := by
    rw [nextEq, baseEq]
    rfl
  refine ⟨next, init.length + 1 + steps, fun fuel enough => ?_, ?_, fun id => ?_, kept,
    congrArg Links.color nextOwn, nextRoot⟩
  · obtain ⟨fuel, rfl⟩ := Nat.exists_eq_add_of_le' enough
    have below : base.insertBelow (fuel + (init.length + 1 + steps)) base.hash_root mdata = .ok
        ((base.modify last fun links => { links with collision_next := mdata }).modify mdata
          fun links => { links with collision_previous := last }) := by
      rw [baseHolds.root, ← Nat.add_assoc, descended]
      exact inserted fuel
    have top : (((((base.modify last fun links => { links with collision_next := mdata }).modify
        mdata fun links => { links with collision_previous := last }).setColor mdata .red).entries
          mdata).up) = 0 := by
      rw [Store.setColor, Store.modify_same, Store.modify_same, Store.modify_ne _ notLast.symm,
        baseOwn]
    rw [Store.insertHash, Store.doInsertHash, ← baseEq]
    simp only [below, bind, Except.bind]
    rw [← Nat.add_assoc, ← Nat.add_assoc, Nat.add_right_comm, Store.repairHash]
    simp only [top, if_true]
    rw [nextEq]
  · have members : forall entry, entry ∈ tails head ++ [mdata] ->
        entry ∈ tails head ∨ entry = mdata := by
      intro entry member
      exact (List.mem_append.mp member).imp_right List.mem_singleton.mp
    have notHead : head ≠ mdata := indexed head List.mem_cons_self
    refine valid.rechain outside kept nextRoot ?_ ?_ ?_ ?_ ?_
    · intro other otherIn different entry inOther
      have notMdata : entry ≠ mdata := fun same => notIndexed ⟨other, otherIn, same ▸ inOther⟩
      have differentLast : entry ≠ last := by
        rintro rfl
        exact different (valid.list_unique otherIn headIn inOther lastIn)
      rw [nextOthers entry notMdata differentLast]
      exact ⟨notMdata, rfl, rfl⟩
    · have chain := valid.chained head headIn
      have distinct := valid.distinct head headIn
      rw [← List.cons_append, list]
      rw [list] at chain distinct indexed
      obtain ⟨before, lastPresent, lastLink, -, -⟩ := IsChain.append.mp chain
      refine IsChain.append.mpr ⟨IsChain.append.mpr ⟨before.congr fun entry member => ?_,
        lastPresent, ?_, ?_, trivial⟩, present, ?_, ?_, trivial⟩
      · have differentLast : entry ≠ last :=
          (List.nodup_append.mp distinct).2.2 entry member last List.mem_cons_self
        rw [nextOthers entry (indexed entry (List.mem_append_left _ member)) differentLast]
        exact ⟨rfl, rfl⟩
      · rw [nextLast]
        exact lastLink
      · rw [nextLast]
        rfl
      · rw [nextOwn, List.getLastD_concat]
      · rw [nextOwn]
        exact noNext
    · have distinct := valid.distinct head headIn
      rw [← List.cons_append]
      refine List.nodup_append.mpr ⟨distinct, List.nodup_singleton mdata, ?_⟩
      intro entry member other inLast
      exact List.mem_singleton.mp inLast ▸ indexed entry member
    · intro entry member
      rw [(kept head notHead).hash, headHash]
      rcases members entry member with inTail | rfl
      · have inList := List.mem_cons_of_mem head inTail
        rw [(kept entry (indexed entry inList)).hash, valid.hash_of_mem headIn inList, headHash]
      · rw [nextOwn]
    · intro entry member
      rcases members entry member with inTail | rfl
      · have links := (kept entry (indexed entry (List.mem_cons_of_mem head inTail))).links
        rw [links.up, links.left, links.right]
        exact valid.detached head headIn entry inTail
      · rw [nextOwn]
        exact ⟨rfl, rfl, rfl⟩
  · rw [indexed_update headIn, ← List.cons_append, List.mem_append, List.mem_singleton]
    constructor
    · rintro ((member | same) | ⟨other, otherIn, -, member⟩)
      · exact Or.inl ⟨head, headIn, member⟩
      · exact Or.inr same
      · exact Or.inl ⟨other, otherIn, member⟩
    · rintro (⟨other, otherIn, member⟩ | same)
      · by_cases isHead : other = head
        · exact Or.inl (Or.inl (isHead ▸ member))
        · exact Or.inr ⟨other, otherIn, isHead, member⟩
      · exact Or.inl (Or.inr same)

/-- The last entry of a collision list has one before it. -/
theorem ValidIndex.last_of_list {store : Store Hash} {tree : RbTree Id} {tails : Id -> List Id}
    (valid : ValidIndex store tree tails) {mdata : Id} (indexed : Indexed tree tails mdata)
    (noNext : (store.entries mdata).collision_next = 0)
    (some : (store.entries mdata).collision_previous ≠ 0) :
    Exists fun head => head ∈ tree.inorder ∧ Exists fun front => Exists fun previous =>
      head :: tails head = front ++ [previous, mdata] := by
  obtain ⟨head, headIn, member⟩ := indexed
  obtain ⟨front, back, list⟩ := List.append_of_mem member
  have chain := valid.chained head headIn
  rw [list] at chain
  have noBack : back = [] := by
    cases back with
    | nil => rfl
    | cons id back =>
        have next := chain.links.2.symm.trans noNext
        rw [List.append_cons] at chain
        exact absurd next (IsChain.append.mp chain).2.1
  subst noBack
  rcases List.eq_nil_or_concat front with none | ⟨init, previous, frontEq⟩
  · subst none
    exact absurd chain.links.1 some
  · refine ⟨head, headIn, init, previous, ?_⟩
    rw [list, frontEq, List.concat_eq_append, List.append_assoc]
    rfl

/-- Rekeying an entry of a collision list is right exactly for the last entry
of its list, when it goes to the end of another one. -/
theorem rekey_valid_iff (store : Store Hash) (tree : RbTree Id) (tails : Id -> List Id)
    (valid : ValidIndex store tree tails) (mdata : Id) (indexed : Indexed tree tails mdata)
    (collides : (store.entries mdata).collision_previous ≠ 0 ∨
      (store.entries mdata).collision_next ≠ 0) (hash : Hash) :
    Rekeys store tree tails mdata hash ↔
      (store.entries mdata).collision_next = 0 ∧ Exists fun other =>
        Indexed tree tails other ∧ other ≠ mdata ∧ (store.entries other).hash = hash := by
  constructor
  · exact collides_of_rekeys valid indexed collides
  · rintro ⟨noNext, other, otherIndexed, different, otherHash⟩
    have some := collides.resolve_right (not_not.mpr noNext)
    obtain ⟨head, headIn, front, previous, list⟩ := valid.last_of_list indexed noNext some
    obtain ⟨middle, tail, removed, -, agrees, middleIndexed, kept, own, middleNext, -⟩ :=
      valid.unchain headIn list
    have middleHash : forall id, (middle.entries id).hash = (store.entries id).hash := by
      intro id
      by_cases same : id = mdata
      · rw [same, own]
      · exact (kept id same).hash
    obtain ⟨changed, changedEq⟩ : Exists fun changed => changed =
      middle.modify mdata fun links => { links with hash := hash } := ⟨_, rfl⟩
    have middleValid : ValidIndex (middle.modify mdata fun links => { links with hash := hash })
        tree (Function.update tails head tail) :=
      agrees _ (fun id other => Store.modify_ne _ other _) rfl
    rw [← changedEq] at middleValid
    have changedHash : forall id, (changed.entries id).hash =
        if id = mdata then hash else (store.entries id).hash := by
      intro id
      rw [changedEq]
      split
      · next same => rw [same, Store.modify_same]
      · next away => rw [Store.modify_ne _ away, middleHash]
    have changedNext : (changed.entries mdata).collision_next = 0 := by
      rw [changedEq, Store.modify_same]
      exact middleNext.trans noNext
    obtain ⟨target, targetIn, inList⟩ := (middleIndexed other).mpr ⟨otherIndexed, different⟩
    have targetHash : (changed.entries target).hash = (changed.entries mdata).hash := by
      rw [← middleValid.hash_of_mem targetIn inList, changedHash, changedHash, if_neg different,
        if_pos rfl, otherHash]
    obtain ⟨next, bound, inserted, newValid, newIndexed, -⟩ :=
      middleValid.appended (valid.ne_zero indexed)
        (fun still => ((middleIndexed mdata).mp still).2 rfl) changedNext targetIn targetHash
    have sameIndexed : forall id,
        Indexed tree (Function.update (Function.update tails head tail) target
          (Function.update tails head tail target ++ [mdata])) id ↔ Indexed tree tails id := by
      intro id
      rw [newIndexed, middleIndexed]
      by_cases same : id = mdata
      · simp [same, indexed]
      · simp [same]
    have nextHash := fun id =>
      (Store.insertHash_inserted (inserted bound (Nat.le_refl bound))).hash id
    refine ⟨bound + 1, fun fuel enough => ?_⟩
    obtain ⟨fuel, rfl⟩ := Nat.exists_eq_add_of_le' enough
    refine ⟨next, tree, _, ?_, newValid, sameIndexed, fun id => ?_, fun wanted => ?_⟩
    · rw [Store.rekey, ← Nat.add_assoc, removed]
      simp only [bind, Except.bind, ← changedEq]
      exact inserted (fuel + bound + 1) (by omega)
    · rw [nextHash, changedHash]
    · obtain ⟨enough, met⟩ := newValid.met wanted
      refine ⟨enough, fun fuel le => ?_⟩
      obtain ⟨found, returned, nodup, exactly⟩ := met fuel le
      refine ⟨found, returned, nodup, fun id => ?_⟩
      rw [exactly, sameIndexed]

/-- `/` with one entry below it, which has the same hash as a third one. -/
def colliding : Store Nat where
  entries
    | 1 => ⟨5, 0, 2, 0, .black, 0, 0⟩
    | 2 => ⟨7, 0, 0, 1, .red, 3, 0⟩
    | 3 => ⟨7, 0, 0, 0, .black, 0, 2⟩
    | _ => ⟨0, 0, 0, 0, .black, 0, 0⟩
  hash_root := 1

/-- The tree of `colliding`. -/
def collidingTree : RbTree Id :=
  .node .black .leaf 1 (.node .red .leaf 2 .leaf)

/-- The collision lists of `colliding`. -/
def collidingTails (id : Id) : List Id :=
  if id = 2 then [3] else []

theorem colliding_valid : ValidIndex colliding collidingTree collidingTails where
  holds := ⟨by simp [IsTree, collidingTree, colliding, rootId], by decide, rfl⟩
  redBlack := ⟨rfl, 1, 0, rfl, rfl, rfl, rfl, rfl, rfl⟩
  ordered := by decide
  chained := by simp [collidingTree, RbTree.inorder, IsChain, collidingTails, colliding]
  distinct := by decide
  sameHash := by decide
  detached := by decide

theorem rekey_valid_last_to_slash : Rekeys colliding collidingTree collidingTails 3 5 :=
  (rekey_valid_iff _ _ _ colliding_valid 3 ⟨2, by decide, by decide⟩ (by decide) 5).mpr
    ⟨rfl, 1, ⟨1, by decide, by decide⟩, by decide, rfl⟩

/-- The head of a list keeps its link to the list it has left. -/
theorem rekey_head_keeps_link :
    ValidIndex colliding collidingTree collidingTails ∧
      Indexed collidingTree collidingTails 2 ∧
      (colliding.entries 2).collision_next ≠ 0 ∧
      ((colliding.rekey 5 2 9).map fun next => (next.entries 2).collision_next) = .ok 3 ∧
      ¬ Rekeys colliding collidingTree collidingTails 2 9 := by
  have indexed : Indexed collidingTree collidingTails 2 := ⟨2, by decide, by decide⟩
  refine ⟨colliding_valid, indexed, by decide, rfl, fun rekeys => ?_⟩
  exact absurd (collides_of_rekeys colliding_valid indexed (by decide) rekeys).1 (by decide)

end HashIndex
end Mcachefs
