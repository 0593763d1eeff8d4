import Mcachefs.Metadata.HashRemove

namespace Mcachefs
namespace HashIndex

open Library

/-!
# Insertion into the hash index

`insertHash` follows `mcachefs_metadata_insert_hash`: the entry goes below a
leaf of the tree or at the end of the collision list of its hash, and the
colours are repaired on the way up.  `Inserted` collects what every insertion
leaves alone, whatever the state of the index.
-/

variable {Hash : Type}

namespace Store

/-- `mcachefs_metadata_uncle`; `0` for `NULL`. -/
def uncle (store : Store Hash) (id : Id) : Id :=
  let up := (store.entries id).up
  if up ≠ 0 then store.brother up else 0

/-- The loop of `mcachefs_metadata_do_insert_hash`. -/
def insertBelow [LinearOrder Hash] :
    (fuel : Nat) -> (current newmeta : Id) -> Store Hash -> Except Fault (Store Hash)
  | 0, _, _, _ => .error .fuel
  | fuel + 1, current, newmeta, store =>
      let links := store.entries current
      let hash := (store.entries newmeta).hash
      if current = 0 then .error .nullPointer
      else if hash < links.hash then
        if links.left ≠ 0 then insertBelow fuel links.left newmeta store
        else .ok ((store.setChild .left current newmeta).setUp newmeta current)
      else if links.hash < hash then
        if links.right ≠ 0 then insertBelow fuel links.right newmeta store
        else .ok ((store.setChild .right current newmeta).setUp newmeta current)
      else if links.collision_next ≠ 0 then insertBelow fuel links.collision_next newmeta store
      else
        let store := store.modify current fun links => { links with collision_next := newmeta }
        .ok (store.modify newmeta fun links => { links with collision_previous := current })

/-- `mcachefs_metadata_do_insert_hash`. -/
def doInsertHash [LinearOrder Hash] (fuel : Nat) (newmeta : Id) (store : Store Hash) :
    Except Fault (Store Hash) :=
  let store := store.cleanupHash newmeta
  insertBelow fuel store.hash_root newmeta store

/-- `mcachefs_metadata_repair_hash_step4_2`. -/
def repairHashStep42 (newmeta : Id) (store : Store Hash) : Except Fault (Store Hash) :=
  let father := (store.entries newmeta).up
  let grandfather := (store.entries father).up
  if father = 0 ∨ grandfather = 0 then .error .nullPointer
  else
    let store :=
      if newmeta = (store.entries father).left then store.rotateRight grandfather
      else store.rotateLeft grandfather
    .ok ((store.setColor father .black).setColor grandfather .red)

/-- `mcachefs_metadata_repair_hash`. -/
def repairHash : (fuel : Nat) -> (newmeta : Id) -> Store Hash -> Except Fault (Store Hash)
  | 0, _, _ => .error .fuel
  | fuel + 1, newmeta, store =>
      let father := (store.entries newmeta).up
      let uncle := store.uncle newmeta
      if father = 0 then .ok (store.setColor newmeta .black)
      else if (store.entries father).color = .black then .ok store
      else if store.isRed uncle then
        let store := (store.setColor father .black).setColor uncle .black
        let grandfather := (store.entries father).up
        repairHash fuel grandfather (store.setColor grandfather .red)
      else
        let grandfather := (store.entries father).up
        let left := (store.entries grandfather).left
        let right := (store.entries grandfather).right
        if grandfather = 0 then .error .nullPointer
        else if left ≠ 0 ∧ newmeta = (store.entries left).right then
          let store := store.rotateLeft father
          let sibling := (store.entries newmeta).left
          if sibling ≠ 0 then store.repairHashStep42 sibling else .ok store
        else if right ≠ 0 ∧ newmeta = (store.entries right).left then
          let store := store.rotateRight father
          let sibling := (store.entries newmeta).right
          if sibling ≠ 0 then store.repairHashStep42 sibling else .ok store
        else store.repairHashStep42 newmeta

/-- `mcachefs_metadata_insert_hash`. -/
def insertHash [LinearOrder Hash] (fuel : Nat) (newmeta : Id) (store : Store Hash) :
    Except Fault (Store Hash) := do
  let store ← doInsertHash fuel newmeta store
  repairHash fuel newmeta (store.setColor newmeta .red)

/-! ## What an insertion leaves alone -/

theorem repairHashStep42_sameKeys {store next : Store Hash} {newmeta : Id}
    (returned : store.repairHashStep42 newmeta = .ok next) : store.SameKeys next := by
  unfold repairHashStep42 at returned
  simp only at returned
  split at returned
  · cases returned
  · cases returned
    refine SameKeys.trans ?_ (sameKeys_setColor _ _ _)
    refine SameKeys.trans ?_ (sameKeys_setColor _ _ _)
    exact (sameKeys_rotate _ .right _).ite (sameKeys_rotate _ .left _)

/-- The repair changes links and colours, no keys. -/
theorem repairHash_sameKeys {fuel : Nat} {newmeta : Id} {store next : Store Hash}
    (returned : store.repairHash fuel newmeta = .ok next) : store.SameKeys next := by
  induction fuel generalizing newmeta store with
  | zero => cases returned
  | succ fuel inductionHypothesis =>
      -- After the rotation of case 4 comes the second step, if there is an entry for it.
      have rotated : forall {middle : Store Hash} {sibling : Id}, store.SameKeys middle ->
          (if sibling ≠ 0 then middle.repairHashStep42 sibling else .ok middle) = .ok next ->
          store.SameKeys next := by
        intro middle sibling same result
        split at result
        · exact same.trans (repairHashStep42_sameKeys result)
        · cases result
          exact same
      rw [repairHash] at returned
      simp only at returned
      split at returned
      · cases returned
        exact sameKeys_setColor _ _ _
      · split at returned
        · cases returned
          exact SameKeys.refl _
        · split at returned
          · exact (((sameKeys_setColor _ _ _).trans (sameKeys_setColor _ _ _)).trans
              (sameKeys_setColor _ _ _)).trans (inductionHypothesis returned)
          · split at returned
            · cases returned
            · split at returned
              · exact rotated (sameKeys_rotate _ .left _) returned
              · split at returned
                · exact rotated (sameKeys_rotate _ .right _) returned
                · exact repairHashStep42_sameKeys returned

/-- An insertion may append the entry to a collision list, and leaves the rest
of the keys as they are. -/
structure Inserted (newmeta : Id) (store next : Store Hash) : Prop where
  hash : forall id, (next.entries id).hash = (store.entries id).hash
  previous : forall id, id ≠ newmeta ->
    (next.entries id).collision_previous = (store.entries id).collision_previous
  previousKept : (store.entries newmeta).collision_previous ≠ 0 ->
    (next.entries newmeta).collision_previous ≠ 0
  nextKept : forall id, (store.entries id).collision_next ≠ 0 ->
    (next.entries id).collision_next = (store.entries id).collision_next

theorem SameKeys.inserted {store next : Store Hash} (same : store.SameKeys next) (newmeta : Id) :
    Inserted newmeta store next where
  hash id := (same id).1
  previous id _ := (same id).2.2
  previousKept kept := by rwa [(same newmeta).2.2]
  nextKept id _ := (same id).2.1

theorem Inserted.trans {newmeta : Id} {first second third : Store Hash}
    (one : Inserted newmeta first second) (two : Inserted newmeta second third) :
    Inserted newmeta first third where
  hash id := (two.hash id).trans (one.hash id)
  previous id other := (two.previous id other).trans (one.previous id other)
  previousKept kept := two.previousKept (one.previousKept kept)
  nextKept id kept := by
    have still := one.nextKept id kept
    rw [← still]
    exact two.nextKept id (still ▸ kept)

theorem inserted_collision {store : Store Hash} {current newmeta : Id} (present : current ≠ 0)
    (last : (store.entries current).collision_next = 0) :
    Inserted newmeta store
      ((store.modify current fun links => { links with collision_next := newmeta }).modify newmeta
        fun links => { links with collision_previous := current }) := by
  have changed : forall id, id ≠ newmeta ->
      ((store.modify current fun links => { links with collision_next := newmeta }).modify newmeta
        fun links => { links with collision_previous := current }).entries id =
      (store.modify current fun links => { links with collision_next := newmeta }).entries id :=
    fun id other => modify_ne _ other _
  have appended : forall id, id ≠ current ->
      (store.modify current fun links => { links with collision_next := newmeta }).entries id =
        store.entries id := fun id other => modify_ne _ other _
  constructor
  · intro id
    by_cases isNew : id = newmeta <;> by_cases isCurrent : id = current <;>
      simp_all
  · intro id other
    by_cases isCurrent : id = current <;> simp_all
  · intro _
    rwa [modify_same]
  · intro id kept
    have other : id ≠ current := fun same => kept (same ▸ last)
    by_cases isNew : id = newmeta <;> simp_all

theorem insertBelow_inserted [LinearOrder Hash] {fuel : Nat} {current newmeta : Id}
    {store next : Store Hash} (returned : store.insertBelow fuel current newmeta = .ok next) :
    Inserted newmeta store next := by
  induction fuel generalizing current with
  | zero => cases returned
  | succ fuel inductionHypothesis =>
      have linked : forall side, Inserted newmeta store
          ((store.setChild side current newmeta).setUp newmeta current) := fun side =>
        ((sameKeys_setChild _ _ _ _).trans (sameKeys_setUp _ _ _)).inserted newmeta
      rw [insertBelow] at returned
      simp only at returned
      split at returned
      · cases returned
      · next present =>
          split at returned
          · split at returned
            · exact inductionHypothesis returned
            · cases returned
              exact linked .left
          · split at returned
            · split at returned
              · exact inductionHypothesis returned
              · cases returned
                exact linked .right
            · split at returned
              · exact inductionHypothesis returned
              · next last =>
                  cases returned
                  exact inserted_collision present (not_not.mp last)

theorem insertHash_inserted [LinearOrder Hash] {fuel : Nat} {newmeta : Id}
    {store next : Store Hash} (returned : store.insertHash fuel newmeta = .ok next) :
    Inserted newmeta store next := by
  unfold insertHash doInsertHash at returned
  cases below : (store.cleanupHash newmeta).insertBelow fuel (store.cleanupHash newmeta).hash_root
      newmeta with
  | error fault =>
      simp only [below] at returned
      cases returned
  | ok middle =>
      simp only [below] at returned
      exact (((store.sameKeys_cleanupHash newmeta).inserted newmeta).trans
        (insertBelow_inserted below)).trans
        (((middle.sameKeys_setColor newmeta .red).trans (repairHash_sameKeys returned)).inserted
          newmeta)

end Store

end HashIndex
end Mcachefs
