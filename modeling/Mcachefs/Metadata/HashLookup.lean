import Mcachefs.Metadata.HashInsert

namespace Mcachefs
namespace HashIndex

open Library

/-!
# Lookup in the hash index

A descent goes from the root to the entry with a hash, or to the null id where
no entry has it, and the collision list of that entry holds all the others.
`ValidIndex.met` puts both together: what `mcachefs_metadata_find_hash` meets
in a valid index is every entry with the hash, once.
-/

variable {Hash : Type}

/-! ## Collision lists -/

theorem IsChain.append {entries : Id -> Links Hash} {previous next : Id} {front back : List Id} :
    IsChain entries previous (front ++ back) next ↔
      IsChain entries previous front (back.headD next) ∧
        IsChain entries (front.getLastD previous) back next := by
  induction front generalizing previous with
  | nil => simp [IsChain]
  | cons id front inductionHypothesis =>
      have head : (front ++ back).headD next = front.headD (back.headD next) := by
        cases front <;> rfl
      have last : (id :: front).getLastD previous = front.getLastD id := by
        cases front <;> rfl
      simp only [List.cons_append, IsChain, inductionHypothesis, head, last]
      tauto

theorem IsChain.ne_zero {entries : Id -> Links Hash} {previous next : Id} {list : List Id}
    (chain : IsChain entries previous list next) {id : Id} (member : id ∈ list) : id ≠ 0 := by
  obtain ⟨front, back, rfl⟩ := List.append_of_mem member
  exact (IsChain.append.mp chain).2.1

/-- The links of one entry of a collision list. -/
theorem IsChain.links {entries : Id -> Links Hash} {previous next id : Id} {front back : List Id}
    (chain : IsChain entries previous (front ++ id :: back) next) :
    (entries id).collision_previous = front.getLastD previous ∧
      (entries id).collision_next = back.headD next := by
  obtain ⟨-, -, before, after, -⟩ := IsChain.append.mp chain
  exact ⟨before, after⟩

/-- Only the collision links of the entries of a list matter. -/
theorem IsChain.congr {entries other : Id -> Links Hash} {previous next : Id} {list : List Id}
    (chain : IsChain entries previous list next)
    (same : forall id, id ∈ list ->
      (other id).collision_previous = (entries id).collision_previous ∧
        (other id).collision_next = (entries id).collision_next) :
    IsChain other previous list next := by
  induction list generalizing previous with
  | nil => trivial
  | cons id list inductionHypothesis =>
      obtain ⟨present, before, after, rest⟩ := chain
      obtain ⟨sameBefore, sameAfter⟩ := same id List.mem_cons_self
      exact ⟨present, sameBefore.trans before, sameAfter.trans after,
        inductionHypothesis rest fun other member => same other (List.mem_cons_of_mem id member)⟩

/-! ## Descents -/

section Order

variable [LinearOrder Hash]

/-- Following the order of the hashes leads from one entry to another. -/
inductive Descends (entries : Id -> Links Hash) (hash : Hash) : Id -> Id -> Prop
  | here (id : Id) : Descends entries hash id id
  | left {id last : Id} (present : id ≠ 0) (less : hash < (entries id).hash)
      (below : Descends entries hash (entries id).left last) : Descends entries hash id last
  | right {id last : Id} (present : id ≠ 0) (less : (entries id).hash < hash)
      (below : Descends entries hash (entries id).right last) : Descends entries hash id last

/-- In a search tree the descent finds the entry with the hash. -/
theorem IsTree.descends {entries : Id -> Links Hash} {up : Id} {tree : RbTree Id}
    (isTree : IsTree entries up tree)
    (ordered : tree.inorder.Pairwise fun one two => (entries one).hash < (entries two).hash)
    (hash : Hash) :
    (Exists fun head => head ∈ tree.inorder ∧ (entries head).hash = hash ∧
        Descends entries hash (rootId tree) head) ∨
      ((forall id, id ∈ tree.inorder -> (entries id).hash ≠ hash) ∧
        Descends entries hash (rootId tree) 0) := by
  induction tree generalizing up with
  | leaf => exact Or.inr ⟨fun _ impossible => absurd impossible List.not_mem_nil, .here 0⟩
  | node color left id right leftHypothesis rightHypothesis =>
      obtain ⟨present, -, -, leftLink, rightLink, inLeft, inRight⟩ := isTree
      simp only [RbTree.inorder] at ordered ⊢
      obtain ⟨leftOrdered, restOrdered, apart⟩ := List.pairwise_append.mp ordered
      obtain ⟨above, rightOrdered⟩ := List.pairwise_cons.mp restOrdered
      rcases lt_trichotomy hash (entries id).hash with less | same | greater
      · have otherwise : forall other, other ∈ id :: right.inorder ->
            (entries other).hash ≠ hash := by
          intro other member
          rcases List.mem_cons.mp member with rfl | member
          · exact ne_of_gt less
          · exact ne_of_gt (less.trans (above other member))
        rcases leftHypothesis inLeft leftOrdered with ⟨head, member, found, way⟩ | ⟨none, way⟩
        · exact Or.inl ⟨head, List.mem_append_left _ member, found,
            .left present less (leftLink ▸ way)⟩
        · exact Or.inr ⟨fun other member => (List.mem_append.mp member).elim (none other)
            (otherwise other), .left present less (leftLink ▸ way)⟩
      · exact Or.inl ⟨id, List.mem_append_right _ List.mem_cons_self, same.symm, .here id⟩
      · have otherwise : forall other, other ∈ left.inorder -> (entries other).hash ≠ hash :=
          fun other member => ne_of_lt ((apart other member id List.mem_cons_self).trans greater)
        rcases rightHypothesis inRight rightOrdered with ⟨head, member, found, way⟩ | ⟨none, way⟩
        · exact Or.inl ⟨head, List.mem_append_right _ (List.mem_cons_of_mem _ member), found,
            .right present greater (rightLink ▸ way)⟩
        · refine Or.inr ⟨fun other member => ?_, .right present greater (rightLink ▸ way)⟩
          rcases List.mem_append.mp member with before | rest
          · exact otherwise other before
          · rcases List.mem_cons.mp rest with rfl | after
            · exact ne_of_lt greater
            · exact none other after

/-! ## Lookup -/

namespace Store

/-- The entries that the loop of `mcachefs_metadata_find_hash` compares with
its path, when none of them is equal to it. -/
def met (store : Store Hash) (hash : Hash) : (fuel : Nat) -> (current : Id) ->
    Except Fault (List Id)
  | 0, _ => .error .fuel
  | fuel + 1, current =>
      let links := store.entries current
      if current = 0 then .ok []
      else if hash < links.hash then met store hash fuel links.left
      else if links.hash < hash then met store hash fuel links.right
      else do
        let rest ← met store hash fuel links.collision_next
        .ok (current :: rest)

/-- The entry that `mcachefs_metadata_find_hash` returns, `0` for `NULL`, where
`equals` stands for the test of an entry's path. -/
def findHash (store : Store Hash) (equals : Id -> Bool) (hash : Hash) : (fuel : Nat) ->
    (current : Id) -> Except Fault Id
  | 0, _ => .error .fuel
  | fuel + 1, current =>
      let links := store.entries current
      if current = 0 then .ok 0
      else if hash < links.hash then findHash store equals hash fuel links.left
      else if links.hash < hash then findHash store equals hash fuel links.right
      else if equals current then .ok current
      else findHash store equals hash fuel links.collision_next

end Store

theorem Descends.met {store : Store Hash} {hash : Hash} {first last : Id}
    (way : Descends store.entries hash first last) :
    Exists fun steps => forall fuel,
      store.met hash (fuel + steps) first = store.met hash fuel last := by
  induction way with
  | here id => exact ⟨0, fun _ => rfl⟩
  | left present less below inductionHypothesis =>
      obtain ⟨steps, follows⟩ := inductionHypothesis
      refine ⟨steps + 1, fun fuel => ?_⟩
      rw [← Nat.add_assoc, Store.met]
      simp only [if_neg present, if_pos less, follows]
  | right present less below inductionHypothesis =>
      obtain ⟨steps, follows⟩ := inductionHypothesis
      refine ⟨steps + 1, fun fuel => ?_⟩
      rw [← Nat.add_assoc, Store.met]
      simp only [if_neg present, if_neg less.not_gt, if_pos less, follows]

/-- The loop goes through a collision list to its end. -/
theorem IsChain.met {store : Store Hash} {hash : Hash} {previous : Id} {list : List Id}
    (chain : IsChain store.entries previous list 0)
    (sameHash : forall id, id ∈ list -> (store.entries id).hash = hash) (fuel : Nat) :
    store.met hash (fuel + list.length + 1) (list.headD 0) = .ok list := by
  induction list generalizing previous with
  | nil => rfl
  | cons id list inductionHypothesis =>
      obtain ⟨present, -, after, rest⟩ := chain
      have same := sameHash id List.mem_cons_self
      have tail := inductionHypothesis rest
        fun other member => sameHash other (List.mem_cons_of_mem id member)
      rw [List.length_cons, ← Nat.add_assoc, Store.met]
      simp only [List.headD_cons, if_neg present, same, lt_irrefl, if_false, after, tail]
      rfl

/-- Some collision list has the entry. -/
def Indexed (tree : RbTree Id) (tails : Id -> List Id) (id : Id) : Prop :=
  Exists fun head => head ∈ tree.inorder ∧ id ∈ head :: tails head

namespace ValidIndex

variable {store : Store Hash} {tree : RbTree Id} {tails : Id -> List Id}

theorem hash_of_mem (valid : ValidIndex store tree tails) {head id : Id}
    (headIn : head ∈ tree.inorder) (member : id ∈ head :: tails head) :
    (store.entries id).hash = (store.entries head).hash := by
  rcases List.mem_cons.mp member with rfl | inTail
  · rfl
  · exact valid.sameHash head headIn id inTail

/-- No two heads have the same hash. -/
theorem head_unique (valid : ValidIndex store tree tails) {one two : Id}
    (oneIn : one ∈ tree.inorder) (twoIn : two ∈ tree.inorder)
    (same : (store.entries one).hash = (store.entries two).hash) : one = two := by
  have apart : tree.inorder.Pairwise fun one two =>
      (store.entries one).hash = (store.entries two).hash -> one = two :=
    valid.ordered.imp fun less equal => absurd equal (ne_of_lt less)
  have flipped : tree.inorder.Pairwise fun one two =>
      (store.entries two).hash = (store.entries one).hash -> two = one :=
    valid.ordered.imp fun less equal => absurd equal (ne_of_gt less)
  exact List.Pairwise.forall_of_forall_of_flip (fun _ _ _ => rfl) apart flipped oneIn twoIn same

theorem ne_zero (valid : ValidIndex store tree tails) {id : Id} (indexed : Indexed tree tails id) :
    id ≠ 0 := by
  obtain ⟨head, headIn, member⟩ := indexed
  exact (valid.chained head headIn).ne_zero member

/-- A lookup in a valid index meets the entries with the hash, each once. -/
theorem met (valid : ValidIndex store tree tails) (hash : Hash) :
    Exists fun bound => forall fuel, bound ≤ fuel -> Exists fun found =>
      store.met hash fuel store.hash_root = .ok found ∧ found.Nodup ∧
        forall id, id ∈ found ↔ Indexed tree tails id ∧ (store.entries id).hash = hash := by
  rw [valid.holds.root]
  rcases valid.holds.isTree.descends valid.ordered hash with ⟨head, headIn, same, way⟩ | ⟨none, way⟩
  · obtain ⟨steps, follows⟩ := way.met
    refine ⟨(head :: tails head).length + 1 + steps, fun fuel enough => ?_⟩
    obtain ⟨fuel, rfl⟩ := Nat.exists_eq_add_of_le' enough
    refine ⟨head :: tails head, ?_, valid.distinct head headIn, fun id => ?_⟩
    · rw [← Nat.add_assoc, follows, ← Nat.add_assoc]
      exact (valid.chained head headIn).met
        (fun id member => (valid.hash_of_mem headIn member).trans same) fuel
    · constructor
      · intro member
        exact ⟨⟨head, headIn, member⟩, (valid.hash_of_mem headIn member).trans same⟩
      · rintro ⟨⟨other, otherIn, member⟩, hashed⟩
        have equal : other = head := valid.head_unique otherIn headIn
          ((valid.hash_of_mem otherIn member).symm.trans (hashed.trans same.symm))
        exact equal ▸ member
  · obtain ⟨steps, follows⟩ := way.met
    refine ⟨1 + steps, fun fuel enough => ?_⟩
    obtain ⟨fuel, rfl⟩ := Nat.exists_eq_add_of_le' enough
    refine ⟨[], ?_, List.nodup_nil, fun id => ?_⟩
    · rw [← Nat.add_assoc, follows]
      rfl
    · refine ⟨fun impossible => absurd impossible List.not_mem_nil, ?_⟩
      rintro ⟨⟨head, headIn, member⟩, hashed⟩
      exact absurd ((valid.hash_of_mem headIn member).symm.trans hashed) (none head headIn)

end ValidIndex

end Order

end HashIndex
end Mcachefs
