import Mcachefs.Metadata.FetchWalk
import Mcachefs.Metadata.PathBuffers

namespace Mcachefs
namespace Metadata

open Library

/-!
# Where the null entry is used

The operations on the tree go from entry to entry by identifiers, and `0` is no entry.  In a
tree most of them meet it only where they ask for it.  The directory that
`mcachefs_metadata_make_entry` is to make an entry in is not asked for, and
`mcachefs_metadata_fetch_children` goes on to the first child of a directory that it could not
read.
-/

variable {Hash : Type} {fs next : Fs Hash}

/-! ## Looking up -/

section Lookups

variable [Inhabited Hash] (env : Env Hash) (fs : Fs Hash)

variable [DecidableEq Hash]

end Lookups

/-! ## Removing -/

section Removing

variable [Inhabited Hash]

/-- The father of a linked entry has a first child. -/
theorem IsTree.first_above (isTree : IsTree fs) {id : Id} (linked : id ∈ fs.index)
    (above : fs.father id ≠ 0) : fs.first (fs.father id) ≠ 0 := by
  obtain ⟨kids, free, tree⟩ := isTree
  have isNode := tree.mem_index.mp linked
  obtain ⟨fatherNode, member⟩ := tree.listed isNode
    fun isRoot => above ((tree.father_eq_zero isNode).mpr isRoot)
  intro none
  rw [(tree.kids_eq_nil fatherNode).mpr none] at member
  cases member

end Removing

/-! ## Renaming -/

section Renaming

variable [Inhabited Hash] {env : Env Hash}

/-- No first child is the null entry, which would be read as no child at all. -/
def FirstSome (fs : Fs Hash) : Prop :=
  forall id, id ∈ fs.index -> (fs.entries id).child ≠ .first 0

theorem FirstSome.added {kids : Id -> List Id} {free rest : List Id} {father id : Id}
    {name : Component} {st : Stat} (some : FirstSome fs) (tree : Tree fs kids free)
    (added : Added env fs kids free father id name st .unread next rest) : FirstSome next := by
  intro other linked
  rcases (added.nodes other).mp (added.tree.mem_index.mp linked) with old | rfl
  · by_cases isFather : other = father
    · subst isFather
      rw [added.above]
      intro null
      exact added.tree.some ((added.nodes id).mpr (Or.inr rfl)) (Child.first.inj null)
    · rw [added.kept other old isFather]
      exact some other (tree.mem_index.mpr old)
  · rw [added.entry]
    simp

theorem FirstSome.getChild {father child : Id} (some : FirstSome fs) (isTree : IsTree fs)
    (linked : father ∈ fs.index) (read : fs.getChild env father = .ok (child, next)) :
    FirstSome next := by
  have entries : forall (des : List (Component × Stat)) (fs : Fs Hash), IsTree fs ->
      father ∈ fs.index -> FirstSome fs -> FirstSome (des.foldl (Fs.readEntry env father) fs) := by
    intro des
    induction des with
    | nil => exact fun _ _ _ some => some
    | cons de des inductionHypothesis =>
        rintro fs ⟨kids, free, tree⟩ linked some
        rw [List.foldl_cons]
        by_cases skipped : de.1 = dot ∨ de.1 = dotdot
        · rw [Fs.readEntry, if_pos skipped]
          exact inductionHypothesis fs ⟨kids, free, tree⟩ linked some
        · by_cases virtual : father = rootId ∧ de.1 = vopsName
          · rw [Fs.readEntry, if_neg skipped, if_pos virtual]
            exact inductionHypothesis fs ⟨kids, free, tree⟩ linked some
          · have isNode := tree.mem_index.mp linked
            obtain ⟨id, rest, added⟩ := tree.readEntry env isNode skipped virtual
            exact inductionHypothesis _ ⟨_, _, added.tree⟩
              (added.tree.mem_index.mpr ((added.nodes father).mpr (Or.inl isNode)))
              (some.added tree added)
  unfold Fs.getChild at read
  split at read
  · exact (Prod.mk.inj (Except.ok.inj read)).2 ▸ some
  · exact (Prod.mk.inj (Except.ok.inj read)).2 ▸ some
  · split at read
    · exact (Prod.mk.inj (Except.ok.inj read)).2 ▸ some
    · obtain ⟨answer, -, read⟩ := bind_eq_ok.mp read
      cases answer with
      | none => exact (Prod.mk.inj (Except.ok.inj read)).2 ▸ some
      | some des =>
          obtain ⟨-, rfl⟩ := Prod.mk.inj (Except.ok.inj read)
          obtain ⟨kids, free, tree⟩ := isTree
          have counted : Tree { fs with reads := fs.reads + 1 } kids free :=
            tree.congr rfl rfl (List.Perm.refl _) (fun _ _ => ⟨rfl, rfl, rfl⟩) fun _ _ => rfl
          have read := entries des _ ⟨kids, free, counted⟩ linked some
          unfold Fs.markEmpty
          split
          · intro id there
            by_cases isFather : id = father
            · subst isFather
              rw [modify_self]
              simp
            · rw [modify_other isFather]
              exact read id there
          · exact read

theorem FirstSome.populated (firstSome : FirstSome fs) (isTree : IsTree fs)
    (populated : Populated env fs next) : FirstSome next := by
  induction populated with
  | refl => exact firstSome
  | step before linked read inductionHypothesis =>
      exact inductionHypothesis.getChild (before.isTree isTree) linked read

omit [Inhabited Hash] in
theorem FirstSome.first (some : FirstSome fs) {id : Id} (linked : id ∈ fs.index)
    (known : (fs.entries id).child ≠ .unread) (notEmpty : (fs.entries id).child ≠ .empty) :
    fs.first id ≠ 0 := by
  unfold Fs.first
  cases child : (fs.entries id).child with
  | unread => exact absurd child known
  | empty => exact absurd child notEmpty
  | first first =>
      rintro rfl
      exact some id linked child

theorem ReadsAll.readChildren (reads : ReadsAll env fs) {id : Id} (linked : id ∈ fs.index)
    (isDir : (fs.entries id).st.isDir = true) (read : fs.readChildren env id = .ok next) :
    (next.entries id).child ≠ .unread := by
  unfold Fs.readChildren at read
  split at read
  · cases result : fs.getChild env id with
    | error fault =>
        rw [result] at read
        cases read
    | ok both =>
        rw [result] at read
        obtain rfl := Except.ok.inj read
        exact reads fs id both.1 both.2 .refl linked isDir result
  · next known =>
      obtain rfl := Except.ok.inj read
      exact known

/-- A child is below its father and not the entry that a walk began with. -/
theorem WalksBelow.child {mdata above child : Id} (isTree : IsTree fs) (linked : child ∈ fs.index)
    (father : fs.father child = above) (some : above ≠ 0) (below : Climbs fs.father mdata above) :
    WalksBelow mdata fs (child, above) := by
  refine ⟨linked, father.symm, .up (father ▸ some) (father ▸ below), fun same => ?_⟩
  obtain ⟨kids, free, tree⟩ := isTree
  have childNode := tree.mem_index.mp linked
  obtain ⟨fatherNode, member⟩ := tree.listed childNode fun isRoot => some
    (father ▸ (tree.father_eq_zero childNode).mpr isRoot)
  have back : child = mdata := same
  rw [father] at fatherNode member
  exact tree.shape.forest.not_climbs tree.shape.tops fatherNode member (back.symm ▸ below)

theorem WalksBelow.turn {mdata : Id} {cursor other : Id × Id} (isTree : IsTree fs)
    (walks : WalksBelow mdata fs cursor)
    (turn : fs.rehashTurn env mdata cursor = .ok (some other, next)) :
    Rehashed fs next ∧ (other.1 = 0 ∨ WalksBelow mdata next other) := by
  obtain ⟨linked, above, below, apart⟩ := walks
  obtain ⟨present, kept, way⟩ := rehashTurn_cases turn
  obtain ⟨rehashed, -, -⟩ := kept linked
  have nextTree := rehashed.isTree isTree
  have nextLinked := rehashed.mem_index.mpr linked
  have nextBelow : Climbs next.father mdata cursor.1 := rehashed.father.symm ▸ below
  refine ⟨rehashed, ?_⟩
  rcases way with ⟨-, -, ends⟩ | ⟨-, -, -, down⟩ | ⟨-, climbed, climbing, on⟩
  · cases ends
  · obtain rfl := Option.some.inj down
    by_cases none : next.first cursor.1 = 0
    · exact Or.inl none
    · obtain ⟨childLinked, link⟩ := nextTree.first nextLinked none
      exact Or.inr (.child nextTree childLinked link present nextBelow)
  · cases climbed with
    | none => cases on
    | some way =>
        obtain rfl := Option.some.inj on
        obtain ⟨wayLinked, sibling, link⟩ := rehashClimb_linked nextTree nextLinked
          (by rw [above, rehashed.father]) climbing
        obtain ⟨siblingLinked, -, same⟩ := nextTree.sibling wayLinked sibling
        obtain ⟨kids, free, tree⟩ := nextTree
        obtain ⟨-, goesOn⟩ := rehashClimb_later tree nextLinked nextBelow apart climbing
        obtain ⟨wayBelow, wayApart, -⟩ := goesOn way rfl
        obtain ⟨some, upper⟩ := wayBelow.inv.resolve_left wayApart
        exact Or.inr (.child ⟨kids, free, tree⟩ siblingLinked (same.trans link.symm) (link ▸ some)
          (link ▸ upper))

variable [DecidableEq Hash]

end Renaming

end Metadata
end Mcachefs
