import Mcachefs.Metadata.Removal

namespace Mcachefs
namespace Metadata

open Library

/-!
# Renaming entries

A rename takes an entry with all that is below it to another father, and then
computes the hashes below it again.  `Moved` is what the first part changes, and
`Rehashed` what the second part does: neither makes or frees an entry.
-/

variable {Hash : Type} [Inhabited Hash]

/-! ## Hashing again -/

/-- Nothing has changed but hashes of linked entries, their order in the index
and open files. -/
structure Rehashed (fs next : Fs Hash) : Prop where
  entries : forall id, next.entries id = { fs.entries id with hash := (next.entries id).hash }
  unlinked : forall id, id ∉ fs.index -> next.entries id = fs.entries id
  alloced_nb : next.alloced_nb = fs.alloced_nb
  first_free : next.first_free = fs.first_free
  index : next.index.Perm fs.index
  reads : next.reads = fs.reads

namespace Rehashed

variable {fs middle next : Fs Hash}

omit [Inhabited Hash]

theorem refl (fs : Fs Hash) : Rehashed fs fs :=
  ⟨fun _ => rfl, fun _ _ => rfl, rfl, rfl, .refl _, rfl⟩

theorem trans (one : Rehashed fs middle) (two : Rehashed middle next) : Rehashed fs next := by
  refine ⟨fun id => ?_, fun id away => ?_, two.alloced_nb.trans one.alloced_nb,
    two.first_free.trans one.first_free, two.index.trans one.index, two.reads.trans one.reads⟩
  · have last := two.entries id
    rwa [one.entries id] at last
  · rw [two.unlinked id fun linked => away (one.index.mem_iff.mp linked), one.unlinked id away]

theorem father (rehashed : Rehashed fs next) : next.father = fs.father :=
  funext fun id => (congrArg Entry.father (rehashed.entries id)).trans rfl

theorem next_eq (rehashed : Rehashed fs next) : next.next = fs.next :=
  funext fun id => (congrArg Entry.next (rehashed.entries id)).trans rfl

theorem child (rehashed : Rehashed fs next) (id : Id) :
    (next.entries id).child = (fs.entries id).child :=
  (congrArg Entry.child (rehashed.entries id)).trans rfl

theorem first (rehashed : Rehashed fs next) : next.first = fs.first :=
  funext fun id => congrArg Child.id (rehashed.child id)

theorem st (rehashed : Rehashed fs next) (id : Id) : (next.entries id).st = (fs.entries id).st :=
  (congrArg Entry.st (rehashed.entries id)).trans rfl

theorem mem_index (rehashed : Rehashed fs next) {id : Id} : id ∈ next.index ↔ id ∈ fs.index :=
  rehashed.index.mem_iff

theorem noLinks (rehashed : Rehashed fs next) (noLinks : NoLinks fs) : NoLinks next := by
  intro id linked
  rw [rehashed.entries id]
  exact noLinks id (rehashed.mem_index.mp linked)

end Rehashed

section Rehash

variable {fs middle next : Fs Hash} {kids : Id -> List Id} {free : List Id}

theorem Rehashed.tree (rehashed : Rehashed fs next) (tree : Tree fs kids free) :
    Tree next kids free := by
  refine tree.congr rehashed.alloced_nb rehashed.first_free rehashed.index (fun id _ => ?_)
    fun id member => rehashed.unlinked id fun linked => (tree.mem_index.mp linked).2.2 member
  rw [rehashed.father, rehashed.next_eq, rehashed.first]
  exact ⟨rfl, rfl, rfl⟩

theorem Rehashed.isTree (rehashed : Rehashed fs next) (isTree : IsTree fs) : IsTree next := by
  obtain ⟨kids, free, tree⟩ := isTree
  exact ⟨kids, free, rehashed.tree tree⟩

omit [Inhabited Hash] in
/-- Open files are not entries. -/
theorem updateFhPath_eq {id : Id} (updated : fs.updateFhPath id = .ok next) :
    next = { fs with mfiles := next.mfiles } := by
  unfold Fs.updateFhPath at updated
  split at updated
  · obtain rfl := Except.ok.inj updated
    rfl
  · obtain ⟨newpath, -, updated⟩ := bind_eq_ok.mp updated
    exact modifyFile_eq updated

omit [Inhabited Hash] in
theorem updateFhPath_rehashed {id : Id} (updated : fs.updateFhPath id = .ok next) :
    Rehashed fs next := by
  rw [updateFhPath_eq updated]
  exact ⟨fun _ => rfl, fun _ _ => rfl, rfl, rfl, .refl _, rfl⟩

variable [DecidableEq Hash] {env : Env Hash}

omit [Inhabited Hash] [DecidableEq Hash] in
/-- What one turn of the loop does to its entry. -/
theorem rehash_rehashed (env : Env Hash) (father : Id) {child : Id} (linked : child ∈ fs.index) :
    Rehashed fs (((fs.removeHash child).buildHash env father child).insertHash child) ∧
      (((fs.removeHash child).buildHash env father child).insertHash child).entries child =
        { fs.entries child with
          hash := childHash env (fs.entries father) (fs.entries child).d_name } ∧
      forall other, other ≠ child ->
        (((fs.removeHash child).buildHash env father child).insertHash child).entries other =
          fs.entries other := by
  have here : (((fs.removeHash child).buildHash env father child).insertHash child).entries child =
      { fs.entries child with
        hash := childHash env (fs.entries father) (fs.entries child).d_name } := by
    rw [insertHash_entries, Fs.buildHash, modify_self]
    rfl
  have there : forall other, other ≠ child ->
      (((fs.removeHash child).buildHash env father child).insertHash child).entries other =
        fs.entries other := by
    intro other different
    rw [insertHash_entries, Fs.buildHash, modify_other different]
    rfl
  refine ⟨⟨fun id => ?_, fun id away => there id fun same => away (same ▸ linked), rfl, rfl, ?_,
    rfl⟩, here, there⟩
  · by_cases same : id = child
    · subst same
      rw [here]
    · rw [there id same]
  · exact (List.perm_append_singleton _ _).trans (List.perm_cons_erase linked).symm

omit [Inhabited Hash] [DecidableEq Hash] in
/-- One turn of the loop computes one hash, and goes down or on from it. -/
theorem rehashTurn_cases {rootid childid fatherid : Id} {more : Option (Id × Id)}
    (turn : fs.rehashTurn env rootid (childid, fatherid) = .ok (more, next)) :
    childid ≠ 0 ∧
      (childid ∈ fs.index -> Rehashed fs next ∧
        (next.entries childid).hash = childHash env (fs.entries fatherid)
          (fs.entries childid).d_name ∧
        forall other, other ≠ childid -> next.entries other = fs.entries other) ∧
      (((next.entries childid).st.isDir = true ∧ (next.entries childid).child = .unread ∧
          more = none) ∨
        ((next.entries childid).st.isDir = true ∧ (next.entries childid).child ≠ .unread ∧
          (next.entries childid).child ≠ .empty ∧ more = some (next.first childid, childid)) ∨
        (¬ ((next.entries childid).st.isDir = true ∧ (next.entries childid).child ≠ .empty) ∧
          Exists fun climbed =>
            next.rehashClimb rootid env.fuel childid fatherid = .ok climbed ∧
            more = climbed.map fun way => (next.next way.1, way.2))) := by
  unfold Fs.rehashTurn at turn
  simp only at turn
  split at turn
  · cases turn
  · next present =>
      split at turn
      · cases turn
      · obtain ⟨updated, paths, turn⟩ := bind_eq_ok.mp turn
        have rest : next = updated -> childid ≠ 0 ∧
            (childid ∈ fs.index -> Rehashed fs next ∧
              (next.entries childid).hash = childHash env (fs.entries fatherid)
                (fs.entries childid).d_name ∧
              forall other, other ≠ childid -> next.entries other = fs.entries other) := by
          rintro rfl
          refine ⟨present, fun linked => ?_⟩
          obtain ⟨rehashed, here, there⟩ := rehash_rehashed env fatherid linked
          have equal := updateFhPath_eq paths
          have entries : next.entries = _ := congrArg Fs.entries equal
          refine ⟨rehashed.trans (updateFhPath_rehashed paths), ?_, fun other different => ?_⟩
          · rw [entries]
            exact (congrArg Entry.hash here).trans rfl
          · rw [entries]
            exact there other different
        split at turn
        · next unread =>
            obtain ⟨rfl, rfl⟩ := Prod.mk.inj (Except.ok.inj turn)
            exact ⟨(rest rfl).1, (rest rfl).2, Or.inl ⟨unread.1, unread.2, rfl⟩⟩
        · next notUnread =>
            split at turn
            · next down =>
                obtain ⟨rfl, rfl⟩ := Prod.mk.inj (Except.ok.inj turn)
                exact ⟨(rest rfl).1, (rest rfl).2, Or.inr (Or.inl ⟨down.1,
                  fun unread => notUnread ⟨down.1, unread⟩, down.2, rfl⟩)⟩
            · next last =>
                obtain ⟨climbed, climbing, turn⟩ := bind_eq_ok.mp turn
                cases climbed with
                | none =>
                    obtain ⟨rfl, rfl⟩ := Prod.mk.inj (Except.ok.inj turn)
                    exact ⟨(rest rfl).1, (rest rfl).2, Or.inr (Or.inr ⟨last, none, climbing, rfl⟩)⟩
                | some way =>
                    simp only at turn
                    split at turn
                    · cases turn
                    · obtain ⟨rfl, rfl⟩ := Prod.mk.inj (Except.ok.inj turn)
                      exact ⟨(rest rfl).1, (rest rfl).2,
                        Or.inr (Or.inr ⟨last, some way, climbing, rfl⟩)⟩

omit [DecidableEq Hash] in
/-- The inner loop ends at a linked entry that has a sibling. -/
theorem rehashClimb_linked {rootid child fatherid : Id} {way : Id × Id} {fuel : Nat}
    (isTree : IsTree fs) (linked : child ∈ fs.index) (above : fatherid = fs.father child)
    (climbing : fs.rehashClimb rootid fuel child fatherid = .ok (some way)) :
    way.1 ∈ fs.index ∧ fs.next way.1 ≠ 0 ∧ way.2 = fs.father way.1 := by
  induction fuel generalizing child fatherid with
  | zero => cases climbing
  | succ fuel inductionHypothesis =>
      unfold Fs.rehashClimb at climbing
      split at climbing
      · next present =>
          obtain rfl := Option.some.inj (Except.ok.inj climbing)
          exact ⟨linked, present, above⟩
      · split at climbing
        · cases Except.ok.inj climbing
        · split at climbing
          · cases climbing
          · next some =>
              have notRoot : child ≠ rootId := fun isRoot =>
                some ((isTree.father_eq_zero linked).mpr isRoot)
              exact inductionHypothesis (isTree.father linked notRoot) rfl climbing

/-- The cursor of the loop is a linked entry with its father. -/
def RehashAt (fs : Fs Hash) (cursor : Id × Id) : Prop :=
  cursor.1 = 0 ∨ cursor.1 ∈ fs.index ∧ cursor.2 = fs.father cursor.1

omit [DecidableEq Hash] in
theorem rehashTurn_at {rootid : Id} {cursor : Id × Id} {more : Option (Id × Id)}
    (isTree : IsTree fs) (place : RehashAt fs cursor)
    (turn : fs.rehashTurn env rootid cursor = .ok (more, next)) :
    Rehashed fs next ∧ forall other, more = some other -> RehashAt next other := by
  obtain ⟨present, kept, way⟩ := rehashTurn_cases turn
  obtain ⟨linked, above⟩ := place.resolve_left present
  obtain ⟨rehashed, -, -⟩ := kept linked
  have nextTree := rehashed.isTree isTree
  have still : cursor.1 ∈ next.index := rehashed.mem_index.mpr linked
  refine ⟨rehashed, fun other goesOn => ?_⟩
  rcases way with ⟨-, -, rfl⟩ | ⟨-, -, -, rfl⟩ | ⟨-, climbed, climbing, rfl⟩
  · cases goesOn
  · obtain rfl := Option.some.inj goesOn
    by_cases none : next.first cursor.1 = 0
    · exact Or.inl none
    · obtain ⟨childLinked, link⟩ := nextTree.first still none
      exact Or.inr ⟨childLinked, link.symm⟩
  · cases climbed with
    | none => cases goesOn
    | some way =>
        obtain rfl := Option.some.inj goesOn
        obtain ⟨wayLinked, sibling, link⟩ :=
          rehashClimb_linked nextTree still (by rw [above, rehashed.father]) climbing
        obtain ⟨siblingLinked, -, same⟩ := nextTree.sibling wayLinked sibling
        exact Or.inr ⟨siblingLinked, link.trans same.symm⟩

omit [DecidableEq Hash] in
/-- Hashing everything below an entry again reads it first, if need be. -/
theorem rehashChildren_rehashed {mdata : Id} (isTree : IsTree fs) (linked : mdata ∈ fs.index)
    (rehash : fs.rehashChildren env mdata = .ok next) :
    Exists fun child => Exists fun middle => fs.getChild env mdata = .ok (child, middle) ∧
      Rehashed middle next := by
  obtain ⟨⟨child, middle⟩, read, rehash⟩ := bind_eq_ok.mp rehash
  have populated : Populated env fs middle := .step .refl linked read
  have middleTree := populated.isTree isTree
  refine ⟨child, middle, read, ?_⟩
  simp only at rehash
  split at rehash
  · exact Except.ok.inj rehash ▸ .refl _
  · next present =>
      have start : Rehashed middle middle ∧ RehashAt middle (child, mdata) := by
        obtain ⟨kids, free, tree⟩ := isTree
        obtain ⟨childEq, -⟩ := tree.getChild (tree.mem_index.mp linked) read
        obtain ⟨childLinked, link⟩ := middleTree.first
          (populated.stays ⟨kids, free, tree⟩ linked).linked (childEq ▸ present)
        exact ⟨.refl _, Or.inr ⟨childEq ▸ childLinked, (childEq ▸ link).symm⟩⟩
      have goesOn : forall cursor state other after, Rehashed middle state ∧ RehashAt state cursor ->
          state.rehashTurn env mdata cursor = .ok (some other, after) ->
          Rehashed middle after ∧ RehashAt after other := by
        intro cursor state other after holds turn
        obtain ⟨rehashed, place⟩ := rehashTurn_at (holds.1.isTree middleTree) holds.2 turn
        exact ⟨holds.1.trans rehashed, place other rfl⟩
      refine iterate_ok goesOn (fun cursor state after holds turn => ?_) start rehash
      exact holds.1.trans (rehashTurn_at (holds.1.isTree middleTree) holds.2 turn).1

end Rehash

/-! ## Moving -/

/-- An entry has moved to another father, with all that is below it. -/
structure Moved (env : Env Hash) (fs : Fs Hash) (mdata mtarget : Id) (lname : Component)
    (next : Fs Hash) : Prop where
  isTree : IsTree next
  index : forall id, id ∈ next.index ↔ id ∈ fs.index
  place : (next.entries mdata).Placed { fs.entries mdata with
    hash := childHash env (fs.entries mtarget) (lname.take NAME_MAX)
    d_name := lname.take NAME_MAX
    father := mtarget }
  child : (next.entries mdata).child = (fs.entries mdata).child
  st : (next.entries mdata).st = (fs.entries mdata).st
  fh : (next.entries mdata).fh = (fs.entries mdata).fh
  others : forall id, id ≠ mdata -> (next.entries id).Alike (fs.entries id)
  known : forall id, (fs.entries id).child ≠ .unread -> (next.entries id).child ≠ .unread
  still : forall id, id ≠ mtarget -> id ≠ fs.father mdata ->
    (next.entries id).child = (fs.entries id).child

section Move

variable {env : Env Hash} {fs next : Fs Hash}

omit [Inhabited Hash] in
/-- Which entries have known children is not changed by an unlink, and which
those are is changed for the father only. -/
theorem unlinkEntry_child {id other : Id} (unlinked : fs.unlinkEntry env id = .ok next) :
    ((fs.entries other).child ≠ .unread -> (next.entries other).child ≠ .unread) ∧
      (other ≠ fs.father id -> (next.entries other).child = (fs.entries other).child) := by
  rcases unlinkEntry_cases unlinked with ⟨here, rfl⟩ | ⟨-, -, previous, -, rfl⟩
  · by_cases same : other = fs.father id
    · subst same
      refine ⟨fun _ => ?_, fun different => absurd rfl different⟩
      rw [modify_self]
      simp only
      split <;> exact (nomatch ·)
    · rw [modify_other same]
      exact ⟨fun known => known, fun _ => rfl⟩
  · have same : ((fs.modify previous fun entry => { entry with next := fs.next id }).entries
        other).child = (fs.entries other).child := by
      by_cases same : other = previous
      · rw [same, modify_self]
      · rw [modify_other same]
    rw [same]
    exact ⟨fun known => known, fun _ => rfl⟩

variable [DecidableEq Hash] {mdata mtarget : Id} {lname : Component}

omit [Inhabited Hash] [DecidableEq Hash] in
/-- The entries after an entry in hand has got another name and father. -/
private theorem relink_entries (env : Env Hash) (different : mdata ≠ mtarget) (name : Component)
    (next_eq : next = ((((fs.removeHash mdata).modify mdata fun entry =>
      { entry with d_name := name }).linkEntry mtarget mdata).buildHash env mtarget
        mdata).insertHash mdata) :
    next.entries mdata = { fs.entries mdata with
        hash := childHash env (fs.entries mtarget) name
        d_name := name
        father := mtarget
        next := fs.first mtarget } ∧
      next.entries mtarget = { fs.entries mtarget with child := .first mdata } ∧
      forall id, id ≠ mdata -> id ≠ mtarget -> next.entries id = fs.entries id := by
  subst next_eq
  refine ⟨?_, ?_, fun id notChild notFather => ?_⟩
  · rw [insertHash_entries, Fs.buildHash, modify_self, linkEntry_child different,
      linkEntry_father different, modify_self, Fs.first, modify_other different.symm]
    rfl
  · rw [insertHash_entries, Fs.buildHash, modify_other different.symm, linkEntry_father different,
      modify_other different.symm]
    rfl
  · rw [insertHash_entries, Fs.buildHash, modify_other notChild, linkEntry_other notChild notFather,
      modify_other notChild]
    rfl

omit [DecidableEq Hash] in
/-- An entry in hand with all that is below it gets another name and father. -/
private theorem Shape.relink (env : Env Hash) (name : Component) {kids : Id -> List Id}
    {free : List Id} (shape : Shape fs fs.first kids free (some mdata)) (indexed : Indexed fs free none)
    (targetNode : Node fs free mtarget) (legal : ¬ Climbs fs.father mdata mtarget)
    (next_eq : next = ((((fs.removeHash mdata).modify mdata fun entry =>
      { entry with d_name := name }).linkEntry mtarget mdata).buildHash env mtarget
        mdata).insertHash mdata) :
    Tree next (Function.update kids mtarget (mdata :: kids mtarget)) free := by
  have different : mdata ≠ mtarget := fun same => legal (same ▸ .here)
  obtain ⟨here, above, others⟩ := relink_entries env different name next_eq
  have isNode := (shape.inHand mdata rfl).1
  have alloced_nb : next.alloced_nb = fs.alloced_nb := by rw [next_eq]; rfl
  have perm : next.index.Perm fs.index := by
    have linked := indexed.mem_iff.mpr isNode
    rw [next_eq]
    exact (List.perm_append_singleton _ _).trans (List.perm_cons_erase linked).symm
  have links : forall id, next.father id = (fs.linkEntry mtarget mdata).father id ∧
      next.next id = (fs.linkEntry mtarget mdata).next id ∧
      next.first id = (fs.linkEntry mtarget mdata).first id := by
    intro id
    by_cases isChild : id = mdata
    · subst isChild
      rw [Fs.father, Fs.father, Fs.next, Fs.next, Fs.first, Fs.first, here,
        linkEntry_child different]
      exact ⟨rfl, rfl, rfl⟩
    · by_cases isFather : id = mtarget
      · subst isFather
        rw [Fs.father, Fs.father, Fs.next, Fs.next, Fs.first, Fs.first, above,
          linkEntry_father different]
        exact ⟨rfl, rfl, rfl⟩
      · rw [Fs.father, Fs.father, Fs.next, Fs.next, Fs.first, Fs.first, others id isChild isFather,
          linkEntry_other isChild isFather]
        exact ⟨rfl, rfl, rfl⟩
  refine ⟨(shape.linkEntry targetNode legal).frame alloced_nb (by rw [next_eq]; rfl)
    (fun id _ => (links id).1) (fun id _ => (links id).2.1) (fun id _ => (links id).2.2)
    fun id member => ?_, perm.nodup_iff.mpr indexed.nodup, fun id => ?_⟩
  · have notChild : id ≠ mdata := fun same => isNode.2.2 (same ▸ member)
    have notFather : id ≠ mtarget := fun same => targetNode.2.2 (same ▸ member)
    rw [others id notChild notFather, linkEntry_other notChild notFather]
  · rw [perm.mem_iff, indexed.exact, Node, Node, alloced_nb]

/-- What `mcachefs_metadata_rename_entry` does to an entry between taking it out and
hashing what is below it. -/
def Fs.relinkEntry (env : Env Hash) (mdata mtarget : Id) (lname : Component) (fs : Fs Hash) :
    Fs Hash :=
  let fs := (fs.removeHash mdata).modify mdata fun entry =>
    { entry with d_name := lname.take NAME_MAX }
  ((fs.linkEntry mtarget mdata).buildHash env mtarget mdata).insertHash mdata

omit [DecidableEq Hash] in
/-- The entry at its new place. -/
theorem unlinkEntry_moved {unlinked : Fs Hash} (isTree : IsTree fs) (linked : mdata ∈ fs.index)
    (targetLinked : mtarget ∈ fs.index) (legal : ¬ Climbs fs.father mdata mtarget)
    (unlinking : fs.unlinkEntry env mdata = .ok unlinked) :
    Moved env fs mdata mtarget lname (unlinked.relinkEntry env mdata mtarget lname) := by
  obtain ⟨kids, free, tree⟩ := isTree
  have isNode := tree.mem_index.mp linked
  have targetNode := tree.mem_index.mp targetLinked
  have notRoot : mdata ≠ rootId := by
    rintro rfl
    unfold Fs.unlinkEntry at unlinking
    rw [tree.shape.rootFather, if_pos rfl] at unlinking
    cases unlinking
  have different : mdata ≠ mtarget := fun same => legal (same ▸ .here)
  obtain ⟨fatherNode, member⟩ := tree.listed isNode notRoot
  have notOwn : mdata ≠ fs.father mdata := fun same =>
    tree.shape.forest.not_climbs tree.shape.tops fatherNode member (same ▸ .here)
  obtain ⟨before, after, -, shape, relinked⟩ := tree.shape.unlinkEntry isNode notRoot unlinking
  have nodes : forall id, Node unlinked free id ↔ Node fs free id := fun id => by
    rw [Node, Node, relinked.alloced_nb]
  have fathers : unlinked.father = fs.father := funext fun id => (relinked.alike id).father
  have indexed : Indexed unlinked free none := by
    refine ⟨relinked.index ▸ tree.indexed.nodup, fun other => ?_⟩
    rw [relinked.index, tree.indexed.exact, nodes]
  have same : unlinked.relinkEntry env mdata mtarget lname = _ := rfl
  have moved := shape.relink env (lname.take NAME_MAX) indexed ((nodes mtarget).mpr targetNode)
    (fathers.symm ▸ legal) same
  obtain ⟨here, above, others⟩ := relink_entries env different (lname.take NAME_MAX) same
  have hashes : childHash env (unlinked.entries mtarget) = childHash env (fs.entries mtarget) := by
    funext name
    rw [childHash, childHash, (relinked.alike mtarget).hash, (relinked.alike mtarget).father]
  refine ⟨⟨_, free, moved⟩, fun id => ?_, ?_, ?_, ?_, ?_, fun id apart => ?_, fun id known => ?_,
    fun id notTarget notFather => ?_⟩
  · rw [moved.mem_index, tree.mem_index]
    exact nodes id
  · rw [here, hashes]
    exact ⟨rfl, rfl, rfl, congrArg Stat.st_mode (relinked.alike mdata).st,
      (relinked.alike mdata).hardlink⟩
  · rw [here]
    exact (unlinkEntry_child unlinking).2 notOwn
  · rw [here]
    exact (relinked.alike mdata).st
  · rw [here]
    exact (relinked.alike mdata).fh
  · by_cases isTarget : id = mtarget
    · subst isTarget
      have alike := relinked.alike id
      rw [above]
      exact ⟨alike.hash, alike.d_name, alike.st, alike.father, alike.fh, alike.hardlink⟩
    · rw [others id apart isTarget]
      exact relinked.alike id
  · by_cases isTarget : id = mtarget
    · subst isTarget
      rw [above]
      exact Child.first_ne_unread mdata
    · have still := (unlinkEntry_child unlinking).1 known
      by_cases isMoved : id = mdata
      · subst isMoved
        rw [here]
        exact still
      · rw [others id isMoved isTarget]
        exact still
  · have still := (unlinkEntry_child unlinking).2 notFather
    by_cases isMoved : id = mdata
    · subst isMoved
      rw [here]
      exact still
    · rw [others id isMoved notTarget]
      exact still

omit [DecidableEq Hash] in
/-- What `mcachefs_metadata_rename_entry` does with two entries it has found. -/
theorem moveEntry_cases (isTree : IsTree fs) (linked : mdata ∈ fs.index)
    (targetLinked : mtarget ∈ fs.index) (legal : ¬ Climbs fs.father mdata mtarget)
    (moving : fs.moveEntry env mdata mtarget lname = .ok next) :
    Exists fun moved => Moved env fs mdata mtarget lname moved ∧ Exists fun middle =>
      (if (moved.entries mdata).st.isDir ∧ (moved.entries mdata).child ≠ .empty then
        moved.rehashChildren env mdata else .ok moved) = .ok middle ∧
      middle.updateFhPath mdata = .ok next := by
  obtain ⟨unlinked, unlinking, moving⟩ := bind_eq_ok.mp moving
  obtain ⟨middle, rehashing, updating⟩ := bind_eq_ok.mp moving
  exact ⟨_, unlinkEntry_moved isTree linked targetLinked legal unlinking, middle, rehashing,
    updating⟩

end Move

/-! ## Calls that rename an entry -/

section Calls

variable [DecidableEq Hash] {env : Env Hash} {fs next : Fs Hash}

/-- A rename has found the entry to move and the directory to move it to, and has
changed no link. -/
def RenameFinds (env : Env Hash) (fs : Fs Hash) (path target : Path) (mdata mtarget : Id)
    (lname : Component) (middle : Fs Hash) : Prop :=
  Exists fun found => Exists fun fetched => Exists fun between => Exists fun targetpath =>
    fs.findLocked env path = .ok (mdata, found) ∧ mdata ≠ 0 ∧
    (if (found.entries mdata).st.isDir then found.fetchChildren env mdata else .ok found) =
      .ok fetched ∧
    fetched.findLocked env target = .ok (0, between) ∧
    splitPath target = .ok (targetpath, lname) ∧
    between.findLocked env targetpath = .ok (mtarget, middle) ∧ mtarget ≠ 0

/-- A rename finds one thing. -/
theorem RenameFinds.unique {path target : Path} {mdata mtarget other otherTarget : Id}
    {lname name : Component} {middle last : Fs Hash}
    (one : RenameFinds env fs path target mdata mtarget lname middle)
    (two : RenameFinds env fs path target other otherTarget name last) :
    other = mdata ∧ otherTarget = mtarget ∧ name = lname ∧ last = middle := by
  obtain ⟨found, fetched, between, targetpath, lookup, -, fetch, missing, split, above, -⟩ := one
  obtain ⟨found', fetched', between', targetpath', lookup', -, fetch', missing', split', above',
    -⟩ := two
  obtain ⟨rfl, rfl⟩ := Prod.mk.inj (Except.ok.inj (lookup.symm.trans lookup'))
  obtain rfl := Except.ok.inj (fetch.symm.trans fetch')
  obtain ⟨-, rfl⟩ := Prod.mk.inj (Except.ok.inj (missing.symm.trans missing'))
  obtain ⟨rfl, rfl⟩ := Prod.mk.inj (Except.ok.inj (split.symm.trans split'))
  obtain ⟨rfl, rfl⟩ := Prod.mk.inj (Except.ok.inj (above.symm.trans above'))
  exact ⟨rfl, rfl, rfl, rfl⟩

/-- The lookups of a rename, one after the other: what is at the path, at the target, and above
the target. -/
def Fs.renameLookups (env : Env Hash) (path target : Path) (fs : Fs Hash) :
    Except Fault ((Id × Id × Id) × Component × Fs Hash) := do
  let (mdata, found) ← fs.findLocked env path
  let fetched ← (if (found.entries mdata).st.isDir then found.fetchChildren env mdata
    else .ok found)
  let (absent, between) ← fetched.findLocked env target
  let (targetpath, lname) ← splitPath target
  let (mtarget, middle) ← between.findLocked env targetpath
  return ((mdata, absent, mtarget), lname, middle)

theorem RenameFinds.ofLookups {path target : Path} {mdata mtarget : Id} {lname : Component}
    {middle : Fs Hash}
    (lookups : fs.renameLookups env path target = .ok ((mdata, 0, mtarget), lname, middle))
    (present : mdata ≠ 0) (some : mtarget ≠ 0) :
    RenameFinds env fs path target mdata mtarget lname middle := by
  obtain ⟨⟨id, found⟩, lookup, rest⟩ := bind_eq_ok.mp lookups
  obtain ⟨fetched, fetch, rest⟩ := bind_eq_ok.mp rest
  obtain ⟨⟨absent, between⟩, missing, rest⟩ := bind_eq_ok.mp rest
  obtain ⟨⟨targetpath, name⟩, split, rest⟩ := bind_eq_ok.mp rest
  obtain ⟨⟨above, last⟩, directory, rest⟩ := bind_eq_ok.mp rest
  simp only [pure, Except.pure, Except.ok.injEq, Prod.mk.injEq] at rest
  obtain ⟨⟨rfl, rfl, rfl⟩, rfl, rfl⟩ := rest
  exact ⟨found, fetched, between, targetpath, lookup, present, fetch, missing, split, directory,
    some⟩

/-- What a rename has found is linked. -/
theorem RenameFinds.populated {path target : Path} {mdata mtarget : Id} {lname : Component}
    {middle : Fs Hash} (isTree : IsTree fs)
    (finds : RenameFinds env fs path target mdata mtarget lname middle) :
    Populated env fs middle ∧ mdata ∈ middle.index ∧ mtarget ∈ middle.index := by
  obtain ⟨found, fetched, between, targetpath, lookup, present, fetch, absent, -, above, some⟩ :=
    finds
  obtain ⟨first, known⟩ := findLocked_populated isTree lookup
  have foundTree := first.isTree isTree
  have second : Populated env found fetched := by
    split at fetch
    · exact fetchChildren_populated foundTree (known present) fetch
    · exact Except.ok.inj fetch ▸ .refl
  have fetchedTree := second.isTree foundTree
  obtain ⟨third, -⟩ := findLocked_populated fetchedTree absent
  have betweenTree := third.isTree fetchedTree
  obtain ⟨fourth, targetKnown⟩ := findLocked_populated betweenTree above
  have rest := (second.trans third).trans fourth
  exact ⟨first.trans rest, (rest.stays foundTree (known present)).linked, targetKnown some⟩

/-- A rename moves the entry it finds, or only reads directories. -/
theorem renameEntry_cases {path target : Path} {code : Int} (isTree : IsTree fs)
    (result : fs.renameEntry env path target = .ok (code, next)) :
    code ≠ 0 ∧ Populated env fs next ∨
      Exists fun mdata => Exists fun mtarget => Exists fun lname => Exists fun middle =>
        RenameFinds env fs path target mdata mtarget lname middle ∧
        middle.moveEntry env mdata mtarget lname = .ok next := by
  obtain ⟨⟨mdata, found⟩, lookup, result⟩ := bind_eq_ok.mp result
  obtain ⟨first, known⟩ := findLocked_populated isTree lookup
  have foundTree := first.isTree isTree
  simp only at result
  split at result
  · obtain ⟨rfl, rfl⟩ := Prod.mk.inj (Except.ok.inj result)
    exact Or.inl ⟨by decide, first⟩
  · next present =>
      obtain ⟨fetched, fetch, result⟩ := bind_eq_ok.mp result
      have second : Populated env found fetched := by
        split at fetch
        · exact fetchChildren_populated foundTree (known present) fetch
        · exact Except.ok.inj fetch ▸ .refl
      have fetchedTree := second.isTree foundTree
      obtain ⟨⟨absent, between⟩, missing, result⟩ := bind_eq_ok.mp result
      obtain ⟨third, -⟩ := findLocked_populated fetchedTree missing
      have before := (first.trans second).trans third
      simp only at result
      split at result
      · obtain ⟨rfl, rfl⟩ := Prod.mk.inj (Except.ok.inj result)
        exact Or.inl ⟨by decide, before⟩
      · next none =>
          obtain rfl := not_not.mp none
          obtain ⟨⟨targetpath, lname⟩, split, result⟩ := bind_eq_ok.mp result
          obtain ⟨⟨mtarget, middle⟩, above, result⟩ := bind_eq_ok.mp result
          obtain ⟨fourth, -⟩ := findLocked_populated (third.isTree fetchedTree) above
          simp only at result
          split at result
          · obtain ⟨rfl, rfl⟩ := Prod.mk.inj (Except.ok.inj result)
            exact Or.inl ⟨by decide, before.trans fourth⟩
          · next some =>
              split at result
              · obtain ⟨rfl, rfl⟩ := Prod.mk.inj (Except.ok.inj result)
                exact Or.inl ⟨by decide, before.trans fourth⟩
              · obtain ⟨last, moved, result⟩ := bind_eq_ok.mp result
                obtain ⟨-, rfl⟩ := Prod.mk.inj (Except.ok.inj result)
                exact Or.inr ⟨mdata, mtarget, lname, middle, ⟨found, fetched, between, targetpath,
                  lookup, present, fetch, missing, split, above, some⟩, moved⟩

omit [Inhabited Hash] [DecidableEq Hash] in
theorem Moved.noLinks [Inhabited Hash] {mdata mtarget : Id} {lname : Component}
    (moved : Moved env fs mdata mtarget lname next) (noLinks : NoLinks fs) : NoLinks next := by
  intro id linked
  have old := noLinks id ((moved.index id).mp linked)
  by_cases same : id = mdata
  · rw [same, moved.place.hardlink, ← same]
    exact old
  · exact (moved.others id same).hardlink.trans old

omit [DecidableEq Hash] in
/-- A rename keeps the tree, if the target is not inside what is renamed. -/
theorem moveEntry_tree {mdata mtarget : Id} {lname : Component} (isTree : IsTree fs)
    (linked : mdata ∈ fs.index) (targetLinked : mtarget ∈ fs.index)
    (legal : ¬ Climbs fs.father mdata mtarget)
    (moving : fs.moveEntry env mdata mtarget lname = .ok next) : IsTree next := by
  obtain ⟨moved, move, middle, rehash, updating⟩ :=
    moveEntry_cases isTree linked targetLinked legal moving
  refine (updateFhPath_rehashed updating).isTree ?_
  split at rehash
  · have movedLinked := (move.index mdata).mpr linked
    obtain ⟨child, read, reading, rehashed⟩ :=
      rehashChildren_rehashed move.isTree movedLinked rehash
    exact rehashed.isTree (getChild_isTree move.isTree movedLinked reading)
  · exact Except.ok.inj rehash ▸ move.isTree

omit [DecidableEq Hash] in
theorem moveEntry_isTree {mdata mtarget : Id} {lname : Component} (isTree : IsTree fs)
    (noLinks : NoLinks fs) (linked : mdata ∈ fs.index) (targetLinked : mtarget ∈ fs.index)
    (legal : ¬ Climbs fs.father mdata mtarget)
    (moving : fs.moveEntry env mdata mtarget lname = .ok next) : IsTree next ∧ NoLinks next := by
  refine ⟨moveEntry_tree isTree linked targetLinked legal moving, ?_⟩
  obtain ⟨moved, move, middle, rehash, updating⟩ :=
    moveEntry_cases isTree linked targetLinked legal moving
  have movedLinks := move.noLinks noLinks
  refine (updateFhPath_rehashed updating).noLinks ?_
  split at rehash
  · have movedLinked := (move.index mdata).mpr linked
    obtain ⟨child, read, reading, rehashed⟩ :=
      rehashChildren_rehashed move.isTree movedLinked rehash
    have populated : Populated env moved read := .step .refl movedLinked reading
    exact rehashed.noLinks (populated.noLinks move.isTree movedLinks)
  · exact Except.ok.inj rehash ▸ movedLinks

end Calls

end Metadata
end Mcachefs
