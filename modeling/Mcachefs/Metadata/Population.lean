import Mcachefs.Metadata.Shape

namespace Mcachefs
namespace Metadata

open Library

/-!
# Reading directories into the tree

Entries come into the tree when a directory is read from the source, when an
entry is made, and for the virtual files.  `Added` is what one new entry changes,
and `Grown` what the new entries of one directory change.  Both leave every
other entry as it was.
-/

variable {Hash : Type}

@[simp] theorem insertHash_entries {fs : Fs Hash} {id : Id} :
    (fs.insertHash id).entries = fs.entries := rfl

/-! ## Trees -/

/-- The metadata file between two calls. -/
structure Tree [Inhabited Hash] (fs : Fs Hash) (kids : Id -> List Id) (free : List Id) : Prop where
  shape : Shape fs fs.first kids free none
  indexed : Indexed fs free none

namespace Tree

variable [Inhabited Hash] {fs next : Fs Hash} {kids : Id -> List Id} {free : List Id}

theorem mem_index (tree : Tree fs kids free) {id : Id} : id ∈ fs.index ↔ Node fs free id :=
  tree.indexed.mem_iff

theorem some (tree : Tree fs kids free) {id : Id} (isNode : Node fs free id) : id ≠ 0 :=
  tree.shape.forest.some id isNode

theorem child (tree : Tree fs kids free) {id child : Id} (isNode : Node fs free id)
    (member : child ∈ kids id) :
    Node fs free child ∧ child ≠ rootId ∧ fs.father child = id := by
  obtain ⟨childNode, below, link⟩ := tree.shape.forest.child id child isNode member
  exact ⟨childNode, fun isRoot => below (Or.inl isRoot), link⟩

/-- Nodes below the root have a father, and are among its children. -/
theorem listed (tree : Tree fs kids free) {id : Id} (isNode : Node fs free id)
    (notRoot : id ≠ rootId) : Node fs free (fs.father id) ∧ id ∈ kids (fs.father id) :=
  tree.shape.below isNode notRoot

theorem father_eq_zero (tree : Tree fs kids free) {id : Id} (isNode : Node fs free id) :
    fs.father id = 0 ↔ id = rootId := by
  refine ⟨fun none => ?_, fun isRoot => isRoot ▸ tree.shape.rootFather⟩
  by_contra notRoot
  exact tree.some (tree.listed isNode notRoot).1 none

/-- An entry without a first child has no children. -/
theorem kids_eq_nil (tree : Tree fs kids free) {id : Id} (isNode : Node fs free id) :
    kids id = [] ↔ fs.first id = 0 :=
  ((tree.shape.forest.list id isNode).head_zero_iff).symm

/-- Fields that no link is among may change. -/
theorem congr (tree : Tree fs kids free) (alloced_nb : next.alloced_nb = fs.alloced_nb)
    (first_free : next.first_free = fs.first_free) (index : next.index.Perm fs.index)
    (links : forall id, Node fs free id -> next.father id = fs.father id ∧
      next.next id = fs.next id ∧ next.first id = fs.first id)
    (same : forall id, id ∈ free -> next.entries id = fs.entries id) : Tree next kids free := by
  refine ⟨tree.shape.frame alloced_nb first_free (fun id isNode => (links id isNode).1)
    (fun id isNode => (links id isNode).2.1) (fun id isNode => (links id isNode).2.2) same,
    index.nodup_iff.mpr tree.indexed.nodup, fun id => ?_⟩
  rw [index.mem_iff, tree.indexed.exact, Node, Node, alloced_nb]

end Tree

/-! ## One new entry -/

/-- What `mcachefs_metadata_build_hash` computes. -/
def childHash (env : Env Hash) (above : Entry Hash) (name : Component) : Hash :=
  env.hashing.continueHash
    (if above.father ≠ 0 then env.hashing.continueHash above.hash [slash] else above.hash) name

/-- One entry has been added to a node. -/
structure Added [Inhabited Hash] (env : Env Hash) (fs : Fs Hash) (kids : Id -> List Id)
    (free : List Id) (father id : Id) (name : Component) (st : Stat) (child : Child)
    (next : Fs Hash) (rest : List Id) : Prop where
  tree : Tree next (Function.update kids father (id :: kids father)) rest
  fresh : ¬ Node fs free id
  nodes : forall other, Node next rest other ↔ Node fs free other ∨ other = id
  entry : next.entries id =
    ⟨childHash env (fs.entries father) name, name, st, father, child, fs.first father, 0, 0⟩
  above : next.entries father = { fs.entries father with child := .first id }
  kept : forall other, Node fs free other -> other ≠ father -> next.entries other = fs.entries other
  mfiles : next.mfiles = fs.mfiles
  reads : next.reads = fs.reads

section Added

variable [Inhabited Hash] {env : Env Hash} {fs : Fs Hash} {kids : Id -> List Id} {free : List Id}
  {father : Id}

/-- A top without children is above nothing but itself. -/
theorem Shape.apart {id : Id} (shape : Shape fs fs.first kids free (some id)) (leaf : kids id = [])
    (isNode : Node fs free father) (different : father ≠ id) : ¬ Climbs fs.father id father := by
  intro climbs
  induction climbs with
  | here => exact different rfl
  | @up other present _ inductionHypothesis =>
      by_cases isRoot : other = rootId
      · exact present (isRoot ▸ shape.rootFather)
      · have below : ¬ Top (some id) other := by
          rintro (isTop | held)
          · exact isRoot isTop
          · exact different (Option.some.inj held).symm
        obtain ⟨fatherNode, member⟩ := shape.forest.listed other isNode below
        refine inductionHypothesis fatherNode fun same => ?_
        rw [same, leaf] at member
        cases member

/-- An allocated entry with its fields set is linked and put into the index. -/
theorem Allocated.added {id : Id} {rest : List Id} {taken next : Fs Hash} {name : Component}
    {st : Stat} {child : Child} (tree : Tree fs kids free)
    (allocated : Allocated fs kids free id rest taken) (isNode : Node fs free father)
    (childId : child.id = 0)
    (entry : next.entries id =
      ⟨childHash env (fs.entries father) name, name, st, father, child, fs.first father, 0, 0⟩)
    (above : next.entries father = { fs.entries father with child := .first id })
    (others : forall other, other ≠ id -> other ≠ father ->
      next.entries other = taken.entries other)
    (alloced_nb : next.alloced_nb = taken.alloced_nb)
    (first_free : next.first_free = taken.first_free)
    (index : next.index.Perm (id :: fs.index)) (mfiles : next.mfiles = taken.mfiles)
    (reads : next.reads = taken.reads) :
    Added env fs kids free father id name st child next rest := by
  have different : id ≠ father := fun same => allocated.fresh (same ▸ isNode)
  have inside := (allocated.nodes father).mpr (Or.inl isNode)
  have leaf : kids id = [] := tree.shape.outside id allocated.fresh
  have linked := allocated.shape.linkEntry inside
    (allocated.shape.apart leaf inside different.symm)
  have kept := allocated.kept father isNode
  have firstEq : taken.first father = fs.first father :=
    congrArg (Child.id ∘ Entry.child) kept
  have fieldsOf : forall other, Node taken rest other ->
      next.father other = (taken.linkEntry father id).father other ∧
        next.next other = (taken.linkEntry father id).next other ∧
        next.first other = (taken.linkEntry father id).first other := by
    intro other otherNode
    rw [linkEntry_fathers different, linkEntry_nexts different, linkEntry_firsts different]
    by_cases isChild : other = id
    · subst isChild
      obtain ⟨link, blank⟩ := allocated.blank
      simp only [Function.update_self, Function.update_of_ne different, Fs.father, Fs.next,
        Fs.first, entry, kept, childId, blank]
      exact ⟨trivial, trivial, rfl⟩
    · by_cases isFather : other = father
      · subst isFather
        simp only [Function.update_self, Function.update_of_ne isChild, Fs.father, Fs.next,
          Fs.first, above, kept]
        exact ⟨trivial, trivial, rfl⟩
      · simp only [Function.update_of_ne isChild, Function.update_of_ne isFather, Fs.father,
          Fs.next, Fs.first, others other isChild isFather, and_self]
  have nodes : forall other, Node next rest other ↔ Node fs free other ∨ other = id := by
    intro other
    rw [Node, alloced_nb]
    exact allocated.nodes other
  refine ⟨⟨linked.frame alloced_nb first_free (fun other at' => (fieldsOf other at').1)
    (fun other at' => (fieldsOf other at').2.1) (fun other at' => (fieldsOf other at').2.2)
    fun other member => ?_, index.nodup_iff.mpr (List.nodup_cons.mpr ⟨?_, tree.indexed.nodup⟩),
    fun other => ?_⟩, allocated.fresh, nodes, entry, above, fun other otherNode notFather => ?_,
    mfiles.trans allocated.mfiles, reads.trans allocated.reads⟩
  · have notChild : other ≠ id := by
      rintro rfl
      exact ((allocated.nodes other).mpr (Or.inr rfl)).2.2 member
    have notFather : other ≠ father := by
      rintro rfl
      exact inside.2.2 member
    rw [others other notChild notFather, linkEntry_other notChild notFather]
  · exact fun member => allocated.fresh (tree.mem_index.mp member)
  · rw [index.mem_iff, List.mem_cons, nodes, tree.mem_index, or_comm]
    exact (and_iff_left (Option.some_ne_none other).symm).symm
  · have notChild : other ≠ id := by
      rintro rfl
      exact allocated.fresh otherNode
    rw [others other notChild notFather]
    exact allocated.kept other otherNode

section

variable [DecidableEq Hash] {id : Id} {rest : List Id} {taken : Fs Hash}

omit [DecidableEq Hash] in
/-- `mcachefs_metadata_do_add_child` of an allocated entry. -/
theorem Allocated.doAddChild {change : Entry Hash -> Entry Hash} {name : Component} {st : Stat}
    (tree : Tree fs kids free) (allocated : Allocated fs kids free id rest taken)
    (isNode : Node fs free father)
    (changed : change (taken.entries id) = { taken.entries id with d_name := name, st := st }) :
    Added env fs kids free father id name st .unread
      ((taken.modify id change).doAddChild env father id) rest := by
  have different : id ≠ father := fun same => allocated.fresh (same ▸ isNode)
  have kept := allocated.kept father isNode
  have above : ((taken.modify id change).linkEntry father id).entries father =
      { fs.entries father with child := .first id } := by
    rw [linkEntry_father different, modify_other different.symm, kept]
  obtain ⟨link, blank⟩ := allocated.blank
  refine allocated.added tree isNode rfl ?_ ?_ (fun other notChild notFather => ?_) rfl rfl ?_ rfl
    rfl
  · have linked : ((taken.modify id change).linkEntry father id).entries id =
        { taken.entries id with
          d_name := name, st := st, father := father, next := fs.first father } := by
      rw [linkEntry_child different, modify_self, changed, Fs.first, modify_other different.symm,
        kept]
      rfl
    change (Fs.buildHash env father id _).entries id = _
    rw [Fs.buildHash, modify_self, above, linked, blank]
    rfl
  · change (Fs.buildHash env father id _).entries father = _
    rw [Fs.buildHash, modify_other different.symm, above]
  · change (Fs.buildHash env father id _).entries other = _
    rw [Fs.buildHash, modify_other notChild, linkEntry_other notChild notFather,
      modify_other notChild]
  · rw [← allocated.index]
    exact List.perm_append_singleton _ _

omit [DecidableEq Hash] in
/-- One turn of the loop over `readdir`, for a name that is not skipped. -/
theorem Tree.readEntry (env : Env Hash) {de : Component × Stat} (tree : Tree fs kids free)
    (isNode : Node fs free father) (entered : ¬ (de.1 = dot ∨ de.1 = dotdot))
    (visible : ¬ (father = rootId ∧ de.1 = vopsName)) :
    Exists fun id => Exists fun rest => Added env fs kids free father id
      (de.1.take (NAME_MAX + 1)) de.2 .unread (Fs.readEntry env father fs de) rest := by
  obtain ⟨id, rest, taken, allocation, allocated⟩ := tree.shape.allocate
  refine ⟨id, rest, ?_⟩
  rw [Fs.readEntry, if_neg entered, if_neg visible, allocation]
  exact allocated.doAddChild tree isNode rfl

omit [DecidableEq Hash] in
theorem Tree.vopsCreate (env : Env Hash) (name : Component) (mode : UInt32) (size : Int)
    (tree : Tree fs kids free) (isNode : Node fs free father) :
    Exists fun id => Exists fun rest => Exists fun st => Exists fun next =>
      fs.vopsCreate env father name mode size = (id, next) ∧ st.st_mode = mode ∧
        Added env fs kids free father id name st .unread next rest := by
  obtain ⟨id, rest, taken, allocation, allocated⟩ := tree.shape.allocate
  rw [Fs.vopsCreate, allocation]
  exact ⟨id, rest, _, _, rfl, rfl, allocated.doAddChild tree isNode rfl⟩

omit [DecidableEq Hash] in
/-- The entry that `mcachefs_metadata_make_entry` makes. -/
theorem Tree.makeChild (env : Env Hash) (context : Context) (lname : Component) (mode : UInt32)
    (rdev : UInt64) (tree : Tree fs kids free) (isNode : Node fs free father) :
    Exists fun id => Exists fun rest =>
      Added env fs kids free father id (lname.take NAME_MAX) (Fs.madeStat context mode rdev)
        (if (Fs.madeStat context mode rdev).isDir then .empty else .unread)
        (fs.makeChild env context father lname mode rdev) rest := by
  obtain ⟨id, rest, taken, allocation, allocated⟩ := tree.shape.allocate
  have different : id ≠ father := fun same => allocated.fresh (same ▸ isNode)
  have kept := allocated.kept father isNode
  refine ⟨id, rest, ?_⟩
  rw [Fs.makeChild, allocation]
  refine allocated.added tree isNode ?_ ?_ ?_ (fun other notChild notFather => ?_) rfl rfl ?_ rfl
    rfl
  · split <;> rfl
  · rw [linkEntry_child different, modify_self, insertHash_entries, Fs.buildHash, modify_self,
      modify_self, modify_other different.symm, Fs.first, modify_other different.symm,
      insertHash_entries, modify_other different.symm, modify_other different.symm, kept]
    rfl
  · rw [linkEntry_father different, modify_other different.symm, insertHash_entries, Fs.buildHash,
      modify_other different.symm, modify_other different.symm, kept]
  · rw [linkEntry_other notChild notFather, modify_other notChild, insertHash_entries,
      Fs.buildHash, modify_other notChild, modify_other notChild]
  · rw [← allocated.index]
    exact List.perm_append_singleton _ _

end

end Added

/-! ## The new entries of a directory -/

/-- The entries that `mcachefs_metadata_get_child` makes of a listing. -/
def entered (father : Id) (des : List (Component × Stat)) : List (Component × Stat) :=
  (des.filter fun de => ¬ (de.1 = dot ∨ de.1 = dotdot) ∧ ¬ (father = rootId ∧ de.1 = vopsName)).map
    fun de => (de.1.take (NAME_MAX + 1), de.2)

/-- The entries `new` have been added to a node, the last of the listing
first. -/
structure Grown [Inhabited Hash] (env : Env Hash) (fs : Fs Hash) (kids : Id -> List Id)
    (free : List Id) (father : Id) (listing : List (Component × Stat)) (next : Fs Hash)
    (rest new : List Id) : Prop where
  tree : Tree next (Function.update kids father (new ++ kids father)) rest
  fresh : forall id, id ∈ new -> ¬ Node fs free id
  nodes : forall other, Node next rest other ↔ Node fs free other ∨ other ∈ new
  names : new.map (fun id => ((next.entries id).d_name, (next.entries id).st)) = listing.reverse
  entries : forall id, id ∈ new -> Exists fun link => next.entries id =
    ⟨childHash env (fs.entries father) (next.entries id).d_name, (next.entries id).d_name,
      (next.entries id).st, father, .unread, link, 0, 0⟩
  above : next.entries father = { fs.entries father with child := (next.entries father).child }
  kept : forall other, Node fs free other -> other ≠ father -> next.entries other = fs.entries other
  mfiles : next.mfiles = fs.mfiles

namespace Grown

variable [Inhabited Hash] {env : Env Hash} {fs middle next : Fs Hash} {kids : Id -> List Id}
  {free rest : List Id} {father : Id}

theorem refl (tree : Tree fs kids free) : Grown env fs kids free father [] fs free [] where
  tree := by
    rw [List.nil_append, Function.update_eq_self]
    exact tree
  fresh _ member := nomatch member
  nodes other := by simp
  names := rfl
  entries _ member := nomatch member
  above := rfl
  kept _ _ _ := rfl
  mfiles := rfl

/-- One entry more, before the others. -/
theorem cons {id : Id} {free' new : List Id} {de : Component × Stat}
    {listing : List (Component × Stat)} (isNode : Node fs free father)
    (added : Added env fs kids free father id de.1 de.2 .unread middle free')
    (grown : Grown env middle (Function.update kids father (id :: kids father)) free' father listing
      next rest new) :
    Grown env fs kids free father (de :: listing) next rest (new ++ [id]) := by
  have different : id ≠ father := fun same => added.fresh (same ▸ isNode)
  have idNode := (added.nodes id).mpr (Or.inr rfl)
  have fatherNode := (added.nodes father).mpr (Or.inl isNode)
  have idKept : next.entries id = middle.entries id := grown.kept id idNode different
  refine ⟨?_, fun other member old => ?_, fun other => ?_, ?_, fun other member => ?_, ?_,
    fun other old notFather => ?_, grown.mfiles.trans added.mfiles⟩
  · have tree := grown.tree
    rwa [Function.update_idem, Function.update_self, List.append_cons] at tree
  · rcases List.mem_append.mp member with member | member
    · exact grown.fresh other member ((added.nodes other).mpr (Or.inl old))
    · exact added.fresh (List.mem_singleton.mp member ▸ old)
  · rw [grown.nodes, added.nodes, List.mem_append, List.mem_singleton, or_assoc]
    exact or_congr_right or_comm
  · rw [List.map_append, grown.names, List.reverse_cons, List.map_singleton, idKept, added.entry]
  · rcases List.mem_append.mp member with member | member
    · obtain ⟨link, entry⟩ := grown.entries other member
      rw [added.above] at entry
      exact ⟨link, entry⟩
    · obtain rfl := List.mem_singleton.mp member
      rw [idKept, added.entry]
      exact ⟨_, rfl⟩
  · have above := grown.above
    rwa [added.above] at above
  · rw [grown.kept other ((added.nodes other).mpr (Or.inl old)) notFather,
      added.kept other old notFather]

/-- Old entries are alike. -/
theorem alike {listing : List (Component × Stat)} {new : List Id}
    (grown : Grown env fs kids free father listing next rest new) {other : Id}
    (old : Node fs free other) : (next.entries other).Alike (fs.entries other) := by
  by_cases same : other = father
  · subst same
    rw [grown.above]
    exact ⟨rfl, rfl, rfl, rfl, rfl, rfl⟩
  · rw [grown.kept other old same]
    exact .refl _

/-- A directory that was empty is marked so. -/
theorem markEmpty {listing : List (Component × Stat)} {new : List Id}
    (grown : Grown env fs kids free father listing next rest new) (isNode : Node fs free father) :
    Grown env fs kids free father listing (next.markEmpty father) rest new ∧
      ((next.markEmpty father).entries father).child ≠ .unread := by
  unfold Fs.markEmpty
  split
  · next unread =>
      have inside := (grown.nodes father).mpr (Or.inl isNode)
      have apart : forall id, id ∈ new -> id ≠ father := fun id member same =>
        grown.fresh id member (same ▸ isNode)
      refine ⟨⟨grown.tree.congr rfl rfl (List.Perm.refl _) (fun id _ => ?_) (fun id member =>
        modify_other fun same => inside.2.2 (same ▸ member)), grown.fresh, grown.nodes, ?_,
        fun id member => ?_, ?_, fun other old notFather => ?_, grown.mfiles⟩, ?_⟩
      · rw [modify_father, modify_next, modify_first, update_father, update_next]
        refine ⟨rfl, rfl, ?_⟩
        by_cases same : id = father
        · subst same
          rw [Function.update_self, Fs.first, unread]
          rfl
        · rw [Function.update_of_ne same]
      · rw [← grown.names]
        refine List.map_congr_left fun id member => ?_
        rw [modify_other (apart id member)]
      · rw [modify_other (apart id member)]
        exact grown.entries id member
      · rw [modify_self, grown.above]
      · rw [modify_other notFather]
        exact grown.kept other old notFather
      · rw [modify_self]
        exact Child.empty_ne_unread
  · next read => exact ⟨grown, read⟩

end Grown

section GetChild

variable [Inhabited Hash] [DecidableEq Hash] {env : Env Hash} {fs next : Fs Hash}
  {kids : Id -> List Id} {free : List Id} {father : Id}

omit [DecidableEq Hash] in
/-- The loop over `readdir`. -/
theorem Tree.readEntries (env : Env Hash) (tree : Tree fs kids free) (isNode : Node fs free father)
    (des : List (Component × Stat)) :
    Exists fun rest => Exists fun new =>
      Grown env fs kids free father (entered father des) (des.foldl (Fs.readEntry env father) fs)
        rest new := by
  induction des generalizing fs kids free with
  | nil => exact ⟨free, [], .refl tree⟩
  | cons de des inductionHypothesis =>
      rw [List.foldl_cons]
      by_cases skipped : (de.1 = dot ∨ de.1 = dotdot) ∨ (father = rootId ∧ de.1 = vopsName)
      · have same : Fs.readEntry env father fs de = fs := by
          unfold Fs.readEntry
          split
          · rfl
          · next entered => exact if_pos (skipped.resolve_left entered)
        have listing : entered father (de :: des) = entered father des := by
          rw [entered, List.filter_cons_of_neg, ← entered]
          rw [decide_eq_true_eq]
          tauto
        rw [same, listing]
        exact inductionHypothesis tree isNode
      · obtain ⟨notDot, visible⟩ := not_or.mp skipped
        obtain ⟨id, free', added⟩ := tree.readEntry env isNode notDot visible
        have listing : entered father (de :: des) =
            (de.1.take (NAME_MAX + 1), de.2) :: entered father des := by
          rw [entered, List.filter_cons_of_pos, List.map_cons, ← entered]
          rw [decide_eq_true_eq]
          exact ⟨notDot, visible⟩
        obtain ⟨rest, new, grown⟩ :=
          inductionHypothesis added.tree ((added.nodes father).mpr (Or.inl isNode))
        rw [listing]
        exact ⟨rest, new ++ [id], .cons isNode added grown⟩

omit [DecidableEq Hash] in
/-- `mcachefs_metadata_get_child` reads a directory that has not been read, or
changes nothing. -/
theorem Tree.getChild {child : Id} (tree : Tree fs kids free) (isNode : Node fs free father)
    (result : fs.getChild env father = .ok (child, next)) :
    child = next.first father ∧
      (next = { fs with reads := next.reads } ∨
        (fs.entries father).child = .unread ∧ (fs.entries father).st.isDir = true ∧
          (next.entries father).child ≠ .unread ∧
          Exists fun names => Exists fun top => Exists fun des =>
            fs.climb env.fuel father = Option.some (names, top) ∧
            env.source fs.reads names = Option.some des ∧
            Exists fun rest => Exists fun new =>
              Grown env fs kids free father (entered father des) next rest new) := by
  unfold Fs.getChild at result
  split at result
  · next empty =>
      obtain ⟨rfl, rfl⟩ := Prod.mk.inj (Except.ok.inj result)
      exact ⟨by rw [Fs.first, empty]; rfl, Or.inl rfl⟩
  · next first =>
      obtain ⟨rfl, rfl⟩ := Prod.mk.inj (Except.ok.inj result)
      exact ⟨by rw [Fs.first, first]; rfl, Or.inl rfl⟩
  · next unread =>
      have none : fs.first father = 0 := by rw [Fs.first, unread]; rfl
      split at result
      · obtain ⟨rfl, rfl⟩ := Prod.mk.inj (Except.ok.inj result)
        exact ⟨none.symm, Or.inl rfl⟩
      · next directory =>
          obtain ⟨answer, opened, result⟩ := bind_eq_ok.mp result
          unfold Fs.recurseOpen at opened
          split at opened
          · cases opened
          · next names top way =>
              obtain rfl := Except.ok.inj opened
              cases answered : env.source fs.reads names with
              | none =>
                  rw [answered] at result
                  obtain ⟨rfl, rfl⟩ := Prod.mk.inj (Except.ok.inj result)
                  exact ⟨none.symm, Or.inl rfl⟩
              | some des =>
                  rw [answered] at result
                  obtain ⟨rfl, rfl⟩ := Prod.mk.inj (Except.ok.inj result)
                  have counted : Tree { fs with reads := fs.reads + 1 } kids free :=
                    tree.congr rfl rfl (List.Perm.refl _) (fun _ _ => ⟨rfl, rfl, rfl⟩)
                      fun _ _ => rfl
                  obtain ⟨rest, new, grown⟩ := counted.readEntries env isNode des
                  obtain ⟨grown, read⟩ := grown.markEmpty isNode
                  refine ⟨rfl, Or.inr ⟨unread, Bool.not_eq_false _ ▸ directory, read, names, top, des,
                    way, answered, rest, new, ?_⟩⟩
                  exact ⟨grown.tree, grown.fresh, grown.nodes, grown.names, grown.entries,
                    grown.above, grown.kept, grown.mfiles⟩

end GetChild

end Metadata
end Mcachefs
