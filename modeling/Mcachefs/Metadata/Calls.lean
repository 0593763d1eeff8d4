import Mcachefs.Metadata.Renaming

namespace Mcachefs
namespace Metadata

open Library

/-!
# What calls change

Calls that look up, create and remove entries are made of three changes of the
tree: a directory is read, an entry is added to a node, and entries are removed.
`Changed` says that a state comes from another one by such changes, so that an
invariant has to be kept by each of the three.  A rename is a change of its own.

An entry that is not a directory has no children as long as none are made below
it.  Nothing keeps `mcachefs_metadata_make_entry` from that, and an unlink frees
such an entry alone; `UnlinksLeaf` speaks of the calls that do not.
-/

variable {Hash : Type} [Inhabited Hash] [DecidableEq Hash]

/-- Directories have been read, entries added and entries removed. -/
inductive Changed (env : Env Hash) (fs : Fs Hash) : Fs Hash -> Prop
  | refl : Changed env fs fs
  | read {middle next : Fs Hash} {father child : Id} (before : Changed env fs middle)
      (linked : father ∈ middle.index) (result : middle.getChild env father = .ok (child, next)) :
      Changed env fs next
  | added {middle next : Fs Hash} {kids : Id -> List Id} {free rest : List Id} {father id : Id}
      {name : Component} {st : Stat} {child : Child} (before : Changed env fs middle)
      (tree : Tree middle kids free) (isNode : Node middle free father)
      (result : Added env middle kids free father id name st child next rest) : Changed env fs next
  | removed {middle next : Fs Hash} (before : Changed env fs middle) (isTree : IsTree next)
      (result : Shrinks middle next) : Changed env fs next

variable {env : Env Hash} {fs middle next : Fs Hash}

namespace Changed

omit [DecidableEq Hash] in
theorem trans (one : Changed env fs middle) (two : Changed env middle next) :
    Changed env fs next := by
  induction two with
  | refl => exact one
  | read _ linked result inductionHypothesis => exact .read inductionHypothesis linked result
  | added _ tree isNode result inductionHypothesis =>
      exact .added inductionHypothesis tree isNode result
  | removed _ isTree result inductionHypothesis =>
      exact .removed inductionHypothesis isTree result

omit [DecidableEq Hash] in
theorem ofPopulated (populated : Populated env fs next) : Changed env fs next := by
  induction populated with
  | refl => exact .refl
  | step _ linked read inductionHypothesis => exact .read inductionHypothesis linked read

omit [DecidableEq Hash] in
theorem isTree (changed : Changed env fs next) (isTree : IsTree fs) : IsTree next := by
  induction changed with
  | refl => exact isTree
  | read _ linked result inductionHypothesis =>
      exact getChild_isTree inductionHypothesis linked result
  | added _ _ _ result _ => exact ⟨_, _, result.tree⟩
  | removed _ isTree _ _ => exact isTree

omit [DecidableEq Hash] in
theorem noLinks (changed : Changed env fs next) (isTree : IsTree fs) (noLinks : NoLinks fs) :
    NoLinks next := by
  induction changed with
  | refl => exact noLinks
  | @read middle next father child before linked result inductionHypothesis =>
      have populated : Populated env middle next := .step .refl linked result
      exact populated.noLinks (before.isTree isTree) inductionHypothesis
  | @added middle next kids free rest father id name st child _ tree isNode result
      inductionHypothesis =>
      intro other linked
      rcases (result.nodes other).mp (result.tree.mem_index.mp linked) with old | rfl
      · have before := inductionHypothesis other (tree.mem_index.mpr old)
        by_cases same : other = father
        · subst same
          rw [result.above]
          exact before
        · rw [result.kept other old same]
          exact before
      · rw [result.entry]
  | removed _ _ result inductionHypothesis => exact result.noLinks inductionHypothesis

end Changed

/-! ## Calls -/

/-- A new entry is made at the end, after lookups, or not at all. -/
theorem makeEntry_cases {context : Context} {path : Path} {mode : UInt32} {rdev : UInt64}
    {code : Int} (isTree : IsTree fs)
    (result : fs.makeEntry env context path mode rdev = .ok (code, next)) :
    code = -EEXIST ∧ Populated env fs next ∨
      code = 0 ∧ Exists fun father => Exists fun lname => Exists fun middle =>
        Populated env fs middle ∧ father ∈ middle.index ∧
        next = middle.makeChild env context father lname mode rdev := by
  obtain ⟨⟨mdata, first⟩, lookup, result⟩ := bind_eq_ok.mp result
  obtain ⟨populated, -⟩ := findLocked_populated isTree lookup
  simp only at result
  split at result
  · obtain ⟨rfl, rfl⟩ := Prod.mk.inj (Except.ok.inj result)
    exact Or.inl ⟨rfl, populated⟩
  · obtain ⟨⟨dpath, lname⟩, -, result⟩ := bind_eq_ok.mp result
    obtain ⟨⟨father, second⟩, above, result⟩ := bind_eq_ok.mp result
    have firstTree := populated.isTree isTree
    obtain ⟨further, known⟩ := findLocked_populated firstTree above
    simp only at result
    split at result
    · cases result
    · next present =>
        have secondTree := further.isTree firstTree
        obtain ⟨third, read, result⟩ := bind_eq_ok.mp result
        have last := (readChildren_populated (known present) read).1
        have linked := (last.stays secondTree (known present)).linked
        obtain ⟨rfl, rfl⟩ := Prod.mk.inj (Except.ok.inj result)
        exact Or.inr ⟨rfl, father, lname, third, (populated.trans further).trans last, linked, rfl⟩

theorem makeEntry_changed {context : Context} {path : Path} {mode : UInt32} {rdev : UInt64}
    {code : Int} (isTree : IsTree fs)
    (result : fs.makeEntry env context path mode rdev = .ok (code, next)) :
    Changed env fs next := by
  obtain ⟨-, populated⟩ | ⟨-, father, lname, middle, populated, linked, rfl⟩ :=
    makeEntry_cases isTree result
  · exact .ofPopulated populated
  · obtain ⟨kids, free, tree⟩ := populated.isTree isTree
    have isNode := tree.mem_index.mp linked
    obtain ⟨id, rest, added⟩ := tree.makeChild env context lname mode rdev isNode
    exact .added (.ofPopulated populated) tree isNode added

/-- A regular file or a symbolic link that an unlink finds has no children. -/
def UnlinksLeaf (env : Env Hash) (fs : Fs Hash) (path : Path) (isDir : Bool) : Prop :=
  forall id found, isDir = false -> fs.findLocked env path = .ok (id, found) ->
    (found.entries id).st.isReg = true ∨ (found.entries id).st.isLnk = true -> found.first id = 0

theorem rmdirUnlink_changed {path : Path} {isDir : Bool} {code : Int} (isTree : IsTree fs)
    (noLinks : NoLinks fs) (leaf : UnlinksLeaf env fs path isDir)
    (result : fs.rmdirUnlink env path isDir = .ok (code, next)) : Changed env fs next := by
  obtain ⟨found, id, lookup, middle, populated, ⟨-, rfl⟩ | ⟨-, linked, removed, type⟩⟩ :=
    rmdirUnlink_cases isTree noLinks result
  · exact .ofPopulated populated
  · have none : middle.first id = 0 := by
      cases isDir with
      | true => exact type
      | false =>
          obtain ⟨rfl, type⟩ := type
          exact leaf id middle rfl lookup type
    obtain ⟨lastTree, shrinks, -⟩ :=
      unlinkRemove_shrinks (populated.isTree isTree) linked none removed
    exact .removed (.ofPopulated populated) lastTree shrinks

omit [DecidableEq Hash] in
theorem vopsCreate_changed (env : Env Hash) {father : Id} (name : Component) (mode : UInt32)
    (size : Int) (isTree : IsTree fs) (linked : father ∈ fs.index) :
    Changed env fs (fs.vopsCreate env father name mode size).2 ∧
      (fs.vopsCreate env father name mode size).1 ∈
        (fs.vopsCreate env father name mode size).2.index := by
  obtain ⟨kids, free, tree⟩ := isTree
  have isNode := tree.mem_index.mp linked
  obtain ⟨id, rest, st, next, result, -, added⟩ :=
    tree.vopsCreate env name mode size isNode
  rw [result]
  exact ⟨.added .refl tree isNode added,
    added.tree.mem_index.mpr ((added.nodes id).mpr (Or.inr rfl))⟩

omit [DecidableEq Hash] in
theorem populateVops_changed (isTree : IsTree fs) (result : fs.populateVops env = .ok next) :
    Changed env fs next := by
  obtain ⟨⟨child, first⟩, read, result⟩ := bind_eq_ok.mp result
  obtain ⟨second, cleared, result⟩ := bind_eq_ok.mp result
  obtain rfl := Except.ok.inj result
  have firstTree := getChild_isTree isTree isTree.root read
  obtain ⟨middle, populated, secondTree, shrinks⟩ :=
    vopsRemovePrevious_shrinks firstTree firstTree.root cleared
  have before : Changed env fs second :=
    .removed (.trans (.read .refl isTree.root read) (.ofPopulated populated)) secondTree shrinks
  have directory := vopsCreate_changed env (vopsName.take (NAME_MAX + 1)) (S_IFDIR ||| 0o700) 0
    secondTree secondTree.root
  refine before.trans (directory.1.trans ?_)
  have files : forall (names : List Component) (state : Fs Hash) (father : Id), IsTree state ->
      father ∈ state.index ->
      Changed env state (names.foldl (Fs.vopsCreateFile env father) state) := by
    intro names
    induction names with
    | nil => exact fun _ _ _ _ => .refl
    | cons name names inductionHypothesis =>
        intro state father stateTree linked
        obtain ⟨kids, free, tree⟩ := stateTree
        have isNode := tree.mem_index.mp linked
        obtain ⟨id, rest, st, after, made, -, added⟩ :=
          tree.vopsCreate env (name.take NAME_MAX) (S_IFREG ||| 0o600) (2 ^ 20) isNode
        have file : Fs.vopsCreateFile env father state name = after := congrArg Prod.snd made
        rw [List.foldl_cons, file]
        have step : Changed env state after := .added .refl tree isNode added
        refine step.trans (inductionHypothesis after father ⟨_, _, added.tree⟩ ?_)
        exact added.tree.mem_index.mpr ((added.nodes father).mpr (Or.inl isNode))
  exact files _ _ _ (directory.1.isTree secondTree) directory.2

end Metadata
end Mcachefs
