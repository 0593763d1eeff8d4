import Mcachefs.Metadata.Calls
import Mcachefs.Metadata.HashInsert
import Mcachefs.Vops

namespace Mcachefs
namespace Metadata

open Library

/-!
# Ids in the tree and on the free list

`Partitioned` says that the ids of the metadata file are divided between the
tree and the free list, and that the links of the tree agree with each other.
Every run of calls keeps this, up to an unlink of an entry that is not a
directory and has children all the same: it frees the entry, and its children are
then neither in the tree nor free.
-/

variable {Hash : Type}

/-- The links of the tree have each child once in the list of its father. -/
structure Linked (fs : Fs Hash) (kids : Id -> List Id) : Prop where
  list : forall id, Forest.Reaches fs.first fs.next rootId id ->
    Segment fs.next (fs.first id) (kids id) 0 ∧ (kids id).Nodup
  exact : forall id child, Forest.Reaches fs.first fs.next rootId id ->
    (child ∈ kids id ↔
      Forest.Reaches fs.first fs.next rootId child ∧ child ≠ rootId ∧ fs.father child = id)
  father : forall id, Forest.Reaches fs.first fs.next rootId id -> id ≠ rootId ->
    Forest.Reaches fs.first fs.next rootId (fs.father id)
  ends : forall id, Forest.Reaches fs.first fs.next rootId id -> Climbs fs.father rootId id
  root : fs.father rootId = 0 ∧ fs.next rootId = 0

/-- Every id is in the tree or on the free list, and in either once. -/
def Partitioned (fs : Fs Hash) : Prop :=
  Exists fun kids => Exists fun free => Linked fs kids ∧
    Segment fs.next fs.first_free free 0 ∧ free.Nodup ∧
    (forall id, Forest.Reaches fs.first fs.next rootId id ∨ id ∈ free ->
      1 ≤ id ∧ id < fs.alloced_nb) ∧
    forall id, 1 ≤ id -> id < fs.alloced_nb ->
      (Forest.Reaches fs.first fs.next rootId id ↔ id ∉ free)

theorem Tree.partitioned [Inhabited Hash] {fs : Fs Hash} {kids : Id -> List Id} {free : List Id}
    (tree : Tree fs kids free) : Partitioned fs := by
  have tops : forall id, Node fs free id -> (Top none id ↔ id = rootId) := fun id _ =>
    or_iff_left (nomatch ·)
  have reaches : forall id, Forest.Reaches fs.first fs.next rootId id ↔ Node fs free id :=
    tree.shape.forest.reaches_iff tree.shape.root tops tree.shape.rootNext
  refine ⟨kids, free, ⟨fun id reached => ?_, fun id child reached => ?_, fun id reached notRoot => ?_,
    fun id reached => ?_, tree.shape.rootFather, tree.shape.rootNext⟩, tree.shape.freeList,
    tree.shape.freeList.nodup, fun id either => ?_, fun id above below => ?_⟩
  · have list := tree.shape.forest.list id ((reaches id).mp reached)
    exact ⟨list, list.nodup⟩
  · rw [reaches]
    refine ⟨tree.child ((reaches id).mp reached), fun ⟨childNode, notRoot, link⟩ => ?_⟩
    exact link ▸ (tree.listed childNode notRoot).2
  · exact (reaches _).mpr (tree.listed ((reaches id).mp reached) notRoot).1
  · exact tree.shape.forest.climbs_root tops ((reaches id).mp reached)
  · rcases either with reached | isFree
    · have isNode := (reaches id).mp reached
      exact ⟨isNode.1, isNode.2.1⟩
    · have range := tree.shape.freeRange id isFree
      exact ⟨range.1.le, range.2⟩
  · rw [reaches]
    exact ⟨fun isNode => isNode.2.2, fun apart => ⟨above, below, apart⟩⟩

theorem IsTree.partitioned [Inhabited Hash] {fs : Fs Hash} (isTree : IsTree fs) :
    Partitioned fs := by
  obtain ⟨kids, free, tree⟩ := isTree
  exact tree.partitioned

/-- When an entry with children goes, they are neither in the tree nor free. -/
theorem unlinkRemove_children [Inhabited Hash] {env : Env Hash} {fs next : Fs Hash} {id : Id}
    (isTree : IsTree fs) (linked : id ∈ fs.index) (children : fs.first id ≠ 0)
    (removed : fs.unlinkRemove env id = .ok next) : ¬ Partitioned next := by
  obtain ⟨kids, free, tree⟩ := isTree
  have isNode := tree.mem_index.mp linked
  obtain ⟨middle, unlinked, removed⟩ := bind_eq_ok.mp removed
  have notRoot : id ≠ rootId := by
    rintro rfl
    unfold Fs.unlinkEntry at unlinked
    rw [tree.shape.rootFather, if_pos rfl] at unlinked
    cases unlinked
  obtain ⟨_, _, -, shape, relinked⟩ := tree.shape.unlinkEntry isNode notRoot unlinked
  obtain ⟨childNode, childBelow, link⟩ :=
    tree.child isNode (tree.shape.forest.first_mem isNode children)
  have different : fs.first id ≠ id := fun same =>
    tree.shape.forest.not_climbs tree.shape.tops isNode
      (tree.shape.forest.first_mem isNode children) (by rw [same]; exact .here)
  -- The free list is the old one with the entry before it.
  have equal := remove_eq removed
  have nextEq : next.next = Function.update middle.next id middle.first_free := by
    have modified : (middle.modify id fun _ => .free middle.first_free).next =
        Function.update middle.next id middle.first_free := modify_next
    rw [equal]
    exact modified
  have freeList : Segment next.next id (id :: free) 0 := by
    rw [nextEq]
    exact shape.freeList.push (tree.some isNode) isNode.2.2
  have firstFree : next.first_free = id := by rw [equal]
  have fatherEq : next.father (fs.first id) = id := by
    have kept : next.father (fs.first id) = middle.father (fs.first id) := by
      rw [equal]
      exact congrArg Entry.father (Function.update_of_ne different _ _)
    exact kept.trans ((relinked.alike _).father.trans link)
  have alloced_nb : next.alloced_nb = fs.alloced_nb := by
    rw [equal]
    exact relinked.alloced_nb
  rintro ⟨kids', free', tree', list, -, -, either⟩
  obtain rfl : free' = id :: free := (firstFree ▸ list).unique freeList
  have reached := (either (fs.first id) childNode.1 (alloced_nb ▸ childNode.2.1)).mpr fun member =>
    (List.mem_cons.mp member).elim different childNode.2.2
  have above := fatherEq ▸ tree'.father (fs.first id) reached childBelow
  exact (either id isNode.1 (alloced_nb ▸ isNode.2.1)).mp above List.mem_cons_self

/-! ## Runs -/

/-- The calls that change the tree.  An entry that is passed by its id is one of
the tree. -/
inductive TreeCall
  | findLocked (path : Path)
  | getChild (father : Id)
  | makeEntry (context : Context) (path : Path) (mode : UInt32) (rdev : UInt64)
  | rmdirUnlink (path : Path) (isDir : Bool)
  | renameEntry (path target : Path)
  | removeChildren (metadata : Id)
  | populateVops
  deriving DecidableEq, Repr

section Runs

variable [Inhabited Hash] [DecidableEq Hash] {env : Env Hash} {fs next : Fs Hash}

namespace TreeCall

/-- A call; its result is left out. -/
def run (env : Env Hash) (fs : Fs Hash) : TreeCall -> Except Fault (Fs Hash)
  | .findLocked path => Prod.snd <$> fs.findLocked env path
  | .getChild father =>
      if father ∈ fs.index then Prod.snd <$> fs.getChild env father else .ok fs
  | .makeEntry context path mode rdev => Prod.snd <$> fs.makeEntry env context path mode rdev
  | .rmdirUnlink path isDir => Prod.snd <$> fs.rmdirUnlink env path isDir
  | .renameEntry path target => Prod.snd <$> fs.renameEntry env path target
  | .removeChildren metadata =>
      if metadata ∈ fs.index then fs.removeChildren env metadata else .ok fs
  | .populateVops => fs.populateVops env

/-- The target of a rename is not inside what it renames. -/
def Legal (env : Env Hash) (fs : Fs Hash) : TreeCall -> Prop
  | .renameEntry path target => forall mdata mtarget lname middle,
      RenameFinds env fs path target mdata mtarget lname middle ->
        ¬ Climbs middle.father mdata mtarget
  | _ => True

theorem legal_of_finds {path target : Path} {mdata mtarget : Id} {lname : Component}
    {middle : Fs Hash} (finds : RenameFinds env fs path target mdata mtarget lname middle)
    (apart : ¬ Climbs middle.father mdata mtarget) : (renameEntry path target).Legal env fs := by
  intro other otherTarget name last found
  obtain ⟨rfl, rfl, rfl, rfl⟩ := finds.unique found
  exact apart

/-- The root is inside nothing that can be renamed. -/
theorem legal_of_root {path target : Path} {mdata : Id} {lname : Component} {middle : Fs Hash}
    (finds : RenameFinds env fs path target mdata rootId lname middle) (notRoot : mdata ≠ rootId)
    (rootFather : middle.father rootId = 0) : (renameEntry path target).Legal env fs := by
  refine legal_of_finds finds fun climbs => ?_
  rcases climbs.inv with same | ⟨some, -⟩
  · exact notRoot same.symm
  · exact some rootFather

/-- An unlink does not find an entry with children. -/
def Leaf (env : Env Hash) (fs : Fs Hash) : TreeCall -> Prop
  | .rmdirUnlink path isDir => UnlinksLeaf env fs path isDir
  | _ => True

/-- A call makes some of the three changes, or is a rename that moves an entry. -/
theorem run_cases {call : TreeCall} (isTree : IsTree fs) (noLinks : NoLinks fs)
    (leaf : call.Leaf env fs) (result : call.run env fs = .ok next) :
    Changed env fs next ∨ Exists fun path => Exists fun target =>
      call = .renameEntry path target ∧ Exists fun mdata => Exists fun mtarget =>
        Exists fun lname => Exists fun middle =>
          RenameFinds env fs path target mdata mtarget lname middle ∧
            middle.moveEntry env mdata mtarget lname = .ok next := by
  cases call with
  | findLocked path =>
      obtain ⟨id, found⟩ := map_snd_eq_ok.mp result
      exact Or.inl (.ofPopulated (findLocked_populated isTree found).1)
  | getChild father =>
      simp only [run] at result
      split at result
      · next linked =>
          obtain ⟨child, read⟩ := map_snd_eq_ok.mp result
          exact Or.inl (.read .refl linked read)
      · exact Or.inl (Except.ok.inj result ▸ .refl)
  | makeEntry context path mode rdev =>
      obtain ⟨code, made⟩ := map_snd_eq_ok.mp result
      exact Or.inl (makeEntry_changed isTree made)
  | rmdirUnlink path isDir =>
      obtain ⟨code, gone⟩ := map_snd_eq_ok.mp result
      exact Or.inl (rmdirUnlink_changed isTree noLinks leaf gone)
  | renameEntry path target =>
      obtain ⟨code, renamed⟩ := map_snd_eq_ok.mp result
      rcases renameEntry_cases isTree renamed with ⟨-, populated⟩ | moves
      · exact Or.inl (.ofPopulated populated)
      · exact Or.inr ⟨path, target, rfl, moves⟩
  | removeChildren metadata =>
      simp only [run] at result
      split at result
      · next linked =>
          obtain ⟨lastTree, shrinks, -⟩ := removeChildren_shrinks isTree linked result
          exact Or.inl (.removed .refl lastTree shrinks)
      · exact Or.inl (Except.ok.inj result ▸ .refl)
  | populateVops => exact Or.inl (populateVops_changed isTree result)

/-- What one call preserves. -/
theorem run_isTree {call : TreeCall} (isTree : IsTree fs) (noLinks : NoLinks fs)
    (legal : call.Legal env fs) (leaf : call.Leaf env fs) (result : call.run env fs = .ok next) :
    IsTree next ∧ NoLinks next := by
  rcases run_cases isTree noLinks leaf result with
    changed | ⟨path, target, rfl, mdata, mtarget, lname, middle, finds, moved⟩
  · exact ⟨changed.isTree isTree, changed.noLinks isTree noLinks⟩
  · obtain ⟨populated, linked, targetLinked⟩ := finds.populated isTree
    exact moveEntry_isTree (populated.isTree isTree) (populated.noLinks isTree noLinks) linked
      targetLinked (legal mdata mtarget lname middle finds) moved

end TreeCall

omit [DecidableEq Hash] in
/-- A new metadata file is a tree without links. -/
theorem format_isTree (env : Env Hash) (st : Stat) :
    IsTree (Fs.format env st) ∧ NoLinks (Fs.format env st) := by
  obtain ⟨shape, indexed⟩ := Shape.format env st
  refine ⟨⟨_, _, shape, indexed⟩, fun id linked => ?_⟩
  have inside : id ∈ [rootId] := linked
  rw [List.mem_singleton.mp inside, Shape.format_root]
  rfl

/-- Every run of calls keeps the ids divided between the tree and the free list,
if no unlink finds an entry with children. -/
theorem runs_partitioned (env : Env Hash) (st : Stat) (calls : List TreeCall)
    (conditions : EachStep (TreeCall.run env)
      (fun fs call => call.Legal env fs ∧ call.Leaf env fs) (Fs.format env st) calls) :
    Throughout (TreeCall.run env) Partitioned (fun _ => True) (Fs.format env st) calls := by
  have enough : forall fs : Fs Hash, IsTree fs ∧ NoLinks fs -> Partitioned fs :=
    fun fs holds => holds.1.partitioned
  refine Throughout.ofInvariant enough (fun fs call next holds condition result => ?_)
    (fun _ _ _ _ _ _ => trivial) (format_isTree env st) conditions
  exact TreeCall.run_isTree holds.1 holds.2 condition.1 condition.2 result

end Runs

/-- A source whose directories are empty. -/
def emptySource : Env UInt32 where
  hashing := hash32_6_16
  source _ _ := some []
  vops_list := []
  uid := 0
  gid := 0
  fuel := 16

/-- The same with the virtual files of a mount. -/
def mountedSource : Env UInt32 :=
  { emptySource with
    vops_list := vopsNames
    fuel := 32 }

/-- The attributes of a directory. -/
def directoryStat : Stat := { Stat.zero with st_mode := S_IFDIR }

/-- An unlink of a file without children. -/
theorem runs_partitioned_unlink :
    Throughout (TreeCall.run emptySource) Partitioned (fun _ => True)
      (Fs.format emptySource directoryStat)
      [.makeEntry ⟨0, 0, 0⟩ (ascii "/f") (S_IFREG ||| 0o644) 0,
        .rmdirUnlink (ascii "/f") false] := by
  have evaluated : (do
      let fs := Fs.format emptySource directoryStat
      let fs ← TreeCall.run emptySource fs
        (.makeEntry ⟨0, 0, 0⟩ (ascii "/f") (S_IFREG ||| 0o644) 0)
      let (id, found) ← fs.findLocked emptySource (ascii "/f")
      return found.first id : Except Fault Id) = .ok 0 := by decide +kernel
  obtain ⟨made, make, rest⟩ := bind_eq_ok.mp evaluated
  refine runs_partitioned emptySource directoryStat _ ⟨⟨trivial, trivial⟩, ?_⟩
  rw [make]
  refine ⟨⟨trivial, fun id found _ lookup _ => ?_⟩, ?_⟩
  · rw [lookup] at rest
    exact Except.ok.inj rest
  · split <;> trivial

section Runs

variable [Inhabited Hash] [DecidableEq Hash] {env : Env Hash} {fs next : Fs Hash}

/-- An unlink that finds an entry with children leaves their ids out. -/
theorem rmdirUnlink_children {path : Path} {id : Id} {found : Fs Hash} (isTree : IsTree fs)
    (noLinks : NoLinks fs) (lookup : fs.findLocked env path = .ok (id, found))
    (children : found.first id ≠ 0) (result : fs.rmdirUnlink env path false = .ok (0, next)) :
    ¬ Partitioned next := by
  obtain ⟨other, same, lookup', middle, populated, ⟨failed, -⟩ | ⟨-, linked, removed, rest⟩⟩ :=
    rmdirUnlink_cases isTree noLinks result
  · exact absurd rfl failed
  · obtain ⟨rfl, -⟩ := rest
    obtain ⟨rfl, rfl⟩ := Prod.mk.inj (Except.ok.inj (lookup.symm.trans lookup'))
    exact unlinkRemove_children (populated.isTree isTree) linked children removed

end Runs

/-! ## A file with children -/

/-- The red-black tree of an index into which these entries were inserted one after the other. -/
def Fs.insertedIndex (fs : Fs UInt32) : Except HashIndex.Fault (HashIndex.Store Nat) :=
  (fs.index.drop 1).foldlM (fun store id => store.insertHash 64 id)
    ⟨fun id => ⟨(fs.entries id).hash.toNat, 0, 0, 0, .black, 0, 0⟩, rootId⟩

/-- A mount, `mknod /f` and `mknod /f/x`. -/
def madeInFile : List TreeCall :=
  [.populateVops, .makeEntry ⟨0, 0, 0⟩ (ascii "/f") (S_IFREG ||| 0o644) 0,
    .makeEntry ⟨0, 0, 0⟩ (ascii "/f/x") (S_IFREG ||| 0o644) 0]

/-- What `/f` is when it is unlinked: its id, its first child and the result; and that the
red-black tree lets go of its entry. -/
theorem unlinkFather_result :
    (do
      let fs ← madeInFile.foldlM (TreeCall.run mountedSource)
        (Fs.format mountedSource directoryStat)
      let (id, found) ← fs.findLocked mountedSource (ascii "/f")
      let (code, _) ← fs.rmdirUnlink mountedSource (ascii "/f") false
      return (id, found.first id, code,
        (fs.insertedIndex >>= fun store => store.removeHash 64 15).isOk) :
          Except Fault (Id × Id × Int × Bool)) = .ok (15, 16, 0, true) := by
  decide +kernel

/-- The id of `/f/x` is neither in the tree nor free after its father is gone. -/
theorem unlink_of_father :
    EachStep (TreeCall.run mountedSource) (fun fs call => call.Legal mountedSource fs)
        (Fs.format mountedSource directoryStat)
        (madeInFile ++ [.rmdirUnlink (ascii "/f") false]) ∧
      (Exists fun fs => madeInFile.foldlM (TreeCall.run mountedSource)
          (Fs.format mountedSource directoryStat) = .ok fs ∧
        (fs.insertedIndex >>= fun store => store.removeHash 64 15).isOk = true) ∧
      ¬ Throughout (TreeCall.run mountedSource) Partitioned (fun _ => True)
        (Fs.format mountedSource directoryStat)
        (madeInFile ++ [.rmdirUnlink (ascii "/f") false]) := by
  obtain ⟨fs, made, rest⟩ := bind_eq_ok.mp unlinkFather_result
  obtain ⟨⟨id, found⟩, lookup, rest⟩ := bind_eq_ok.mp rest
  obtain ⟨⟨result, last⟩, unlink, rest⟩ := bind_eq_ok.mp rest
  simp only [pure, Except.pure, Except.ok.injEq, Prod.mk.injEq] at rest
  obtain ⟨rfl, child, rfl, indexed⟩ := rest
  refine ⟨.ofAll (by simp [madeInFile, TreeCall.Legal]) _, ⟨fs, made, indexed⟩,
    fun throughout => ?_⟩
  obtain ⟨mounted, mount, rest⟩ := bind_eq_ok.mp made
  obtain ⟨first, make, rest⟩ := bind_eq_ok.mp rest
  obtain ⟨second, below, rest⟩ := bind_eq_ok.mp rest
  obtain rfl := Except.ok.inj rest
  have unlinkRun : TreeCall.run mountedSource second (.rmdirUnlink (ascii "/f") false) =
      .ok last := by
    rw [TreeCall.run, unlink]
    rfl
  obtain ⟨formatTree, formatLinks⟩ := format_isTree mountedSource directoryStat
  obtain ⟨mountedTree, mountedLinks⟩ :=
    TreeCall.run_isTree formatTree formatLinks (by trivial) (by trivial) mount
  obtain ⟨firstTree, firstLinks⟩ :=
    TreeCall.run_isTree mountedTree mountedLinks (by trivial) (by trivial) make
  obtain ⟨secondTree, secondLinks⟩ :=
    TreeCall.run_isTree firstTree firstLinks (by trivial) (by trivial) below
  simp only [madeInFile, List.cons_append, List.nil_append, Throughout, mount, make, below,
    unlinkRun] at throughout
  exact rmdirUnlink_children secondTree secondLinks lookup (by rw [child]; decide) unlink
    throughout.2.2.2.2

end Metadata
end Mcachefs
