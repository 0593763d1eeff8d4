import Mcachefs.Metadata.NullPointers
import Mcachefs.Metadata.CollisionCheck

namespace Mcachefs
namespace Metadata

open Library

/-!
# Calls that fail

`mcachefs_metadata_make_entry`, `rmdir_unlink` and `rename_entry` fail before they change
anything but what they read.  An entry that has just been made can be removed again, and then
the tree is what it was.
-/

variable {Hash : Type} {fs next : Fs Hash}

/-! ## Undoing -/

section Undoing

variable [Inhabited Hash] {env : Env Hash}

/-- The linked entries and the open files are as they were. -/
structure SameTree (fs next : Fs Hash) : Prop where
  index : next.index = fs.index
  entries : forall id, id ∈ fs.index -> next.entries id = fs.entries id
  mfiles : next.mfiles = fs.mfiles

omit [Inhabited Hash] in
theorem SameTree.refl (fs : Fs Hash) : SameTree fs fs := ⟨rfl, fun _ _ => rfl, rfl⟩

variable {context : Context} {mode : UInt32} {rdev : UInt64} {father : Id} {name : Component}
  {names : List Component} {kids : Id -> List Id} {free : List Id}

theorem makeChild_index : (fs.makeChild env context father name mode rdev).index =
    fs.index ++ [(fs.allocate).1] := by
  have kept : (fs.allocate).2.index = fs.index := by
    unfold Fs.allocate
    split <;> rfl
  change (fs.allocate).2.index ++ [(fs.allocate).1] = _
  rw [kept]

/-- The new entry comes last in the index. -/
theorem Added.index {id : Id} {own : Component} {st : Stat} {child : Child} {rest : List Id}
    (tree : Tree fs kids free)
    (added : Added env fs kids free father id own st child
      (fs.makeChild env context father name mode rdev) rest) :
    (fs.makeChild env context father name mode rdev).index = fs.index ++ [id] := by
  have last : (fs.allocate).1 ∈ (fs.makeChild env context father name mode rdev).index := by
    rw [makeChild_index]
    exact List.mem_append_right _ List.mem_cons_self
  rw [makeChild_index]
  rcases (added.nodes _).mp (added.tree.mem_index.mp last) with old | same
  · have twice := added.tree.indexed.nodup
    rw [makeChild_index] at twice
    exact absurd (tree.mem_index.mpr old)
      (fun there => (List.nodup_append.mp twice).2.2 _ there _ List.mem_cons_self rfl)
  · rw [same]

/-- Linked entries of the same names under the same fathers compare the same. -/
theorem equals_congr (isTree : IsTree fs) {next : Fs Hash}
    (same : forall id, id ∈ fs.index -> next.father id = fs.father id ∧
      (next.entries id).d_name = (fs.entries id).d_name)
    {id : Id} (linked : id ∈ fs.index) (path : Path) (path_size : Nat) :
    next.equals id path path_size = fs.equals id path path_size := by
  have climbs : forall levels id, id ∈ fs.index -> next.climb levels id = fs.climb levels id := by
    intro levels
    induction levels with
    | zero =>
        intro id linked
        rw [Fs.climb, Fs.climb, (same id linked).1]
    | succ levels inductionHypothesis =>
        intro id linked
        rw [Fs.climb, Fs.climb, (same id linked).1, (same id linked).2]
        split
        · rfl
        · next above =>
            have notRoot : id ≠ rootId := fun isRoot =>
              above ((isTree.father_eq_zero linked).mpr isRoot)
            simp only [inductionHypothesis _ (isTree.father linked notRoot)]
  unfold Fs.equals
  rw [climbs _ id linked]

/-- The same tree compares the same. -/
theorem SameTree.equals (same : SameTree fs next) (isTree : IsTree fs) {id : Id}
    (linked : id ∈ fs.index) (path : Path) (path_size : Nat) :
    next.equals id path path_size = fs.equals id path path_size := by
  refine equals_congr isTree (fun other there => ?_) linked path path_size
  rw [Fs.father, same.entries other there]
  exact ⟨rfl, rfl⟩

section Made

variable {id : Id} {st : Stat} {child : Child} {rest : List Id} {made : Fs Hash}
  (tree : Tree fs kids free) (isNode : Node fs free father) (named : Named fs father names)
  (added : Added env fs kids free father id name st child made rest)
include tree isNode named added

variable (components : forall other, other ∈ names ++ [name] -> IsComponent other)
include components

/-- It compares equal to that, unless there are too many levels. -/
theorem Added.equals_own (few : (names ++ [name]).length < MAX_LEVELS) :
    made.equals id (absolutePath (names ++ [name])) (absolutePath (names ++ [name])).length =
      .ok true := by
  have below : names ++ [name] ≠ [] := by simp
  have same := (added.named_new tree isNode named).equals_own added.tree.shape.rootFather
    components below few []
  rwa [List.append_nil] at same

end Made

end Undoing

/-! ## Failing -/

section Calls

variable [Inhabited Hash] [DecidableEq Hash] {env : Env Hash} {path : Path} {code : Int}

/-- There is an entry of the path. -/
def Taken (env : Env Hash) (fs : Fs Hash) (path : Path) : Prop :=
  Exists fun id => Exists fun found => fs.findLocked env path = .ok (id, found) ∧ id ≠ 0

/-- What `mcachefs_metadata_make_entry` does with what it finds. -/
theorem makeEntry_steps {context : Context} {mode : UInt32} {rdev : UInt64} (isTree : IsTree fs)
    (result : fs.makeEntry env context path mode rdev = .ok (code, next)) :
    (code = -EEXIST ∧ Taken env fs path ∧ Populated env fs next) ∨
      code = 0 ∧ Exists fun found => Exists fun dpath => Exists fun lname => Exists fun father =>
        Exists fun later => Exists fun read => Populated env fs found ∧
          splitPath path = .ok (dpath, lname) ∧ found.findLocked env dpath = .ok (father, later) ∧
          father ≠ 0 ∧ later.readChildren env father = .ok read ∧
          next = read.makeChild env context father lname mode rdev := by
  obtain ⟨⟨mdata, found⟩, lookup, result⟩ := bind_eq_ok.mp result
  obtain ⟨populated, -⟩ := findLocked_populated isTree lookup
  simp only at result
  split at result
  · next present =>
      obtain ⟨rfl, rfl⟩ := Prod.mk.inj (Except.ok.inj result)
      exact Or.inl ⟨rfl, ⟨mdata, found, lookup, present⟩, populated⟩
  · obtain ⟨⟨dpath, lname⟩, split, result⟩ := bind_eq_ok.mp result
    obtain ⟨⟨father, later⟩, above, result⟩ := bind_eq_ok.mp result
    simp only at result
    split at result
    · cases result
    · next some =>
        obtain ⟨read, reading, result⟩ := bind_eq_ok.mp result
        obtain ⟨rfl, rfl⟩ := Prod.mk.inj (Except.ok.inj result)
        exact Or.inr ⟨rfl, found, dpath, lname, father, later, read, populated, split, above, some,
          reading, rfl⟩

end Calls

end Metadata
end Mcachefs
