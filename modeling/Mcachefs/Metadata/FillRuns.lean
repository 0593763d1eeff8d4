import Mcachefs.Metadata.Fill

namespace Mcachefs
namespace Metadata

open Library Transfer

/-!
# Fills among other calls

`mcachefs_metadata_fill_entry` keeps the id of its directory, and whether the
directory had never been read, while it does not have the metadata lock.  Other
threads look paths up and make, remove and rename entries in between, and may
read that directory or remove it.

`NoTwins` says that no directory has two children of one name.  The names of a
directory of the source are different, so that reading it as a whole keeps this;
adding them one by one keeps it as long as none is there.
-/

variable {Hash : Type}

/-- No directory has two children of one name. -/
def NoTwins (fs : Fs Hash) : Prop :=
  forall one two, Forest.Reaches fs.first fs.next rootId one ->
    Forest.Reaches fs.first fs.next rootId two -> one ≠ rootId -> two ≠ rootId ->
    fs.father one = fs.father two -> (fs.entries one).d_name = (fs.entries two).d_name -> one = two

/-- `readdir` gives each name of a directory once, and no name is longer than `NAME_MAX`. -/
def Env.ListsOnce (env : Env Hash) : Prop :=
  forall reads names des, env.source reads names = some des ->
    (des.map Prod.fst).Nodup ∧ forall de, de ∈ des -> de.1.length ≤ NAME_MAX

section Twins

variable [Inhabited Hash] {env : Env Hash} {fs next : Fs Hash} {father : Id} {name : Component}

theorem IsTree.noTwins_iff (isTree : IsTree fs) : NoTwins fs ↔
    forall one two, one ∈ fs.index -> two ∈ fs.index -> one ≠ rootId -> two ≠ rootId ->
      fs.father one = fs.father two -> (fs.entries one).d_name = (fs.entries two).d_name ->
        one = two := by
  simp only [NoTwins, isTree.reaches_iff]

/-- Entries that stay where they are stay different. -/
theorem NoTwins.of_placed (noTwins : NoTwins fs) (isTree : IsTree fs) (nextTree : IsTree next)
    (placed : forall id, id ∈ next.index -> id ∈ fs.index ∧ next.father id = fs.father id ∧
      (next.entries id).d_name = (fs.entries id).d_name) : NoTwins next := by
  rw [nextTree.noTwins_iff]
  rw [isTree.noTwins_iff] at noTwins
  intro one two oneLinked twoLinked oneBelow twoBelow fathers names
  obtain ⟨oneOld, oneFather, oneName⟩ := placed one oneLinked
  obtain ⟨twoOld, twoFather, twoName⟩ := placed two twoLinked
  rw [oneFather, twoFather] at fathers
  rw [oneName, twoName] at names
  exact noTwins one two oneOld twoOld oneBelow twoBelow fathers names

theorem NoTwins.shrinks (noTwins : NoTwins fs) (isTree : IsTree fs) (nextTree : IsTree next)
    (shrinks : Shrinks fs next) : NoTwins next :=
  noTwins.of_placed isTree nextTree fun id linked =>
    ⟨(shrinks id linked).1, (shrinks id linked).2.father, (shrinks id linked).2.d_name⟩

theorem NoTwins.opened (noTwins : NoTwins fs) (isTree : IsTree fs) (opened : Opened fs next) :
    NoTwins next :=
  noTwins.of_placed isTree (opened.isTree isTree) fun id linked =>
    ⟨opened.index ▸ linked, congrFun opened.father id, opened.d_name id⟩

theorem NoTwins.rehashed (noTwins : NoTwins fs) (isTree : IsTree fs) (rehashed : Rehashed fs next) :
    NoTwins next := by
  refine noTwins.of_placed isTree (rehashed.isTree isTree) fun id linked => ?_
  have same := congrArg Entry.d_name (rehashed.entries id)
  exact ⟨rehashed.mem_index.mp linked, congrFun rehashed.father id, same⟩

/-- A new entry is no twin when its name is new. -/
theorem NoTwins.added (noTwins : NoTwins fs) {kids : Id -> List Id} {free rest : List Id} {id : Id}
    {st : Stat} {child : Child} (tree : Tree fs kids free)
    (added : Added env fs kids free father id name st child next rest)
    (fresh : ¬ HasName fs father name) : NoTwins next := by
  have isTree : IsTree fs := ⟨kids, free, tree⟩
  have nextTree : IsTree next := ⟨_, rest, added.tree⟩
  have made : next.father id = father ∧ (next.entries id).d_name = name := by
    rw [Fs.father, added.entry]
    exact ⟨rfl, rfl⟩
  have other : forall old, Node fs free old -> old ≠ rootId -> next.father old = father ->
      (next.entries old).d_name ≠ name := by
    intro old oldNode below above named
    obtain ⟨sameFather, sameName⟩ := added.placed oldNode
    exact fresh (isTree.hasName_iff.mpr ⟨old, tree.mem_index.mpr oldNode, below,
      sameFather.symm.trans above, sameName.symm.trans named⟩)
  rw [nextTree.noTwins_iff]
  rw [isTree.noTwins_iff] at noTwins
  intro one two oneLinked twoLinked oneBelow twoBelow fathers names
  rcases (added.nodes one).mp (added.tree.mem_index.mp oneLinked) with oneOld | rfl
  · rcases (added.nodes two).mp (added.tree.mem_index.mp twoLinked) with twoOld | rfl
    · rw [(added.placed oneOld).1, (added.placed twoOld).1] at fathers
      rw [(added.placed oneOld).2, (added.placed twoOld).2] at names
      exact noTwins one two (tree.mem_index.mpr oneOld) (tree.mem_index.mpr twoOld) oneBelow
        twoBelow fathers names
    · exact absurd (names.trans made.2) (other one oneOld oneBelow (fathers.trans made.1))
  · rcases (added.nodes two).mp (added.tree.mem_index.mp twoLinked) with twoOld | rfl
    · exact absurd (names.symm.trans made.2)
        (other two twoOld twoBelow (fathers.symm.trans made.1))
    · rfl

/-- An entry whose children are not known has none. -/
theorem Tree.no_child {kids : Id -> List Id} {free : List Id} (tree : Tree fs kids free)
    (isNode : Node fs free father) (none : fs.first father = 0) {id : Id} (linked : Node fs free id)
    (below : id ≠ rootId) : fs.father id ≠ father := by
  intro above
  have member := (tree.listed linked below).2
  rw [above] at member
  rw [(tree.shape.forest.list father isNode).head_zero_iff.mp none] at member
  cases member

/-- The names that are read of a directory are different. -/
theorem entered_nodup {des : List (Component × Stat)} (once : (des.map Prod.fst).Nodup)
    (short : forall de, de ∈ des -> de.1.length ≤ NAME_MAX) :
    ((entered father des).map Prod.fst).Nodup := by
  have whole : (entered father des).map Prod.fst = (des.filter fun de =>
      ¬ (de.1 = dot ∨ de.1 = dotdot) ∧ ¬ (father = rootId ∧ de.1 = vopsName)).map Prod.fst := by
    rw [entered, List.map_map]
    refine List.map_congr_left fun de member => ?_
    have long := short de (List.mem_of_mem_filter member)
    exact List.take_of_length_le (long.trans (Nat.le_succ NAME_MAX))
  rw [whole]
  exact once.sublist ((List.filter_sublist).map Prod.fst)

variable [DecidableEq Hash]

omit [DecidableEq Hash] in
/-- Reading a directory gives its children different names. -/
theorem NoTwins.getChild (noTwins : NoTwins fs) (isTree : IsTree fs) (lists : env.ListsOnce)
    (linked : father ∈ fs.index) {child : Id} (read : fs.getChild env father = .ok (child, next)) :
    NoTwins next := by
  have nextTree := getChild_isTree isTree linked read
  obtain ⟨kids, free, tree⟩ := isTree
  have isNode := tree.mem_index.mp linked
  obtain ⟨-, same | ⟨unread, -, -, names, top, des, -, answered, rest, new, grown⟩⟩ :=
    tree.getChild isNode read
  · refine noTwins.of_placed ⟨kids, free, tree⟩ nextTree fun id there => ?_
    rw [same] at there ⊢
    exact ⟨there, rfl, rfl⟩
  · have none : fs.first father = 0 := by
      rw [Fs.first, unread]
      rfl
    obtain ⟨once, short⟩ := lists fs.reads names des answered
    have different : (new.map fun id => (next.entries id).d_name).Nodup := by
      have listed := congrArg (List.map Prod.fst) grown.names
      rw [List.map_map, List.map_reverse] at listed
      have same : (new.map fun id => (next.entries id).d_name) =
          ((entered father des).map Prod.fst).reverse := listed
      rw [same, List.nodup_reverse]
      exact entered_nodup once short
    have made : forall id, id ∈ new -> next.father id = father := by
      intro id member
      obtain ⟨link, entry⟩ := grown.entries id member
      rw [Fs.father, entry]
    rw [nextTree.noTwins_iff]
    rw [IsTree.noTwins_iff ⟨kids, free, tree⟩] at noTwins
    intro one two oneLinked twoLinked oneBelow twoBelow fathers same
    rcases (grown.nodes one).mp (grown.tree.mem_index.mp oneLinked) with oneOld | oneNew
    · have oneAlike := grown.alike oneOld
      have oneFather : next.father one = fs.father one := oneAlike.father
      rcases (grown.nodes two).mp (grown.tree.mem_index.mp twoLinked) with twoOld | twoNew
      · have twoAlike := grown.alike twoOld
        rw [oneFather, show next.father two = fs.father two from twoAlike.father] at fathers
        rw [oneAlike.d_name, twoAlike.d_name] at same
        exact noTwins one two (tree.mem_index.mpr oneOld) (tree.mem_index.mpr twoOld) oneBelow
          twoBelow fathers same
      · rw [oneFather, made two twoNew] at fathers
        exact absurd fathers (tree.no_child isNode none oneOld oneBelow)
    · rcases (grown.nodes two).mp (grown.tree.mem_index.mp twoLinked) with twoOld | twoNew
      · rw [made one oneNew, show next.father two = fs.father two from
          (grown.alike twoOld).father] at fathers
        exact absurd fathers.symm (tree.no_child isNode none twoOld twoBelow)
      · exact List.inj_on_of_nodup_map different oneNew twoNew same

omit [DecidableEq Hash] in
theorem NoTwins.populated (noTwins : NoTwins fs) (isTree : IsTree fs) (lists : env.ListsOnce)
    (populated : Populated env fs next) : NoTwins next := by
  induction populated with
  | refl => exact noTwins
  | step before linked read inductionHypothesis =>
      exact inductionHypothesis.getChild (before.isTree isTree) lists linked read

end Twins

/-! ## Calls of other threads -/

/-- `mcachefs_metadata_make_entry` has found no entry of the path, and the father and the name of
the one to make. -/
def MakeFinds [Inhabited Hash] [DecidableEq Hash] (env : Env Hash) (fs : Fs Hash) (path : Path)
    (father : Id) (lname : Component) (middle : Fs Hash) : Prop :=
  Exists fun found => Exists fun dpath => Exists fun above =>
    fs.findLocked env path = .ok (0, found) ∧ splitPath path = .ok (dpath, lname) ∧
      found.findLocked env dpath = .ok (father, above) ∧ father ≠ 0 ∧
        above.readChildren env father = .ok middle

/-- The calls that come between the two parts of a fill. -/
inductive Operation
  | findLocked (path : Path)
  | getChild (father : Id)
  | makeEntry (context : Context) (path : Path) (mode : UInt32) (rdev : UInt64)
  | rmdirUnlink (path : Path) (isDir : Bool)
  | renameEntry (path target : Path)
  deriving DecidableEq, Repr

def Operation.call : Operation -> TreeCall
  | .findLocked path => .findLocked path
  | .getChild father => .getChild father
  | .makeEntry context path mode rdev => .makeEntry context path mode rdev
  | .rmdirUnlink path isDir => .rmdirUnlink path isDir
  | .renameEntry path target => .renameEntry path target

section Operations

variable [Inhabited Hash] [DecidableEq Hash] {env : Env Hash} {fs middle next : Fs Hash}

/-- The call puts no entry beside another one of its name. -/
def Operation.NamesNew (env : Env Hash) (fs : Fs Hash) : Operation -> Prop
  | .makeEntry _ path _ _ => forall father lname middle,
      MakeFinds env fs path father lname middle -> ¬ HasName middle father (lname.take NAME_MAX)
  | .renameEntry path target => forall mdata mtarget lname middle,
      RenameFinds env fs path target mdata mtarget lname middle -> forall other,
        other ∈ middle.index -> other ≠ rootId -> middle.father other = mtarget ->
          (middle.entries other).d_name = lname.take NAME_MAX -> other = mdata
  | _ => True

theorem makeEntry_finds {context : Context} {path : Path} {mode : UInt32} {rdev : UInt64}
    {code : Int} (isTree : IsTree fs)
    (result : fs.makeEntry env context path mode rdev = .ok (code, next)) :
    Populated env fs next ∨ Exists fun father => Exists fun lname => Exists fun middle =>
      MakeFinds env fs path father lname middle ∧ Populated env fs middle ∧
        father ∈ middle.index ∧ next = middle.makeChild env context father lname mode rdev := by
  obtain ⟨⟨mdata, found⟩, lookup, result⟩ := bind_eq_ok.mp result
  obtain ⟨populated, -⟩ := findLocked_populated isTree lookup
  simp only at result
  split at result
  · obtain ⟨-, rfl⟩ := Prod.mk.inj (Except.ok.inj result)
    exact Or.inl populated
  · next missing =>
      obtain rfl := not_not.mp missing
      obtain ⟨⟨dpath, lname⟩, parts, result⟩ := bind_eq_ok.mp result
      obtain ⟨⟨father, above⟩, directory, result⟩ := bind_eq_ok.mp result
      have foundTree := populated.isTree isTree
      obtain ⟨further, known⟩ := findLocked_populated foundTree directory
      simp only at result
      split at result
      · cases result
      · next present =>
          obtain ⟨middle, read, result⟩ := bind_eq_ok.mp result
          have last := (readChildren_populated (known present) read).1
          have linked := (last.stays (further.isTree foundTree) (known present)).linked
          obtain ⟨-, rfl⟩ := Prod.mk.inj (Except.ok.inj result)
          exact Or.inr ⟨father, lname, middle, ⟨found, dpath, above, lookup, parts, directory,
            present, read⟩, (populated.trans further).trans last, linked, rfl⟩

omit [DecidableEq Hash] in
/-- An entry that moves to a name that is free becomes no twin. -/
theorem NoTwins.moved {mdata mtarget : Id} {lname : Component} (noTwins : NoTwins fs)
    (isTree : IsTree fs) (moved : Moved env fs mdata mtarget lname next)
    (free : forall other, other ∈ fs.index -> other ≠ rootId -> fs.father other = mtarget ->
      (fs.entries other).d_name = lname.take NAME_MAX -> other = mdata) : NoTwins next := by
  have others : forall id, id ≠ mdata -> next.father id = fs.father id ∧
      (next.entries id).d_name = (fs.entries id).d_name := fun id apart =>
    ⟨(moved.others id apart).father, (moved.others id apart).d_name⟩
  have alone : forall id, id ∈ next.index -> id ≠ rootId -> id ≠ mdata ->
      next.father id = mtarget -> (next.entries id).d_name ≠ lname.take NAME_MAX := by
    intro id linked below apart above named
    obtain ⟨sameFather, sameName⟩ := others id apart
    exact apart (free id ((moved.index id).mp linked) below (sameFather.symm.trans above)
      (sameName.symm.trans named))
  have here : next.father mdata = mtarget := moved.place.father
  rw [moved.isTree.noTwins_iff]
  rw [isTree.noTwins_iff] at noTwins
  intro one two oneLinked twoLinked oneBelow twoBelow fathers names
  by_cases oneMoved : one = mdata
  · by_cases twoMoved : two = mdata
    · rw [oneMoved, twoMoved]
    · rw [oneMoved, here] at fathers
      rw [oneMoved, moved.place.d_name] at names
      exact absurd names.symm (alone two twoLinked twoBelow twoMoved fathers.symm)
  · by_cases twoMoved : two = mdata
    · rw [twoMoved, here] at fathers
      rw [twoMoved, moved.place.d_name] at names
      exact absurd names (alone one oneLinked oneBelow oneMoved fathers)
    · rw [(others one oneMoved).1, (others two twoMoved).1] at fathers
      rw [(others one oneMoved).2, (others two twoMoved).2] at names
      exact noTwins one two ((moved.index one).mp oneLinked) ((moved.index two).mp twoLinked)
        oneBelow twoBelow fathers names

omit [DecidableEq Hash] in
/-- What a rename does once it has found both ends. -/
theorem NoTwins.moveEntry {mdata mtarget : Id} {lname : Component} (noTwins : NoTwins fs)
    (isTree : IsTree fs) (lists : env.ListsOnce) (linked : mdata ∈ fs.index)
    (targetLinked : mtarget ∈ fs.index) (legal : ¬ Climbs fs.father mdata mtarget)
    (free : forall other, other ∈ fs.index -> other ≠ rootId -> fs.father other = mtarget ->
      (fs.entries other).d_name = lname.take NAME_MAX -> other = mdata)
    (moving : fs.moveEntry env mdata mtarget lname = .ok next) : NoTwins next := by
  obtain ⟨moved, move, middle, rehash, updating⟩ :=
    moveEntry_cases isTree linked targetLinked legal moving
  have movedTwins := noTwins.moved isTree move free
  have movedLinked := (move.index mdata).mpr linked
  have last := updateFhPath_rehashed updating
  split at rehash
  · obtain ⟨child, read, reading, rehashed⟩ :=
      rehashChildren_rehashed move.isTree movedLinked rehash
    have readTree := getChild_isTree move.isTree movedLinked reading
    have readTwins := movedTwins.getChild move.isTree lists movedLinked reading
    exact (readTwins.rehashed readTree rehashed).rehashed (rehashed.isTree readTree) last
  · obtain rfl := Except.ok.inj rehash
    exact movedTwins.rehashed move.isTree last

/-- A call of another thread that names nothing twice. -/
theorem NoTwins.operation {operation : Operation} (noTwins : NoTwins fs) (isTree : IsTree fs)
    (noLinks : NoLinks fs) (lists : env.ListsOnce) (legal : operation.call.Legal env fs)
    (leaf : operation.call.Leaf env fs) (namesNew : operation.NamesNew env fs)
    (result : operation.call.run env fs = .ok next) : NoTwins next := by
  cases operation with
  | findLocked path =>
      obtain ⟨id, found⟩ := map_snd_eq_ok.mp result
      exact noTwins.populated isTree lists (findLocked_populated isTree found).1
  | getChild father =>
      simp only [Operation.call, TreeCall.run] at result
      split at result
      · next linked =>
          obtain ⟨child, read⟩ := map_snd_eq_ok.mp result
          exact noTwins.getChild isTree lists linked read
      · exact Except.ok.inj result ▸ noTwins
  | makeEntry context path mode rdev =>
      obtain ⟨code, made⟩ := map_snd_eq_ok.mp result
      rcases makeEntry_finds isTree made with
        populated | ⟨father, lname, middle, finds, populated, linked, rfl⟩
      · exact noTwins.populated isTree lists populated
      · have fresh := namesNew father lname middle finds
        have middleTwins := noTwins.populated isTree lists populated
        obtain ⟨kids, free, tree⟩ := populated.isTree isTree
        obtain ⟨id, rest, added⟩ :=
          tree.makeChild env context lname mode rdev (tree.mem_index.mp linked)
        exact middleTwins.added tree added fresh
  | rmdirUnlink path isDir =>
      obtain ⟨code, gone⟩ := map_snd_eq_ok.mp result
      obtain ⟨found, id, lookup, middle, populated, ⟨-, rfl⟩ | ⟨-, linked, removed, type⟩⟩ :=
        rmdirUnlink_cases isTree noLinks gone
      · exact noTwins.populated isTree lists populated
      · have none : middle.first id = 0 := by
          cases isDir with
          | true => exact type
          | false =>
              obtain ⟨rfl, type⟩ := type
              exact leaf id middle rfl lookup type
        have middleTree := populated.isTree isTree
        obtain ⟨lastTree, shrinks, -⟩ := unlinkRemove_shrinks middleTree linked none removed
        exact (noTwins.populated isTree lists populated).shrinks middleTree lastTree shrinks
  | renameEntry path target =>
      obtain ⟨code, renamed⟩ := map_snd_eq_ok.mp result
      rcases renameEntry_cases isTree renamed with
        ⟨-, populated⟩ | ⟨mdata, mtarget, lname, middle, finds, moved⟩
      · exact noTwins.populated isTree lists populated
      · obtain ⟨populated, linked, targetLinked⟩ := finds.populated isTree
        exact (noTwins.populated isTree lists populated).moveEntry (populated.isTree isTree) lists
          linked targetLinked (legal mdata mtarget lname middle finds)
          (namesNew mdata mtarget lname middle finds) moved

end Operations

/-! ## Fills -/

section Fills

variable [Inhabited Hash] {env : Env Hash} {fs next : Fs Hash} {father : Id} {name : Component}

omit [Inhabited Hash] in
/-- A loop over a list of children that finds none has seen all of them. -/
theorem findSibling_none {found : Id -> Bool} {fuel : Nat} {start : Id} {ids : List Id}
    (list : Segment fs.next start ids 0) (ends : fs.findSibling found fuel start = .ok 0) :
    forall id, id ∈ ids -> found id = false := by
  induction fuel generalizing start ids with
  | zero => cases ends
  | succ fuel inductionHypothesis =>
      cases ids with
      | nil =>
          intro id member
          cases member
      | cons here ids =>
          obtain ⟨rfl, present, rest⟩ := list.cons_inv
          unfold Fs.findSibling at ends
          rw [if_neg present] at ends
          split at ends
          · exact absurd (Except.ok.inj ends) present
          · next other =>
              intro id member
              rcases List.mem_cons.mp member with rfl | later
              · exact Bool.eq_false_iff.mpr other
              · exact inductionHypothesis rest ends id later

/-- What `mcachefs_metadata_dir_get_child` does not find is not there. -/
theorem dirGetChild_none (isTree : IsTree fs) (linked : father ∈ fs.index)
    (result : fs.dirGetChild env father name = .ok 0) : ¬ HasName fs father name := by
  rw [isTree.hasName_iff]
  rintro ⟨child, childLinked, below, above, named⟩
  obtain ⟨kids, free, tree⟩ := isTree
  have isNode := tree.mem_index.mp linked
  have member := (tree.listed (tree.mem_index.mp childLinked) below).2
  rw [above] at member
  have missed := findSibling_none (tree.shape.forest.list father isNode) result child member
  exact of_decide_eq_false missed named

/-- The names still to be added are different, and none is there where nothing looks. -/
structure Awaits (fs : Fs Hash) (filling : Filling) (names : List (Component × Stat)) : Prop where
  different : (names.map Prod.fst).Nodup
  fresh : filling.virgindir = true ->
    forall de, de ∈ names -> ¬ HasName fs filling.metaid de.1

variable [DecidableEq Hash] {filling : Filling} {de : Component × Stat}
  {names : List (Component × Stat)}

omit [DecidableEq Hash] in
/-- One turn of the loop over the names: the name was looked for, or it is known to be new. -/
theorem fillTurn_noTwins (isTree : IsTree fs) (linked : filling.metaid ∈ fs.index)
    (noTwins : NoTwins fs) (awaits : Awaits fs filling (de :: names))
    (result : fs.fillTurn env filling de = .ok next) :
    Changed env fs next ∧ filling.metaid ∈ next.index ∧ NoTwins next ∧
      Awaits next filling names := by
  obtain ⟨notLater, different⟩ := List.nodup_cons.mp awaits.different
  obtain ⟨existing, search, result⟩ := bind_eq_ok.mp result
  split at result
  · obtain rfl := Except.ok.inj result
    exact ⟨.refl, linked, noTwins, different, fun virgin later member =>
      awaits.fresh virgin later (List.mem_cons_of_mem _ member)⟩
  · next missing =>
      obtain rfl := not_not.mp missing
      have absent : ¬ HasName fs filling.metaid de.1 := by
        split at search
        · next virgin => exact awaits.fresh virgin de List.mem_cons_self
        · exact dirGetChild_none isTree linked search
      obtain ⟨kids, free, tree⟩ := isTree
      have isNode := tree.mem_index.mp linked
      obtain ⟨id, rest, taken, allocation, allocated⟩ := tree.shape.allocate
      rw [allocation] at result
      obtain rfl := Except.ok.inj result
      have added : Added env fs kids free filling.metaid id de.1 de.2 .unread
          ((taken.modify id fun entry => { entry with d_name := de.1, st := de.2 }).doAddChild env
            filling.metaid id) rest := allocated.doAddChild tree isNode rfl
      refine ⟨.added .refl tree isNode added,
        added.tree.mem_index.mpr ((added.nodes filling.metaid).mpr (Or.inl isNode)),
        noTwins.added tree added absent, different, fun virgin later member there => ?_⟩
      rcases (added.hasName tree).mp there with old | ⟨-, same⟩
      · exact awaits.fresh virgin later (List.mem_cons_of_mem _ member) old
      · exact notLater (same ▸ List.mem_map_of_mem member)

omit [DecidableEq Hash] in
/-- The loop over the names. -/
theorem fillTurns_noTwins (isTree : IsTree fs) (linked : filling.metaid ∈ fs.index)
    (noTwins : NoTwins fs) (awaits : Awaits fs filling names)
    (result : names.foldlM (Fs.fillTurn env filling) fs = .ok next) :
    Changed env fs next ∧ filling.metaid ∈ next.index ∧ NoTwins next := by
  induction names generalizing fs with
  | nil =>
      obtain rfl := Except.ok.inj result
      exact ⟨.refl, linked, noTwins⟩
  | cons de names inductionHypothesis =>
      obtain ⟨middle, turn, result⟩ := bind_eq_ok.mp result
      obtain ⟨step, middleLinked, middleTwins, later⟩ :=
        fillTurn_noTwins isTree linked noTwins awaits turn
      obtain ⟨rest, nextLinked, nextTwins⟩ :=
        inductionHypothesis (step.isTree isTree) middleLinked middleTwins later result
      exact ⟨step.trans rest, nextLinked, nextTwins⟩

omit [DecidableEq Hash] in
/-- Scheduling the directories of an entry may read the entry, and opens its children. -/
theorem scheduleFillChildEntries_cases {file_add : Fs Hash -> Fh} {metaid : Id}
    (isTree : IsTree fs) (linked : metaid ∈ fs.index)
    (result : fs.scheduleFillChildEntries env file_add metaid = .ok next) :
    Exists fun child => Exists fun middle => fs.getChild env metaid = .ok (child, middle) ∧
      Opened middle next := by
  obtain ⟨⟨child, middle⟩, read, result⟩ := bind_eq_ok.mp result
  have middleTree := getChild_isTree isTree linked read
  have stays := getChild_stays isTree linked read linked
  have first : child = middle.first metaid := by
    obtain ⟨kids, free, tree⟩ := isTree
    exact (tree.getChild (tree.mem_index.mp linked) read).1
  refine ⟨child, middle, read, scheduleLoop_opened middleTree ?_ result⟩
  rw [first]
  by_cases none : middle.first metaid = 0
  · exact Or.inl none
  · exact Or.inr (middleTree.first stays.linked none).1

omit [Inhabited Hash] [DecidableEq Hash] in
theorem Opened.noLinks (opened : Opened fs next) (noLinks : NoLinks fs) : NoLinks next := by
  intro id linked
  have same := congrArg Entry.hardlink (opened.entries id)
  exact same.trans (noLinks id (opened.index ▸ linked))

omit [DecidableEq Hash] in
/-- The second part of a fill whose directory is still there. -/
theorem fillEnd_noTwins {file_add : Fs Hash -> Fh} (isTree : IsTree fs) (noLinks : NoLinks fs)
    (noTwins : NoTwins fs) (lists : env.ListsOnce) (linked : filling.metaid ∈ fs.index)
    (awaits : Awaits fs filling filling.names)
    (result : fs.fillEnd env file_add filling = .ok next) :
    IsTree next ∧ NoLinks next ∧ NoTwins next := by
  obtain ⟨last, turns, schedule⟩ := bind_eq_ok.mp result
  obtain ⟨changed, lastLinked, lastTwins⟩ :=
    fillTurns_noTwins isTree linked noTwins awaits turns
  have lastTree := changed.isTree isTree
  obtain ⟨child, middle, read, opened⟩ :=
    scheduleFillChildEntries_cases lastTree lastLinked schedule
  have further : Changed env fs middle := .read changed lastLinked read
  have middleTree := further.isTree isTree
  have middleTwins := lastTwins.getChild lastTree lists lastLinked read
  exact ⟨opened.isTree middleTree, opened.noLinks (further.noLinks isTree noLinks),
    middleTwins.opened middleTree opened⟩

/-- The entry of the fill has been read and has all the names. -/
def Filling.Idle (fs : Fs Hash) (filling : Filling) : Prop :=
  filling.metaid ∈ fs.index ∧ (fs.entries filling.metaid).child ≠ .unread ∧
    forall de, de ∈ filling.names -> filling.virgindir = false ∧ HasName fs filling.metaid de.1

omit [DecidableEq Hash] in
/-- Names that are all there are passed over. -/
theorem fillTurns_idle (isTree : IsTree fs) (linked : filling.metaid ∈ fs.index)
    (all : forall de, de ∈ names ->
      filling.virgindir = false ∧ HasName fs filling.metaid de.1)
    (result : names.foldlM (Fs.fillTurn env filling) fs = .ok next) : next = fs := by
  induction names with
  | nil => exact (Except.ok.inj result).symm
  | cons de names inductionHypothesis =>
      obtain ⟨middle, turn, result⟩ := bind_eq_ok.mp result
      obtain ⟨checked, there⟩ := all de List.mem_cons_self
      obtain ⟨existing, search, turn⟩ := bind_eq_ok.mp turn
      rw [checked, if_neg (by decide)] at search
      have present : existing ≠ 0 := by
        rintro rfl
        exact dirGetChild_none isTree linked search there
      rw [if_pos present] at turn
      obtain rfl := Except.ok.inj turn
      exact inductionHypothesis (fun later member => all later (List.mem_cons_of_mem _ member))
        result

omit [DecidableEq Hash] in
/-- A fill that finds all its names adds nothing, whatever its entry is by now. -/
theorem fillEnd_idle {file_add : Fs Hash -> Fh} (isTree : IsTree fs) (idle : filling.Idle fs)
    (result : fs.fillEnd env file_add filling = .ok next) : Opened fs next := by
  obtain ⟨linked, populated, all⟩ := idle
  obtain ⟨last, turns, schedule⟩ := bind_eq_ok.mp result
  obtain rfl := fillTurns_idle isTree linked all turns
  exact scheduleFillChildEntries_opened isTree linked populated schedule

omit [Inhabited Hash] [DecidableEq Hash] in
/-- The first part of a fill changes nothing; it keeps each name of the directory once. -/
theorem fillStart_names {opened : Bool} {metaid : Id} {start : Option Filling}
    (lists : env.ListsOnce) (result : fs.fillStart env opened metaid = .ok (start, next)) :
    next = { fs with reads := next.reads } ∧
      forall filling, filling ∈ start ->
        filling.metaid = metaid ∧ (filling.names.map Prod.fst).Nodup := by
  unfold Fs.fillStart at result
  split at result
  · cases result
  · obtain ⟨answer, opening, result⟩ := bind_eq_ok.mp result
    unfold Fs.recurseOpen at opening
    split at opening
    · cases opening
    · next way top climbed =>
        obtain rfl := Except.ok.inj opening
        simp only at result
        split at result
        · obtain ⟨rfl, rfl⟩ := Prod.mk.inj (Except.ok.inj result)
          refine ⟨rfl, fun filling member => ?_⟩
          cases member
        · obtain ⟨rfl, rfl⟩ := Prod.mk.inj (Except.ok.inj result)
          refine ⟨rfl, fun filling member => ?_⟩
          obtain rfl := Option.some.inj member
          have once : (((env.source fs.reads way).getD []).map Prod.fst).Nodup := by
            cases answered : env.source fs.reads way with
            | none => exact List.nodup_nil
            | some des => exact (lists fs.reads way des answered).1
          exact ⟨rfl, once.sublist ((List.filter_sublist).map Prod.fst)⟩

end Fills

/-! ## Runs -/

/-- A fill between its two parts.  `kept` says that its entry was a linked directory
when it started and that no call since has left the entry out. -/
structure PendingFill where
  filling : Filling
  kept : Bool
  deriving DecidableEq, Repr

/-- The entries, the fills between their two parts, and whether some fill has added
children to an entry that is not the directory it started for. -/
structure FillState (Hash : Type) where
  fs : Fs Hash
  pending : List PendingFill
  strayed : Bool

/-- What happens under the metadata lock. -/
inductive FillEvent
  | fillStart (opened : Bool) (metaid : Id)
  | call (operation : Operation)
  | fillEnd (index : Nat)
  deriving DecidableEq, Repr

namespace FillState

/-- The fills notice which entries are still linked. -/
def moves (state : FillState Hash) (fs : Fs Hash) : FillState Hash :=
  { state with
    fs := fs
    pending := state.pending.map fun fill =>
      { fill with kept := fill.kept && decide (fill.filling.metaid ∈ fs.index) } }

variable [Inhabited Hash] [DecidableEq Hash]

/-- One of the parts of a fill, or a call of another thread. -/
def step (env : Env Hash) (file_add : Fs Hash -> Fh) (state : FillState Hash) :
    FillEvent -> Except Fault (FillState Hash)
  | .fillStart opened metaid => do
      let kept := decide (metaid ∈ state.fs.index) && (state.fs.entries metaid).st.isDir
      let started ← state.fs.fillStart env opened metaid
      .ok { state with
        fs := started.2
        pending := started.1.toList.map (PendingFill.mk · kept) ++ state.pending }
  | .call operation => state.moves <$> operation.call.run env state.fs
  | .fillEnd index =>
      match state.pending[index]? with
      | none => .ok state
      | some fill => do
          let fs ← state.fs.fillEnd env file_add fill.filling
          let strayed := !fill.kept && decide (fs.index ≠ state.fs.index)
          .ok ({ state with
            pending := state.pending.eraseIdx index
            strayed := state.strayed || strayed }.moves fs)

omit [DecidableEq Hash] in
/-- A new metadata file, and no fill. -/
def start (env : Env Hash) (st : Stat) : FillState Hash := ⟨Fs.format env st, [], false⟩

/-- No directory has two children of one name, and children were added to the
directories of the fills only. -/
def FillSafe (state : FillState Hash) : Prop := NoTwins state.fs ∧ state.strayed = false

/-- The names and the entry that a fill has kept are still right, or it adds nothing.
The other calls leave a tree, and put no entry beside one of its name. -/
def Suits (env : Env Hash) (state : FillState Hash) : FillEvent -> Prop
  | .fillStart _ _ => True
  | .call operation => operation.call.Legal env state.fs ∧ operation.call.Leaf env state.fs ∧
      operation.NamesNew env state.fs
  | .fillEnd index => forall fill, state.pending[index]? = some fill ->
      fill.filling.Idle state.fs ∨ fill.kept = true ∧
        (fill.filling.virgindir = true -> forall de, de ∈ fill.filling.names ->
          ¬ HasName state.fs fill.filling.metaid de.1)

/-- The entries are a tree without twins, and every fill that has kept its entry can
go on with it. -/
structure Holds (state : FillState Hash) : Prop where
  isTree : IsTree state.fs
  noLinks : NoLinks state.fs
  noTwins : NoTwins state.fs
  strayed : state.strayed = false
  linked : forall fill, fill ∈ state.pending -> fill.kept = true ->
    fill.filling.metaid ∈ state.fs.index
  different : forall fill, fill ∈ state.pending -> (fill.filling.names.map Prod.fst).Nodup

variable {env : Env Hash} {file_add : Fs Hash -> Fh} {state next : FillState Hash} {fs : Fs Hash}

omit [DecidableEq Hash] in
theorem holds_moves (isTree : IsTree fs) (noLinks : NoLinks fs) (noTwins : NoTwins fs)
    (strayed : state.strayed = false)
    (different : forall fill, fill ∈ state.pending -> (fill.filling.names.map Prod.fst).Nodup) :
    (state.moves fs).Holds := by
  refine ⟨isTree, noLinks, noTwins, strayed, fun fill member kept => ?_, fun fill member => ?_⟩
  · obtain ⟨before, -, rfl⟩ := List.mem_map.mp member
    exact of_decide_eq_true (Bool.and_eq_true_iff.mp kept).2
  · obtain ⟨before, known, rfl⟩ := List.mem_map.mp member
    exact different before known

omit [DecidableEq Hash] in
theorem holds_start (env : Env Hash) (st : Stat) : (start env st).Holds := by
  obtain ⟨isTree, noLinks⟩ := format_isTree env st
  have noTwins : NoTwins (Fs.format env st) := by
    rw [isTree.noTwins_iff]
    intro one two oneLinked _ oneBelow
    have inside : one ∈ [rootId] := oneLinked
    exact absurd (List.mem_singleton.mp inside) oneBelow
  exact ⟨isTree, noLinks, noTwins, rfl, fun _ member => absurd member List.not_mem_nil,
    fun _ member => absurd member List.not_mem_nil⟩

/-- The first part of a fill. -/
theorem Holds.fillStart {opened : Bool} {metaid : Id} (holds : state.Holds)
    (lists : env.ListsOnce) (result : state.step env file_add (.fillStart opened metaid) = .ok next) :
    next.Holds := by
  obtain ⟨⟨filling, fs⟩, started, result⟩ := bind_eq_ok.mp result
  obtain rfl := Except.ok.inj result
  obtain ⟨same, kept⟩ := fillStart_names lists started
  rw [same]
  have counted : IsTree { state.fs with reads := fs.reads } := by
    obtain ⟨kids, free, tree⟩ := holds.isTree
    exact ⟨kids, free, tree.congr rfl rfl (.refl _) (fun _ _ => ⟨rfl, rfl, rfl⟩) fun _ _ => rfl⟩
  refine ⟨counted, holds.noLinks, holds.noTwins, holds.strayed, fun fill member linked => ?_,
    fun fill member => ?_⟩
  · rcases List.mem_append.mp member with new | old
    · obtain ⟨given, known, rfl⟩ := List.mem_map.mp new
      have same := (kept given (Option.mem_toList.mp known)).1
      have there := of_decide_eq_true (Bool.and_eq_true_iff.mp linked).1
      rw [← same] at there
      exact there
    · exact holds.linked fill old linked
  · rcases List.mem_append.mp member with new | old
    · obtain ⟨given, known, rfl⟩ := List.mem_map.mp new
      exact (kept given (Option.mem_toList.mp known)).2
    · exact holds.different fill old

/-- A call of another thread. -/
theorem Holds.call {operation : Operation} (holds : state.Holds) (lists : env.ListsOnce)
    (suits : state.Suits env (.call operation))
    (result : state.step env file_add (.call operation) = .ok next) : next.Holds := by
  obtain ⟨legal, leaf, namesNew⟩ := suits
  simp only [step] at result
  cases done : operation.call.run env state.fs with
  | error fault =>
      rw [done] at result
      cases result
  | ok fs =>
      rw [done] at result
      obtain rfl := Except.ok.inj result
      obtain ⟨isTree, noLinks⟩ :=
        TreeCall.run_isTree holds.isTree holds.noLinks legal leaf done
      have noTwins := holds.noTwins.operation holds.isTree holds.noLinks lists legal leaf namesNew
        done
      exact holds_moves isTree noLinks noTwins holds.strayed holds.different

/-- The second part of a fill. -/
theorem Holds.fillEnd {index : Nat} (holds : state.Holds) (lists : env.ListsOnce)
    (suits : state.Suits env (.fillEnd index))
    (result : state.step env file_add (.fillEnd index) = .ok next) : next.Holds := by
  simp only [step] at result
  cases found : state.pending[index]? with
  | none =>
      rw [found] at result
      obtain rfl := Except.ok.inj result
      exact holds
  | some fill =>
      rw [found] at result
      obtain ⟨fs, ended, result⟩ := bind_eq_ok.mp result
      obtain rfl := Except.ok.inj result
      have member := List.mem_of_getElem? found
      have others : forall other, other ∈ state.pending.eraseIdx index ->
          (other.filling.names.map Prod.fst).Nodup := fun other known =>
        holds.different other (List.mem_of_mem_eraseIdx known)
      rcases suits fill found with idle | ⟨kept, fresh⟩
      · have opened := fillEnd_idle holds.isTree idle ended
        refine holds_moves (opened.isTree holds.isTree) (opened.noLinks holds.noLinks)
          (holds.noTwins.opened holds.isTree opened) ?_ others
        simp only [holds.strayed, opened.index, ne_eq, not_true_eq_false, decide_false,
          Bool.and_false, Bool.or_false]
      · have linked := holds.linked fill member kept
        obtain ⟨isTree, noLinks, noTwins⟩ := fillEnd_noTwins holds.isTree holds.noLinks
          holds.noTwins lists linked ⟨holds.different fill member, fresh⟩ ended
        refine holds_moves isTree noLinks noTwins ?_ others
        simp only [holds.strayed, kept, Bool.not_true, Bool.false_and, Bool.or_false]

/-- Fills and other calls in any order give no directory two children of one name and
no other entry children, as long as each fill finds its directory still linked and,
where it does not look, none of its names there. -/
theorem fills_safe (env : Env Hash) (file_add : Fs Hash -> Fh) (st : Stat)
    (lists : env.ListsOnce) (events : List FillEvent)
    (conditions : EachStep (step env file_add) (Suits env) (start env st) events) :
    Throughout (step env file_add) FillSafe (fun _ => True) (start env st) events := by
  refine Throughout.ofInvariant (fun state holds => ⟨holds.noTwins, holds.strayed⟩)
    (fun state event next holds suits result => ?_) (fun _ _ _ _ _ _ => trivial)
    (holds_start env st) conditions
  cases event with
  | fillStart opened metaid => exact holds.fillStart lists result
  | call operation => exact holds.call lists suits result
  | fillEnd index => exact holds.fillEnd lists suits result

end FillState

/-! ## What comes between -/

/-- The root is filled after it has been read. -/
theorem fills_safe_read :
    Throughout (FillState.step oneFile fun _ => 1) FillState.FillSafe (fun _ => True)
      (FillState.start oneFile directoryStat)
      [.call (.findLocked (ascii "/a")), .fillStart true rootId, .fillEnd 0] := by
  have lists : oneFile.ListsOnce := by
    intro reads names des answered
    simp only [oneFile] at answered
    split at answered
    · obtain rfl := Option.some.inj answered
      decide
    · obtain rfl := Option.some.inj answered
      decide
  have evaluated : (do
      let looked ← FillState.step oneFile (fun _ => 1) (FillState.start oneFile directoryStat)
        (.call (.findLocked (ascii "/a")))
      let started ← looked.step oneFile (fun _ => 1) (.fillStart true rootId)
      let ended ← started.step oneFile (fun _ => 1) (.fillEnd 0)
      return (started.pending.map fun fill => (fill.kept, fill.filling.virgindir),
        ended.strayed) : Except Fault (List (Bool × Bool) × Bool)) =
      .ok ([(true, false)], false) := by decide +kernel
  obtain ⟨looked, lookup, rest⟩ := bind_eq_ok.mp evaluated
  obtain ⟨started, start, rest⟩ := bind_eq_ok.mp rest
  obtain ⟨ended, finish, rest⟩ := bind_eq_ok.mp rest
  have pending := (Prod.mk.inj (Except.ok.inj rest)).1
  refine FillState.fills_safe oneFile _ directoryStat lists _ ?_
  rw [eachStep_cons lookup, eachStep_cons start, eachStep_cons finish]
  refine ⟨⟨trivial, trivial, trivial⟩, trivial, fun fill found => Or.inr ?_, trivial⟩
  have mapped : (started.pending.map fun fill => (fill.kept, fill.filling.virgindir))[0]? =
      some (fill.kept, fill.filling.virgindir) := by
    rw [List.getElem?_map, found]
    rfl
  rw [pending] at mapped
  obtain ⟨kept, checked⟩ := Prod.mk.inj (Option.some.inj mapped)
  refine ⟨kept.symm, fun virgin => ?_⟩
  rw [← checked] at virgin
  cases virgin

/-- A source whose directory `d` has one file when it is read first, and none later. -/
def emptiedLater : Env UInt32 :=
  { emptySource with
    source := fun reads names =>
      if names = [] then some [(ascii "d", directoryStat)]
      else if reads = 1 then some [(ascii "x", { Stat.zero with st_mode := S_IFREG })]
      else some [] }

/-- A lookup that reads the root while it is filled gives it two children `a`.  When the
directory of a fill is removed and its id is that of a new file, the file gets a child. -/
theorem fill_gap_unsafe :
    ¬ Throughout (FillState.step oneFile fun _ => 1) FillState.FillSafe (fun _ => True)
        (FillState.start oneFile directoryStat)
        [.fillStart true rootId, .call (.findLocked (ascii "/a")), .fillEnd 0] ∧
      ¬ Throughout (FillState.step emptiedLater fun _ => 1) FillState.FillSafe (fun _ => True)
        (FillState.start emptiedLater directoryStat)
        [.call (.findLocked (ascii "/d")), .fillStart true 2,
          .call (.rmdirUnlink (ascii "/d") true),
          .call (.makeEntry ⟨0, 0, 0⟩ (ascii "/e") (S_IFREG ||| 0o644) 0), .fillEnd 0] := by
  have twice : (do
      let final ← [.fillStart true rootId, .call (.findLocked (ascii "/a")), .fillEnd 0].foldlM
        (FillState.step oneFile fun _ => 1) (FillState.start oneFile directoryStat)
      return ([final.fs.first rootId, final.fs.next 3, final.fs.father 2, final.fs.father 3],
        [(final.fs.entries 2).d_name, (final.fs.entries 3).d_name]) :
      Except Fault (List Id × List Component)) =
      .ok ([3, 2, rootId, rootId], [ascii "a", ascii "a"]) := by decide +kernel
  have strayed : (do
      let final ← [.call (.findLocked (ascii "/d")), .fillStart true 2,
          .call (.rmdirUnlink (ascii "/d") true),
          .call (.makeEntry ⟨0, 0, 0⟩ (ascii "/e") (S_IFREG ||| 0o644) 0), .fillEnd 0].foldlM
        (FillState.step emptiedLater fun _ => 1) (FillState.start emptiedLater directoryStat)
      return final.strayed : Except Fault Bool) = .ok true := by decide +kernel
  constructor
  · intro throughout
    obtain ⟨final, run, rest⟩ := bind_eq_ok.mp twice
    simp only [pure, Except.pure, Except.ok.injEq, Prod.mk.injEq, List.cons.injEq,
      and_true] at rest
    obtain ⟨⟨first, next, twoFather, threeFather⟩, twoName, threeName⟩ := rest
    obtain ⟨noTwins, -⟩ := throughout.final run
    have three : Forest.Reaches final.fs.first final.fs.next rootId 3 := by
      rw [← first]
      exact .child .root (by rw [first]; decide)
    have two : Forest.Reaches final.fs.first final.fs.next rootId 2 := by
      rw [← next]
      exact .next three (by rw [next]; decide)
    exact absurd (noTwins 2 3 two three (by decide) (by decide)
      (twoFather.trans threeFather.symm) (twoName.trans threeName.symm)) (by decide)
  · intro throughout
    obtain ⟨final, run, rest⟩ := bind_eq_ok.mp strayed
    have bad : final.strayed = true := Except.ok.inj rest
    have good := (throughout.final run).2
    rw [bad] at good
    cases good

end Metadata
end Mcachefs
