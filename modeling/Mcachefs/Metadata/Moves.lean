import Mcachefs.Metadata.FullPaths

namespace Mcachefs
namespace Metadata

open Library Transfer

/-!
# What a rename moves

A rename has to move one entry with everything below it, and to leave every
other entry where it is.  The full path of an entry is told by the names of its
fathers, so that all paths below the entry change at once; its hash and the
path of its open file are copies of the full path, and are made again one by
one.
-/

variable {Hash : Type}

/-- The open file of an entry, if it has one, has this path. -/
def Told (fs : Fs Hash) (id : Id) (path : Path) : Prop :=
  (fs.entries id).fh ≠ 0 ->
    Exists fun mfile => fs.mfiles (fs.entries id).fh = some mfile ∧ mfile.path = path

/-- An open file belongs to one entry. -/
def FilesApart (fs : Fs Hash) : Prop :=
  forall one two, one ∈ fs.index -> two ∈ fs.index -> (fs.entries one).fh = (fs.entries two).fh ->
    (fs.entries one).fh ≠ 0 -> one = two

/-- The entry `mdata` with the names `names` has become the child `lname` of the
entry `mtarget` with the names `above`.  What is below it has come along, and
nothing else has changed. -/
structure Moves [Inhabited Hash] (env : Env Hash) (fs : Fs Hash) (mdata mtarget : Id)
    (names above : List Component) (lname : Component) (next : Fs Hash) : Prop where
  linked : mdata ∈ fs.index ∧ mtarget ∈ fs.index
  source : Named fs mdata names
  directory : Named fs mtarget above
  isTree : IsTree next
  index : forall id, id ∈ next.index ↔ id ∈ fs.index
  st : forall id, (next.entries id).st = (fs.entries id).st
  father : next.father mdata = mtarget
  d_name : (next.entries mdata).d_name = lname
  others : forall id, id ≠ mdata ->
    next.father id = fs.father id ∧ (next.entries id).d_name = (fs.entries id).d_name
  inside : forall id, id ∈ fs.index -> Climbs fs.father mdata id -> Exists fun rest =>
    Named fs id (names ++ rest) ∧ Named next id (above ++ lname :: rest) ∧
      (next.entries id).hash = env.hashing.doHash (pathString (above ++ lname :: rest)) ∧
      Told next id (pathString (above ++ lname :: rest))
  outside : forall id, id ∈ fs.index -> ¬ Climbs fs.father mdata id ->
    (forall own, Named fs id own -> Named next id own) ∧
      (next.entries id).hash = (fs.entries id).hash

/-- The entry at `path` has moved to `target` with all that is below it. -/
def MovesSubtree [Inhabited Hash] (env : Env Hash) (fs : Fs Hash) (path target : Path)
    (next : Fs Hash) : Prop :=
  Exists fun mdata => Exists fun mtarget => Exists fun names => Exists fun above =>
    Exists fun lname => Moves env fs mdata mtarget names above lname next ∧
      absolutePath names = path ∧ pathString (above ++ [lname]) = target ∧ slash ∉ lname

/-- What a rename needs for that: the entries it has found are those of the two
paths, the new name fits, and no file has children at or below the entry. -/
structure SuitsRename (fs : Fs Hash) (path target : Path) (mdata mtarget : Id)
    (lname : Component) : Prop where
  source : Exists fun names => Named fs mdata names ∧ absolutePath names = path
  directory : Exists fun above => Named fs mtarget above ∧ pathString (above ++ [lname]) = target
  short : lname.length ≤ NAME_MAX
  only : OnlyDirectories fs mdata

/-- No entry at or below the old path has the same hash by its new path. -/
def RehashesApart (env : Env Hash) (fs : Fs Hash) (path target : Path) : Prop :=
  forall id own rest, id ∈ fs.index -> Named fs id own -> absolutePath own = path ++ rest ->
    env.hashing.doHash (path ++ rest) ≠ env.hashing.doHash (target ++ rest)

variable {env : Env Hash} {fs middle next : Fs Hash} {mdata mtarget id : Id}
  {names above : List Component} {lname : Component}

/-! ## Names -/

theorem Named.unique {own other : List Component} (rootFather : fs.father rootId = 0)
    (one : Named fs id own) (two : Named fs id other) : own = other := by
  induction one generalizing other with
  | root =>
      cases two with
      | root => rfl
      | child some _ => exact absurd rootFather some
  | child some _ inductionHypothesis =>
      cases two with
      | root => exact absurd rootFather some
      | child _ higher => rw [inductionHypothesis higher]

/-- Only the root has no names. -/
theorem Named.root_of_nil (named : Named fs id names) (none : names = []) : id = rootId := by
  cases named with
  | root => rfl
  | child _ _ => exact absurd none (by simp)

/-- The names of an entry are told by the fathers and names of entries. -/
theorem Named.congr {own : List Component}
    (same : forall id, next.father id = fs.father id ∧
      (next.entries id).d_name = (fs.entries id).d_name)
    (named : Named fs id own) : Named next id own := by
  induction named with
  | root => exact .root
  | @child id names some _ inductionHypothesis =>
      rw [← (same id).2]
      exact .child ((same id).1 ▸ some) ((same id).1 ▸ inductionHypothesis)

section Moving

variable (others : forall id, id ≠ mdata ->
  next.father id = fs.father id ∧ (next.entries id).d_name = (fs.entries id).d_name)
include others

/-- What is not below the entry keeps its names. -/
theorem Named.outside {own : List Component} (away : ¬ Climbs fs.father mdata id)
    (named : Named fs id own) : Named next id own := by
  induction named with
  | root => exact .root
  | @child id names some _ inductionHypothesis =>
      obtain ⟨link, name⟩ := others id fun same => away (same ▸ .here)
      have higher := inductionHypothesis fun climbs => away (.up some climbs)
      rw [← name]
      exact .child (link ▸ some) (link ▸ higher)

/-- What is below the entry keeps the names from there on. -/
theorem Named.inside {own new : List Component} (climbs : Climbs fs.father mdata id)
    (old : Named fs mdata own) (there : Named next mdata new) : Exists fun rest =>
      Named fs id (own ++ rest) ∧ Named next id (new ++ rest) := by
  induction climbs with
  | here => exact ⟨[], by rwa [List.append_nil], by rwa [List.append_nil]⟩
  | @up id some _ inductionHypothesis =>
      by_cases same : id = mdata
      · subst same
        exact ⟨[], by rwa [List.append_nil], by rwa [List.append_nil]⟩
      · obtain ⟨rest, first, second⟩ := inductionHypothesis
        obtain ⟨link, name⟩ := others id same
        refine ⟨rest ++ [(fs.entries id).d_name], ?_, ?_⟩
        · rw [← List.append_assoc]
          exact .child some first
        · rw [← List.append_assoc, ← name]
          exact .child (link ▸ some) (link ▸ second)

end Moving

/-! ## The last component of a path -/

theorem lastSlash_none {path : Path} : lastSlash path = none ↔ slash ∉ path := by
  induction path with
  | nil => exact ⟨fun _ => List.not_mem_nil, fun _ => rfl⟩
  | cons byte path inductionHypothesis =>
      rw [lastSlash, List.mem_cons, not_or, ← inductionHypothesis]
      cases later : lastSlash path with
      | some place => simp
      | none => simp [eq_comm]

/-- There is no slash after the last one. -/
theorem lastSlash_drop {path : Path} {place : Nat} (last : lastSlash path = some place) :
    slash ∉ path.drop (place + 1) := by
  induction path generalizing place with
  | nil => cases last
  | cons byte path inductionHypothesis =>
      rw [lastSlash] at last
      cases later : lastSlash path with
      | some other =>
          rw [later] at last
          obtain rfl := Option.some.inj last
          exact inductionHypothesis later
      | none =>
          simp only [later, Option.ite_none_right_eq_some, Option.some.injEq] at last
          obtain ⟨-, rfl⟩ := last
          exact lastSlash_none.mp later

theorem lastSlash_append (front : Path) {name : Component} (noSlash : slash ∉ name) :
    lastSlash (front ++ slash :: name) = some front.length := by
  induction front with
  | nil =>
      rw [List.nil_append, lastSlash, lastSlash_none.mpr noSlash]
      exact if_pos rfl
  | cons byte front inductionHypothesis =>
      rw [List.cons_append, lastSlash, inductionHypothesis]
      rfl

/-- The name that `mcachefs_split_path` gives has no slash. -/
theorem splitPath_noSlash {path dpath : Path} (split : splitPath path = .ok (dpath, lname)) :
    slash ∉ lname := by
  unfold splitPath at split
  split at split
  · cases split
  · next place last =>
      obtain ⟨-, rfl⟩ := Prod.mk.inj (Except.ok.inj split)
      exact lastSlash_drop last

/-- It is the last component. -/
theorem splitPath_concat {dpath : Path} {name : Component} (noSlash : slash ∉ name)
    (split : splitPath (pathString (above ++ [name])) = .ok (dpath, lname)) : lname = name := by
  rw [pathString_concat, splitPath, lastSlash_append _ noSlash] at split
  obtain ⟨-, rfl⟩ := Prod.mk.inj (Except.ok.inj split)
  rw [List.drop_append, List.drop_of_length_le (by omega), List.nil_append, Nat.add_sub_cancel_left]
  rfl

/-! ## Paths of open files -/

section Files

/-- `mcachefs_metadata_update_fh_path` tells the open file of the entry its full path. -/
theorem updateFhPath_told (rootFather : fs.father rootId = 0)
    (rootName : (fs.entries rootId).d_name = [slash]) {own : List Component}
    (named : Named fs id own) (updated : fs.updateFhPath id = .ok next) :
    Told next id (pathString own) := by
  unfold Fs.updateFhPath at updated
  split at updated
  · next noFile =>
      obtain rfl := Except.ok.inj updated
      exact fun file => absurd noFile file
  · next file =>
      obtain ⟨newpath, told, updated⟩ := bind_eq_ok.mp updated
      rw [named.getPath rootFather rootName] at told
      split at told
      · obtain rfl := Except.ok.inj told
        unfold Fs.modifyFile at updated
        simp only [if_neg file] at updated
        split at updated
        · cases updated
        · obtain rfl := Except.ok.inj updated
          exact fun _ => ⟨_, Function.update_self _ _ _, rfl⟩
      · cases told

/-- It changes no other open file. -/
theorem updateFhPath_mfiles (updated : fs.updateFhPath id = .ok next) {fh : Fh}
    (different : fh ≠ (fs.entries id).fh) : next.mfiles fh = fs.mfiles fh := by
  unfold Fs.updateFhPath at updated
  split at updated
  · obtain rfl := Except.ok.inj updated
    rfl
  · obtain ⟨newpath, -, updated⟩ := bind_eq_ok.mp updated
    unfold Fs.modifyFile at updated
    simp only at updated
    split at updated
    · obtain rfl := Except.ok.inj updated
      rfl
    · split at updated
      · cases updated
      · obtain rfl := Except.ok.inj updated
        exact Function.update_of_ne different _ _

theorem Rehashed.place (rehashed : Rehashed fs next) (id : Id) :
    next.father id = fs.father id ∧ (next.entries id).d_name = (fs.entries id).d_name :=
  ⟨congrFun rehashed.father id, (congrArg Entry.d_name (rehashed.entries id)).trans rfl⟩

theorem Rehashed.fh (rehashed : Rehashed fs next) (id : Id) :
    (next.entries id).fh = (fs.entries id).fh :=
  (congrArg Entry.fh (rehashed.entries id)).trans rfl

theorem FilesApart.rehashed (files : FilesApart fs) (rehashed : Rehashed fs next) :
    FilesApart next := by
  intro one two oneLinked twoLinked same some
  rw [rehashed.fh] at same some
  rw [rehashed.fh] at same
  exact files one two (rehashed.mem_index.mp oneLinked) (rehashed.mem_index.mp twoLinked) same some

theorem Named.rehashed {own : List Component} (named : Named next id own)
    (rehashed : Rehashed fs next) : Named fs id own :=
  named.congr fun id => ⟨(rehashed.place id).1.symm, (rehashed.place id).2.symm⟩

/-- Paths that are told stay so when another open file changes. -/
theorem Told.rehashed {path : Path} (told : Told fs id path) (rehashed : Rehashed fs next)
    (same : (fs.entries id).fh ≠ 0 ->
      next.mfiles (fs.entries id).fh = fs.mfiles (fs.entries id).fh) : Told next id path := by
  intro some
  rw [rehashed.fh] at some ⊢
  rw [same some]
  exact told some

/-- What is below the entry has an open file of its full path. -/
def ToldBelow (mdata : Id) (fs : Fs Hash) (id : Id) : Prop :=
  Climbs fs.father mdata id -> id ≠ mdata -> forall own, Named fs id own ->
    Told fs id (pathString own)

variable [DecidableEq Hash]

omit [DecidableEq Hash] in
/-- A turn of the walk tells the path of its entry. -/
theorem rehashTurn_updates {rootid : Id} {cursor : Id × Id} {more : Option (Id × Id)}
    (turn : fs.rehashTurn env rootid cursor = .ok (more, next)) :
    (((fs.removeHash cursor.1).buildHash env cursor.2 cursor.1).insertHash cursor.1).updateFhPath
      cursor.1 = .ok next := by
  unfold Fs.rehashTurn at turn
  simp only at turn
  split at turn
  · cases turn
  · split at turn
    · cases turn
    · obtain ⟨updated, paths, turn⟩ := bind_eq_ok.mp turn
      refine paths.trans (congrArg Except.ok ?_)
      split at turn
      · exact (Prod.mk.inj (Except.ok.inj turn)).2
      · split at turn
        · exact (Prod.mk.inj (Except.ok.inj turn)).2
        · obtain ⟨climbed, -, turn⟩ := bind_eq_ok.mp turn
          cases climbed with
          | none => exact (Prod.mk.inj (Except.ok.inj turn)).2
          | some way =>
              simp only at turn
              split at turn
              · cases turn
              · exact (Prod.mk.inj (Except.ok.inj turn)).2

variable [Inhabited Hash]

theorem turnDoes_told {kids : Id -> List Id} {free : List Id} (tree : Tree fs kids free)
    (rootName : (fs.entries rootId).d_name = [slash]) (files : FilesApart fs) :
    TurnDoes env mdata fs (ToldBelow mdata) := by
  intro state cursor more after rehashed place turn
  have updates := rehashTurn_updates turn
  obtain ⟨further, -, -⟩ := rehash_rehashed env cursor.2 place.linked
  have before := rehashed.trans further
  have last := updateFhPath_rehashed updates
  have whole := further.trans last
  have rootFather := (congrFun before.father rootId).trans tree.shape.rootFather
  refine ⟨fun _ _ own named => ?_, fun id linked different _ told climbs apart own named => ?_⟩
  · exact updateFhPath_told rootFather ((before.place rootId).2.trans rootName)
      (named.rehashed last) updates
  · have old := told (whole.father ▸ climbs) apart own (named.rehashed whole)
    refine old.rehashed whole fun some => ?_
    have other : (state.entries id).fh ≠ (state.entries cursor.1).fh := fun same =>
      different ((files.rehashed rehashed) id cursor.1 linked place.linked same some)
    exact updateFhPath_mfiles updates (by rwa [further.fh])

end Files

/-! ## A rename moves one subtree -/

section Rename

variable [Inhabited Hash]

theorem FilesApart.moved (files : FilesApart fs) (move : Moved env fs mdata mtarget lname next) :
    FilesApart next := by
  have same : forall id, (next.entries id).fh = (fs.entries id).fh := by
    intro id
    by_cases here : id = mdata
    · rw [here]
      exact move.fh
    · exact (move.others id here).fh
  intro one two oneLinked twoLinked equal some
  rw [same one] at equal some
  rw [same two] at equal
  exact files one two ((move.index one).mp oneLinked) ((move.index two).mp twoLinked) equal some

variable [DecidableEq Hash]

/-- What a rename does with two entries it has found, where no file has children. -/
theorem moveEntry_moves (isTree : IsTree fs) (hashes : Hashes env fs) (files : FilesApart fs)
    (linked : mdata ∈ fs.index) (targetLinked : mtarget ∈ fs.index)
    (legal : ¬ Climbs fs.father mdata mtarget) (all : AllRead fs mdata)
    (source : Named fs mdata names) (directory : Named fs mtarget above)
    (short : lname.length ≤ NAME_MAX) (only : OnlyDirectories fs mdata)
    (moving : fs.moveEntry env mdata mtarget lname = .ok next) :
    Moves env fs mdata mtarget names above lname next := by
  have nextHashes := moveEntry_hashes isTree hashes linked targetLinked legal all only moving
  obtain ⟨moved, move, middle, rehash, updating⟩ :=
    moveEntry_cases isTree linked targetLinked legal moving
  have notRoot := move.notRoot isTree linked targetLinked
  obtain ⟨-, rootName, -⟩ := move.hashed isTree hashes legal notRoot
  have movedFiles := files.moved move
  obtain ⟨⟨-, below⟩, told⟩ : (middle.entries rootId = moved.entries rootId ∧
      Rehashed moved middle) ∧
        forall id, id ∈ middle.index -> id ≠ rootId -> ToldBelow mdata middle id := by
    obtain ⟨kids, free, tree⟩ := move.isTree
    refine rehashBelow_done ⟨kids, free, tree⟩ ((move.index mdata).mpr linked) (all.moved move)
      (only.moved isTree linked legal move) (turnDoes_told tree rootName movedFiles)
      (fun id _ _ => ?_) rehash
    by_cases inside : Climbs moved.father mdata id ∧ id ≠ mdata
    · exact Or.inr ⟨inside.2, inside.1⟩
    · exact Or.inl fun climbs apart => absurd ⟨climbs, apart⟩ inside
  have last := updateFhPath_rehashed updating
  have whole := below.trans last
  have nextTree := whole.isTree move.isTree
  have others : forall id, id ≠ mdata ->
      next.father id = fs.father id ∧ (next.entries id).d_name = (fs.entries id).d_name :=
    fun id apart => ⟨(whole.place id).1.trans (move.others id apart).father,
      (whole.place id).2.trans (move.others id apart).d_name⟩
  have father : next.father mdata = mtarget := (whole.place mdata).1.trans move.place.father
  have d_name : (next.entries mdata).d_name = lname :=
    (whole.place mdata).2.trans (move.place.d_name.trans (List.take_of_length_le short))
  have index : forall id, id ∈ next.index ↔ id ∈ fs.index :=
    fun id => whole.mem_index.trans (move.index id)
  have rootFather : next.father rootId = 0 := (nextTree.father_eq_zero nextTree.root).mpr rfl
  have there : Named next mdata (above ++ [lname]) := by
    rw [← d_name]
    refine .child ?_ (father.symm ▸ directory.outside others legal)
    exact father.symm ▸ isTree.ne_zero targetLinked
  have hash : forall id own, id ∈ fs.index -> Named next id own ->
      (next.entries id).hash = env.hashing.doHash (absolutePath own) := by
    intro id own old named
    obtain ⟨real, realNamed, -, same⟩ := nextHashes.named nextTree ((index id).mpr old)
    rw [same, named.unique rootFather realNamed]
  refine ⟨⟨linked, targetLinked⟩, source, directory, nextTree, index, fun id => ?_, father, d_name,
    others, fun id old climbs => ?_, fun id old away => ⟨fun own named => named.outside others away,
      ?_⟩⟩
  · rw [whole.st]
    by_cases same : id = mdata
    · rw [same, move.st]
    · exact (move.others id same).st
  · obtain ⟨rest, first, second⟩ := Named.inside others climbs source there
    rw [List.append_assoc, List.singleton_append] at second
    refine ⟨rest, first, second, ?_, ?_⟩
    · rw [hash id _ old second, absolutePath, if_neg (by simp)]
    · by_cases same : id = mdata
      · subst same
        refine updateFhPath_told ?_ ((below.place rootId).2.trans rootName)
          (second.rehashed last) updating
        rw [← last.father]
        exact rootFather
      · have movedLinked := (move.index id).mpr old
        have movedClimbs := move.climbs.mpr climbs
        have idNotRoot : id ≠ rootId := by
          rintro rfl
          exact (climbs.inv.resolve_left same).1
            ((isTree.father_eq_zero isTree.root).mpr rfl)
        refine (told id (below.mem_index.mpr movedLinked) idNotRoot (below.father ▸ movedClimbs)
          same _ (second.rehashed last)).rehashed last fun some => updateFhPath_mfiles updating ?_
        intro equal
        exact same ((movedFiles.rehashed below) id mdata (below.mem_index.mpr movedLinked)
          (below.mem_index.mpr ((move.index mdata).mpr linked)) equal some)
  · obtain ⟨own, named, -, same⟩ := hashes.named isTree old
    rw [hash id own old (named.outside others away), same]

/-! ## A file with children

The walk does not go down into an entry that is not a directory.
-/

/-- All fathers of an entry, up to the one that the walk starts from, are
directories. -/
inductive Visited (fs : Fs Hash) (rootid : Id) : Id -> Prop
  | top {id : Id} (above : fs.father id = rootid)
      (directory : (fs.entries rootid).st.isDir = true) : Visited fs rootid id
  | under {id : Id} (above : Visited fs rootid (fs.father id))
      (directory : (fs.entries (fs.father id)).st.isDir = true) : Visited fs rootid id

namespace Visited

omit [Inhabited Hash] [DecidableEq Hash]

variable {rootid : Id}

theorem father_isDir (visited : Visited fs rootid id) :
    (fs.entries (fs.father id)).st.isDir = true := by
  cases visited with
  | top above directory => rwa [above]
  | under _ directory => exact directory

theorem rehashed (visited : Visited fs rootid id) (rehashed : Rehashed fs next) :
    Visited next rootid id := by
  induction visited with
  | top above directory => exact .top (by rw [rehashed.father, above]) (by rwa [rehashed.st])
  | under _ directory inductionHypothesis =>
      exact .under (by rw [rehashed.father]; exact inductionHypothesis)
        (by rwa [rehashed.father, rehashed.st])

/-- Siblings are visited alike. -/
theorem sibling {other : Id} (visited : Visited fs rootid id)
    (same : fs.father other = fs.father id) : Visited fs rootid other := by
  cases visited with
  | top above directory => exact .top (same.trans above) directory
  | under above directory =>
      rw [← same] at above directory
      exact .under above directory

theorem climb {way : Id × Id} {fatherid : Id} {fuel : Nat} (visited : Visited fs rootid id)
    (climbing : fs.rehashClimb rootid fuel id fatherid = .ok (some way)) :
    Visited fs rootid way.1 := by
  induction fuel generalizing id fatherid with
  | zero => cases climbing
  | succ fuel inductionHypothesis =>
      unfold Fs.rehashClimb at climbing
      split at climbing
      · obtain rfl := Option.some.inj (Except.ok.inj climbing)
        exact visited
      · split at climbing
        · cases Except.ok.inj climbing
        · next notTop =>
            split at climbing
            · cases climbing
            · cases visited with
              | top above _ => exact absurd above notTop
              | under above _ => exact inductionHypothesis above climbing

end Visited

/-- A child of a file is not hashed again. -/
theorem rehashChildren_skips (isTree : IsTree fs) (linked : mdata ∈ fs.index)
    (directory : (fs.entries mdata).st.isDir = true) (known : (fs.entries mdata).child ≠ .unread)
    (file : (fs.entries (fs.father id)).st.isDir ≠ true)
    (rehash : fs.rehashChildren env mdata = .ok next) : next.entries id = fs.entries id := by
  rw [Fs.rehashChildren, getChild_of_known known] at rehash
  change (if fs.first mdata = 0 then Except.ok fs else _) = _ at rehash
  split at rehash
  · obtain rfl := Except.ok.inj rehash
    rfl
  · next some =>
      have step : forall cursor state more after,
          (Rehashed fs state ∧ state.entries id = fs.entries id) ∧
            RehashAt state cursor ∧ (cursor.1 ≠ 0 -> Visited state mdata cursor.1) ->
          state.rehashTurn env mdata cursor = .ok (more, after) ->
          (Rehashed fs after ∧ after.entries id = fs.entries id) ∧
            forall other, more = Option.some other ->
              RehashAt after other ∧ (other.1 ≠ 0 -> Visited after mdata other.1) := by
        intro cursor state more after holds turn
        obtain ⟨⟨rehashed, same⟩, place, visited⟩ := holds
        have stateTree := rehashed.isTree isTree
        obtain ⟨present, kept, way⟩ := rehashTurn_cases turn
        obtain ⟨further, goesOn⟩ := rehashTurn_at stateTree place turn
        have here := visited present
        have there := here.rehashed further
        obtain ⟨-, -, others⟩ := kept (place.resolve_left present).1
        have different : id ≠ cursor.1 := by
          rintro rfl
          have above := here.father_isDir
          rw [rehashed.father, rehashed.st] at above
          exact file above
        refine ⟨⟨rehashed.trans further, (others id different).trans same⟩,
          fun other goes => ⟨goesOn other goes, fun more => ?_⟩⟩
        have afterTree := further.isTree stateTree
        have linkedAfter := further.mem_index.mpr (place.resolve_left present).1
        rcases way with ⟨-, -, rfl⟩ | ⟨isDir, -, -, rfl⟩ | ⟨-, climbed, climbing, rfl⟩
        · cases goes
        · obtain rfl := Option.some.inj goes
          obtain ⟨-, link⟩ := afterTree.first linkedAfter more
          exact .under (link.symm ▸ there) (by rwa [link])
        · cases climbed with
          | none => cases goes
          | some way =>
              obtain rfl := Option.some.inj goes
              have wayLinked := (rehashClimb_linked afterTree linkedAfter
                (by rw [further.father]; exact (place.resolve_left present).2) climbing).1
              exact (there.climb climbing).sibling (afterTree.sibling wayLinked more).2.2
      have start : (Rehashed fs fs ∧ fs.entries id = fs.entries id) ∧
          RehashAt fs (fs.first mdata, mdata) ∧
            (fs.first mdata ≠ 0 -> Visited fs mdata (fs.first mdata)) := by
        obtain ⟨childLinked, link⟩ := isTree.first linked some
        exact ⟨⟨.refl fs, rfl⟩, Or.inr ⟨childLinked, link.symm⟩, fun _ => .top link directory⟩
      have last : Rehashed fs next ∧ next.entries id = fs.entries id := by
        refine iterate_ok (fun cursor state other after holds turn => ?_)
          (fun cursor state after holds turn => (step cursor state none after holds turn).1) start
          rehash
        obtain ⟨kept, goesOn⟩ := step cursor state (Option.some other) after holds turn
        exact ⟨kept, goesOn other rfl⟩
      exact last.2

/-- A rename that moves one subtree finds no file with children. -/
theorem moveEntry_only (isTree : IsTree fs) (hashes : Hashes env fs) (linked : mdata ∈ fs.index)
    (targetLinked : mtarget ∈ fs.index) (legal : ¬ Climbs fs.father mdata mtarget)
    {name : Component} (moves : Moves env fs mdata mtarget names above name next)
    (hashesApart : RehashesApart env fs (absolutePath names) (pathString (above ++ [name])))
    (moving : fs.moveEntry env mdata mtarget lname = .ok next) : OnlyDirectories fs mdata := by
  intro id there climbs some
  by_contra file
  obtain ⟨moved, move, middle, rehash, updating⟩ :=
    moveEntry_cases isTree linked targetLinked legal moving
  obtain ⟨childLinked, link⟩ := isTree.first there some
  obtain ⟨rest, old, -, hash, -⟩ := moves.inside _ childLinked
    (.up (link.symm ▸ isTree.ne_zero there) (link.symm ▸ climbs))
  have rootFather : fs.father rootId = 0 := (isTree.father_eq_zero isTree.root).mpr rfl
  have notRoot := move.notRoot isTree linked targetLinked
  obtain ⟨kids, free, tree⟩ := isTree
  have isNode := tree.mem_index.mp there
  have childApart : fs.first id ≠ mdata := fun same =>
    tree.shape.forest.not_climbs tree.shape.tops isNode
      (tree.shape.forest.first_mem isNode some) (same ▸ climbs)
  have alike := move.others (fs.first id) childApart
  -- The walk leaves the hash of the child alone.
  have kept : middle.entries (fs.first id) = moved.entries (fs.first id) := by
    split at rehash
    · next down =>
        have apart : id ≠ mdata := by
          rintro rfl
          rw [move.st] at down
          exact file down.1
        have known : (moved.entries mdata).child ≠ .unread := by
          rcases tree.shape.forest.climbs_child isNode tree.shape.tops climbs with
            same | ⟨child, member, -⟩
          · exact absurd same apart
          · refine move.known mdata fun unread => ?_
            have noChild : fs.first mdata = 0 := by
              rw [Fs.first, unread]
              rfl
            rw [tree.leaf linked noChild] at member
            cases member
        refine rehashChildren_skips move.isTree ((move.index mdata).mpr linked) down.1 known ?_
          rehash
        have father : moved.father (fs.first id) = id := alike.father.trans link
        rw [father, (move.others id apart).st]
        exact file
    · obtain rfl := Except.ok.inj rehash
      rfl
  have same : (next.entries (fs.first id)).hash = (fs.entries (fs.first id)).hash := by
    have entries : next.entries (fs.first id) = middle.entries (fs.first id) := by
      rw [updateFhPath_eq updating]
    rw [entries, kept]
    exact alike.hash
  obtain ⟨own, named, -, oldHash⟩ := hashes.named ⟨kids, free, tree⟩ childLinked
  rw [named.unique rootFather old] at oldHash
  have equal := (oldHash.symm.trans same.symm).trans hash
  have some : names ≠ [] := fun none => notRoot (moves.source.root_of_nil none)
  have longer : absolutePath (names ++ rest) = absolutePath names ++ pathString rest := by
    rw [absolutePath, if_neg fun none => some (List.append_eq_nil_iff.mp none).1, absolutePath,
      if_neg some, pathString_append]
  refine hashesApart _ _ (pathString rest) childLinked old longer ?_
  rwa [← longer, ← pathString_append, List.append_assoc, List.singleton_append]

omit [DecidableEq Hash] in
/-- Where a rename puts the entry, and that it leaves the others in their places. -/
theorem moveEntry_place (isTree : IsTree fs) (linked : mdata ∈ fs.index)
    (targetLinked : mtarget ∈ fs.index) (legal : ¬ Climbs fs.father mdata mtarget)
    (moving : fs.moveEntry env mdata mtarget lname = .ok next) :
    next.father mdata = mtarget ∧ (next.entries mdata).d_name = lname.take NAME_MAX ∧
      forall id, id ∈ fs.index -> id ≠ mdata ->
        next.father id = fs.father id ∧ (next.entries id).d_name = (fs.entries id).d_name := by
  obtain ⟨moved, move, middle, rehash, updating⟩ :=
    moveEntry_cases isTree linked targetLinked legal moving
  have last := updateFhPath_rehashed updating
  have place : forall id, id ∈ moved.index ->
      next.father id = moved.father id ∧ (next.entries id).d_name = (moved.entries id).d_name := by
    intro id there
    rw [(last.place id).1, (last.place id).2]
    split at rehash
    · have movedLinked := (move.index mdata).mpr linked
      obtain ⟨child, read, reading, rehashed⟩ :=
        rehashChildren_rehashed move.isTree movedLinked rehash
      have stays := getChild_stays move.isTree movedLinked reading there
      rw [(rehashed.place id).1, (rehashed.place id).2]
      exact ⟨stays.alike.father, stays.alike.d_name⟩
    · obtain rfl := Except.ok.inj rehash
      exact ⟨rfl, rfl⟩
  have here := place mdata ((move.index mdata).mpr linked)
  refine ⟨here.1.trans move.place.father, here.2.trans move.place.d_name, fun id old apart => ?_⟩
  have there := place id ((move.index id).mpr old)
  exact ⟨there.1.trans (move.others id apart).father, there.2.trans (move.others id apart).d_name⟩

end Rename

/-! ## Calls -/

section Calls

variable [Inhabited Hash] [DecidableEq Hash]

omit [DecidableEq Hash] in
/-- New entries have no open file. -/
theorem FilesApart.populated (files : FilesApart fs) (isTree : IsTree fs)
    (populated : Populated env fs next) : FilesApart next := by
  induction populated with
  | refl => exact files
  | @step middle next father child before linked read inductionHypothesis =>
      have middleTree := before.isTree isTree
      have old : forall id, id ∈ next.index -> (next.entries id).fh ≠ 0 ->
          id ∈ middle.index ∧ (next.entries id).fh = (middle.entries id).fh := by
        intro id there some
        have kept : id ∈ middle.index -> (next.entries id).fh = (middle.entries id).fh :=
          fun inside => (getChild_stays middleTree linked read inside).alike.fh
        obtain ⟨kids, free, tree⟩ := middleTree
        obtain ⟨-, same | ⟨-, -, -, _, _, _, -, -, rest, new, grown⟩⟩ :=
          tree.getChild (tree.mem_index.mp linked) read
        · have inside : id ∈ middle.index := by
            rw [same] at there
            exact there
          exact ⟨inside, kept inside⟩
        · rcases (grown.nodes id).mp (grown.tree.mem_index.mp there) with isNode | fresh
          · exact ⟨tree.mem_index.mpr isNode, kept (tree.mem_index.mpr isNode)⟩
          · obtain ⟨link, entry⟩ := grown.entries id fresh
            exact absurd (congrArg Entry.fh entry) some
      intro one two oneLinked twoLinked same some
      obtain ⟨oneOld, oneSame⟩ := old one oneLinked some
      obtain ⟨twoOld, twoSame⟩ := old two twoLinked (same ▸ some)
      exact inductionHypothesis one two oneOld twoOld (oneSame.symm.trans (same.trans twoSame))
        (oneSame ▸ some)

omit [DecidableEq Hash] in
/-- Reading directories keeps the names of the entries. -/
theorem Named.populated {own : List Component} (named : Named fs id own) (isTree : IsTree fs)
    (linked : id ∈ fs.index) (populated : Populated env fs next) : Named next id own := by
  induction named with
  | root => exact .root
  | @child id names some _ inductionHypothesis =>
      have alike := (populated.stays isTree linked).alike
      have link : next.father id = fs.father id := alike.father
      have notRoot : id ≠ rootId := fun isRoot =>
        some (isRoot ▸ (isTree.father_eq_zero isTree.root).mpr rfl)
      rw [← alike.d_name]
      exact .child (link ▸ some) (link ▸ inductionHypothesis (isTree.father linked notRoot))

omit [DecidableEq Hash] in
/-- Reading directories gives no file children. -/
theorem OnlyDirectories.ofPopulated {mroot : Id} (only : OnlyDirectories next mroot)
    (isTree : IsTree fs) (populated : Populated env fs next) : OnlyDirectories fs mroot := by
  intro id there climbs some
  have stays := populated.stays isTree there
  have known : (fs.entries id).child ≠ .unread := by
    intro unread
    rw [Fs.first, unread] at some
    exact some rfl
  have directory := only id stays.linked
    ((climbs_stays isTree (fun id old => (populated.stays isTree old).alike.father) there).mpr climbs)
    (by rwa [Fs.first, stays.child known])
  rwa [← stays.alike.st]

/-- A rename that succeeds moves the entry of its path with all that is below it exactly when
the entries it has found are those of its two paths, the new name fits, and no file at or
below the entry has children; the other direction takes the hashes of what moves to change. -/
theorem renameEntry_moves {path target : Path} (isTree : IsTree fs) (hashes : Hashes env fs)
    (files : FilesApart fs) (legal : (TreeCall.renameEntry path target).Legal env fs) (different : path ≠ target)
    (result : fs.renameEntry env path target = .ok (0, next)) :
    Exists fun mdata => Exists fun mtarget => Exists fun lname => Exists fun middle =>
      RenameFinds env fs path target mdata mtarget lname middle ∧ Populated env fs middle ∧
        (SuitsRename middle path target mdata mtarget lname ->
          MovesSubtree env middle path target next) ∧
        (RehashesApart env middle path target -> MovesSubtree env middle path target next ->
          SuitsRename middle path target mdata mtarget lname) := by
  rcases renameEntry_cases isTree result with ⟨failed, -⟩ | ⟨mdata, mtarget, lname, middle, finds,
    moving⟩
  · exact absurd rfl failed
  · obtain ⟨populated, linked, targetLinked⟩ := finds.populated isTree
    have apart := legal mdata mtarget lname middle finds
    have middleTree := populated.isTree isTree
    have middleHashes := (Changed.ofPopulated populated).hashes isTree hashes
    have noSlash : slash ∉ lname := by
      obtain ⟨_, _, _, _, -, -, -, -, split, -⟩ := finds
      exact splitPath_noSlash split
    refine ⟨mdata, mtarget, lname, middle, finds, populated, fun suits => ?_,
      fun hashesApart moves => ?_⟩
    · obtain ⟨⟨names, source, samePath⟩, ⟨above, directory, sameTarget⟩, short, only⟩ := suits
      have first := only.ofPopulated isTree populated
      obtain ⟨all, -⟩ := finds.allRead isTree fun id found lookup present => by
        obtain ⟨_, _, _, _, lookup', -⟩ := finds
        obtain ⟨rfl, rfl⟩ := Prod.mk.inj (Except.ok.inj (lookup.symm.trans lookup'))
        exact (findLocked_populated isTree lookup).1.onlyDirectories isTree first
      exact ⟨mdata, mtarget, names, above, lname, moveEntry_moves middleTree middleHashes
        (files.populated isTree populated) linked targetLinked apart all source directory short
        only moving, samePath, sameTarget, noSlash⟩
    · obtain ⟨id, father, names, above, name, moves, rfl, rfl, nameNoSlash⟩ := moves
      obtain ⟨putFather, putName, others⟩ :=
        moveEntry_place middleTree linked targetLinked apart moving
      by_cases same : id = mdata
      · subst same
        obtain rfl : father = mtarget := moves.father.symm.trans putFather
        have cut : name = lname.take NAME_MAX := moves.d_name.symm.trans putName
        obtain rfl : lname = name := by
          obtain ⟨_, _, _, _, -, -, -, -, split, -⟩ := finds
          exact splitPath_concat nameNoSlash split
        refine ⟨⟨names, moves.source, rfl⟩, ⟨above, moves.directory, rfl⟩, ?_, ?_⟩
        · rw [cut]
          exact List.length_take_le _ _
        · exact moveEntry_only middleTree middleHashes linked targetLinked apart moves hashesApart
            moving
      · -- The entry of the path would be where it was, and so the paths would be equal.
        exfalso
        obtain ⟨link, kept⟩ := others id moves.linked.1 same
        have place : middle.father id = father := link.symm.trans moves.father
        have rootFather := (middleTree.father_eq_zero middleTree.root).mpr rfl
        have source := moves.source
        cases source with
        | root => exact middleTree.ne_zero moves.linked.2 (place.symm.trans rootFather)
        | child _ higher =>
            rw [place] at higher
            rw [higher.unique rootFather moves.directory, ← kept, moves.d_name, absolutePath,
              if_neg (by simp)] at different
            exact different rfl

omit [Inhabited Hash] [DecidableEq Hash] in
theorem FilesApart.none
    (none : forall fh, fh ∈ fs.index.map (fun id => (fs.entries id).fh) -> fh = 0) :
    FilesApart fs :=
  fun one _ linked _ _ some => absurd (none _ (List.mem_map.mpr ⟨one, linked, rfl⟩)) some

/-- An entry that is made is one of the tree. -/
theorem made_hashes {context : Context} {path : Path} {mode : UInt32} {rdev : UInt64}
    (isTree : IsTree fs ∧ NoLinks fs) (hashes : Hashes env fs)
    (made : TreeCall.run env fs (.makeEntry context path mode rdev) = .ok next) :
    (IsTree next ∧ NoLinks next) ∧ Hashes env next :=
  ⟨TreeCall.run_isTree isTree.1 isTree.2 (by trivial) (by trivial) made,
    TreeCall.run_hashes isTree.1 isTree.2 hashes (by trivial) (by trivial) (by trivial) made⟩

/-- After a mount there is a tree that is hashed by path, also when two entries were made. -/
theorem mounted_hashes {context : Context} {first second : Path} {mode last : UInt32}
    {rdev dev : UInt64} (st : Stat)
    (made : [TreeCall.populateVops, .makeEntry context first mode rdev,
      .makeEntry context second last dev].foldlM (TreeCall.run env) (Fs.format env st) = .ok fs) :
    IsTree fs ∧ Hashes env fs := by
  obtain ⟨mounted, mount, rest⟩ := bind_eq_ok.mp made
  obtain ⟨one, make, rest⟩ := bind_eq_ok.mp rest
  obtain ⟨two, below, rest⟩ := bind_eq_ok.mp rest
  obtain rfl := Except.ok.inj rest
  obtain ⟨formatTree, formatLinks⟩ := format_isTree env st
  have mountTree := TreeCall.run_isTree formatTree formatLinks (by trivial) (by trivial) mount
  have mountHashes := TreeCall.run_hashes formatTree formatLinks (format_hashes env st)
    (by trivial) (by trivial) (by trivial) mount
  obtain ⟨oneTree, oneHashes⟩ := made_hashes mountTree mountHashes make
  obtain ⟨twoTree, twoHashes⟩ := made_hashes oneTree oneHashes below
  exact ⟨twoTree.1, twoHashes⟩

end Calls

/-- What `rename /d /e` needs and finds after `mkdir /d` and `mknod /d/x`. -/
theorem renameDirectory_result :
    (do
      let fs ← madeInDirectory.foldlM (TreeCall.run mountedSource)
        (Fs.format mountedSource directoryStat)
      let finds ← fs.renameLookups mountedSource (ascii "/d") (ascii "/e")
      let renamed ← fs.renameEntry mountedSource (ascii "/d") (ascii "/e")
      let middle := finds.2.2
      return (fs.index.map (fun id => (fs.entries id).fh), finds.1,
        [middle.father rootId, middle.father 15],
        [decide (renamed.1 = 0), decide (finds.2.1 = ascii "e"),
          decide ((middle.entries 15).d_name = ascii "d"),
          middle.index.all fun id => middle.first id = 0 ∨ (middle.entries id).st.isDir]) :
          Except Fault (List Fh × (Id × Id × Id) × List Id × List Bool)) =
      .ok (List.replicate 16 0, (15, 0, rootId), [0, rootId], [true, true, true, true]) := by
  decide +kernel

/-- A directory moves with the file in it. -/
theorem renameEntry_moves_directory : Exists fun fs => Exists fun middle => Exists fun next =>
    madeInDirectory.foldlM (TreeCall.run mountedSource)
        (Fs.format mountedSource directoryStat) = .ok fs ∧
      fs.renameEntry mountedSource (ascii "/d") (ascii "/e") = .ok (0, next) ∧
      Populated mountedSource fs middle ∧
      SuitsRename middle (ascii "/d") (ascii "/e") 15 rootId (ascii "e") ∧
      RehashesApart mountedSource middle (ascii "/d") (ascii "/e") ∧
      MovesSubtree mountedSource middle (ascii "/d") (ascii "/e") next := by
  obtain ⟨fs, made, rest⟩ := bind_eq_ok.mp renameDirectory_result
  obtain ⟨⟨ids, lname, middle⟩, lookups, rest⟩ := bind_eq_ok.mp rest
  obtain ⟨⟨code, next⟩, rename, rest⟩ := bind_eq_ok.mp rest
  simp only [pure, Except.pure, Except.ok.injEq, Prod.mk.injEq, List.cons.injEq, and_true,
    decide_eq_true_eq] at rest
  obtain ⟨files, rfl, ⟨middleRoot, link⟩, rfl, rfl, d_name, directories⟩ := rest
  have finds := RenameFinds.ofLookups lookups (by decide) (by decide)
  obtain ⟨isTree, hashes⟩ := mounted_hashes directoryStat made
  obtain ⟨mdata, mtarget, lname, other, found, populated, moves, -⟩ :=
    renameEntry_moves isTree hashes (.none (by simp [files]))
      (TreeCall.legal_of_root finds (by decide) middleRoot) (by decide) rename
  obtain ⟨rfl, rfl, rfl, rfl⟩ := found.unique finds
  have above : Named middle (middle.father 15) [] := by
    rw [link]
    exact .root
  have source : Named middle 15 [ascii "d"] := by
    rw [← d_name]
    exact .child (by rw [link]; decide) above
  have suits : SuitsRename middle (ascii "/d") (ascii "/e") 15 rootId (ascii "e") :=
    ⟨⟨_, source, rfl⟩, ⟨[], .root, rfl⟩, by decide, onlyDirectories_of_all directories⟩
  refine ⟨fs, middle, next, made, rename, populated, suits, ?_, moves suits⟩
  intro id own rest _ _ _ same
  exact absurd ((hash32_6_16_doHash_append _ _ rest).mp same) (by decide)

/-- What `rename /f /g` finds and does after `mknod /f` and `mknod /f/x`. -/
theorem renameFile_result :
    (do
      let fs ← madeInFile.foldlM (TreeCall.run mountedSource)
        (Fs.format mountedSource directoryStat)
      let finds ← fs.renameLookups mountedSource (ascii "/f") (ascii "/g")
      let renamed ← fs.renameEntry mountedSource (ascii "/f") (ascii "/g")
      let old ← fs.getPath 16
      let new ← renamed.2.getPath 16
      return (fs.index.map (fun id => (fs.entries id).fh), finds.1,
        [finds.2.2.father rootId],
        [decide (renamed.1 = 0), decide (16 ∈ fs.index),
          decide ((renamed.2.entries rootId).d_name = [slash]),
          decide (old = new), decide ((renamed.2.entries 16).hash = hash32_6_16.doHash new),
          (fs.insertedIndex >>= fun store =>
            store.rekey 64 15 (renamed.2.entries 15).hash.toNat).isOk]) :
          Except Fault (List Fh × (Id × Id × Id) × List Id × List Bool)) =
      .ok (List.replicate 16 0, (15, 0, rootId), [0], [true, true, true, false, false, true]) := by
  decide +kernel

/-- After `rename /f /g` the entry of `/g/x` is still indexed under `/f/x`; the red-black tree
takes the new hash of `/g`. -/
theorem rename_of_file_with_child : Exists fun fs => Exists fun next =>
    madeInFile.foldlM (TreeCall.run mountedSource)
        (Fs.format mountedSource directoryStat) = .ok fs ∧
      (IsTree fs ∧ Hashes mountedSource fs ∧ FilesApart fs) ∧
      (TreeCall.renameEntry (ascii "/f") (ascii "/g")).Legal mountedSource fs ∧
      fs.renameEntry mountedSource (ascii "/f") (ascii "/g") = .ok (0, next) ∧
      (fs.insertedIndex >>= fun store =>
        store.rekey 64 15 (next.entries 15).hash.toNat).isOk = true ∧
      ¬ Exists fun middle => Populated mountedSource fs middle ∧
        MovesSubtree mountedSource middle (ascii "/f") (ascii "/g") next := by
  obtain ⟨fs, made, rest⟩ := bind_eq_ok.mp renameFile_result
  obtain ⟨⟨ids, name, middle⟩, lookups, rest⟩ := bind_eq_ok.mp rest
  obtain ⟨⟨code, next⟩, rename, rest⟩ := bind_eq_ok.mp rest
  obtain ⟨old, oldPath, rest⟩ := bind_eq_ok.mp rest
  obtain ⟨new, newPath, rest⟩ := bind_eq_ok.mp rest
  simp only [pure, Except.pure, Except.ok.injEq, Prod.mk.injEq, List.cons.injEq, and_true,
    decide_eq_true_eq, decide_eq_false_iff_not] at rest
  obtain ⟨files, rfl, middleRoot, rfl, linked, rootName, moved, differ, indexed⟩ := rest
  have finds := RenameFinds.ofLookups lookups (by decide) (by decide)
  obtain ⟨isTree, hashes⟩ := mounted_hashes directoryStat made
  refine ⟨fs, next, made, ⟨isTree, hashes, .none (by simp [files])⟩,
    TreeCall.legal_of_root finds (by decide) middleRoot, rename, indexed, ?_⟩
  rintro ⟨read, populated, id, father, names, targetId, lname, moves, -⟩
  have rootFather : next.father rootId = 0 :=
    (moves.isTree.father_eq_zero moves.isTree.root).mpr rfl
  have told : forall own, Named next 16 own -> new = pathString own := by
    intro own named
    rw [named.getPath rootFather rootName] at newPath
    split at newPath
    · exact (Except.ok.inj newPath).symm
    · cases newPath
  have stays := (populated.stays isTree linked).linked
  by_cases climbs : Climbs read.father id 16
  · obtain ⟨rest, -, named, hash, -⟩ := moves.inside 16 stays climbs
    exact differ (hash.trans (congrArg _ (told _ named).symm))
  · obtain ⟨own, named, -, -⟩ := hashes.named isTree linked
    have same := told own ((moves.outside 16 stays climbs).1 own
      (named.populated isTree linked populated))
    rw [named.getPath ((isTree.father_eq_zero isTree.root).mpr rfl) hashes.rootName] at oldPath
    split at oldPath
    · exact moved ((Except.ok.inj oldPath).symm.trans same.symm)
    · cases oldPath

end Metadata
end Mcachefs
