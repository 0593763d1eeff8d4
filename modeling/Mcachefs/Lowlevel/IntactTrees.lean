import Mcachefs.Lowlevel.LinkedFiles
import Mcachefs.Metadata.ShownMoves

namespace Mcachefs
namespace Lowlevel

open Library Metadata Journal
open Transfer (Fh)

/-!
# Trees with open files

Where only directories have children, a rename finds everything below the entry and tells
it and its open files their new paths.  So the calls keep the tree, the hashes by full
path, and the pairing of entries and open files together.
-/

section Tree

variable {Hash : Type} [Inhabited Hash] [DecidableEq Hash] {env : Env Hash} {fs next : Fs Hash}

/-- The tree, with hashes by path and open files, where only directories have children. -/
structure Intact (env : Env Hash) (fs : Fs Hash) : Prop extends Linking fs where
  hashes : Hashes env fs
  directories : forall id, id ∈ fs.index -> id ≠ rootId ->
    (fs.entries (fs.father id)).st.isDir = true

omit [DecidableEq Hash] in
theorem Intact.rootFather (intact : Intact env fs) : fs.father rootId = 0 :=
  (intact.isTree.father_eq_zero intact.isTree.root).mpr rfl

omit [DecidableEq Hash] in
theorem Intact.onlyDirectories (intact : Intact env fs) (mdata : Id) :
    OnlyDirectories fs mdata := by
  intro id there _ some
  obtain ⟨childLinked, link⟩ := intact.isTree.first there some
  have below : fs.first id ≠ rootId := by
    intro isRoot
    rw [isRoot, intact.rootFather] at link
    exact intact.isTree.ne_zero there link.symm
  exact link ▸ intact.directories _ childLinked below

omit [DecidableEq Hash] in
theorem Intact.filesApart (intact : Intact env fs) : FilesApart fs := by
  intro one two oneLinked twoLinked same some
  obtain ⟨mfile, opened, own⟩ := intact.paired.file one oneLinked some
  obtain ⟨other, held, link⟩ := intact.paired.file two twoLinked (same ▸ some)
  rw [← same, opened] at held
  obtain rfl := Option.some.inj held
  exact own.symm.trans link

omit [DecidableEq Hash] in
/-- An entry whose names are kept has no others. -/
theorem Intact.named_old {id : Id} {names : List Component} (intact : Intact env fs)
    (isTree : IsTree next) (linked : id ∈ fs.index)
    (kept : forall own, Named fs id own -> Named next id own) (named : Named next id names) :
    Named fs id names := by
  obtain ⟨own, before, -⟩ := intact.hashes.named intact.isTree linked
  have rootFather : next.father rootId = 0 := (isTree.father_eq_zero isTree.root).mpr rfl
  rwa [← (kept own before).unique rootFather named]

/-! ## What the sections keep of the tree -/

omit [DecidableEq Hash] in
theorem Intact.getChild {father child : Id} (intact : Intact env fs) (linked : father ∈ fs.index)
    (read : fs.getChild env father = .ok (child, next)) : Intact env next := by
  have stays : forall {id}, id ∈ fs.index -> Stays fs next id :=
    getChild_stays intact.isTree linked read
  refine ⟨intact.toLinking.populated (.step .refl linked read),
    intact.hashes.getChild intact.isTree linked read, fun id there below => ?_⟩
  rcases getChild_fresh intact.isTree linked read there with old | ⟨-, -, directory, link, -⟩
  · have above : next.father id = fs.father id := (stays old).alike.father
    rw [above, (stays (intact.isTree.father old below)).alike.st]
    exact intact.directories id old below
  · rw [link, (stays linked).alike.st]
    exact directory

omit [DecidableEq Hash] in
theorem Intact.populated (intact : Intact env fs) (populated : Populated env fs next) :
    Intact env next := by
  induction populated with
  | refl => exact intact
  | step _ linked read inductionHypothesis => exact inductionHypothesis.getChild linked read

omit [DecidableEq Hash] in
theorem Intact.added {kids : Id -> List Id} {free rest : List Id} {father id : Id}
    {name : Component} {st : Stat} {child : Child} (intact : Intact env fs)
    (tree : Tree fs kids free) (linked : father ∈ fs.index)
    (directory : (fs.entries father).st.isDir = true)
    (added : Added env fs kids free father id name st child next rest) : Intact env next := by
  have isNode := tree.mem_index.mp linked
  have alike : forall other, other ∈ fs.index ->
      next.father other = fs.father other ∧ (next.entries other).st = (fs.entries other).st := by
    intro other old
    rw [Fs.father, Fs.father]
    by_cases same : other = father
    · rw [same, added.above]
      exact ⟨rfl, rfl⟩
    · rw [added.kept other (tree.mem_index.mp old) same]
      exact ⟨rfl, rfl⟩
  have changed : Changed env fs next := .added .refl tree isNode added
  refine ⟨⟨⟨_, _, added.tree⟩, changed.noLinks intact.isTree intact.noLinks,
    added.paired tree intact.paired⟩, intact.hashes.added tree isNode added,
    fun other there below => ?_⟩
  rcases (added.nodes other).mp (added.tree.mem_index.mp there) with old | rfl
  · have before := tree.mem_index.mpr old
    rw [(alike other before).1, (alike _ (intact.isTree.father before below)).2]
    exact intact.directories other before below
  · have link : next.father other = father := congrArg Entry.father added.entry
    rw [link, (alike father linked).2]
    exact directory

omit [DecidableEq Hash] in
theorem Intact.unlinkRemove {id : Id} (intact : Intact env fs) (linked : id ∈ fs.index)
    (leaf : fs.first id = 0) (removing : fs.unlinkRemove env id = .ok next) : Intact env next := by
  have removed := unlinkRemove_removed intact.isTree linked leaf removing
  have shrinks : Shrinks fs next := fun other there =>
    ⟨((removed.index other).mp there).1, removed.placed other there⟩
  refine ⟨⟨removed.isTree, shrinks.noLinks intact.noLinks,
    unlinkRemove_paired intact.isTree linked removing intact.paired⟩,
    intact.hashes.shrinks shrinks removed.isTree, fun other there below => ?_⟩
  have link : next.father other = fs.father other := (removed.placed other there).father
  have above := removed.isTree.father there below
  rw [removed.isDir above, link]
  exact intact.directories other (shrinks other there).1 below

omit [DecidableEq Hash] in
/-- Open files come and go. -/
theorem Intact.opened (intact : Intact env fs) (linking : Linking next) (opened : Opened fs next) :
    Intact env next := by
  have retouched := Retouched.ofOpened opened
  refine ⟨linking, retouched.hashes intact.hashes, fun id there below => ?_⟩
  rw [retouched.father_eq, retouched.isDir]
  exact intact.directories id (opened.index ▸ there) below

omit [Inhabited Hash] [DecidableEq Hash] in
theorem journalAppend_fs {record : JournalRecord} {mount after : Mount Hash}
    (append : mount.journalAppend record = .ok after) : after.fs = mount.fs := by
  unfold Mount.journalAppend at append
  split at append
  · cases append
  · exact Except.ok.inj append ▸ rfl

omit [Inhabited Hash] [DecidableEq Hash] in
/-- A use more or less. -/
theorem map_path_update {mfiles : Fh -> Option Mfile} {fh : Fh} {mfile : Mfile}
    (held : mfiles fh = some mfile) (use : Nat) (other : Fh) :
    (Function.update mfiles fh (some { mfile with use := use }) other).map Mfile.path =
      (mfiles other).map Mfile.path := by
  by_cases same : other = fh
  · rw [same, Function.update_self, held]
    rfl
  · rw [Function.update_of_ne same]

omit [Inhabited Hash] [DecidableEq Hash] in
/-- An entry that has an open file gets no other one. -/
theorem fileidGet_again {file_add : Fs Hash -> Fh} {mdata : Id} {path : Option Path}
    {type : FileType} {fh : Fh} (present : (fs.entries mdata).fh ≠ 0)
    (result : fs.fileidGet file_add mdata path type = .ok (fh, next)) :
    next.entries = fs.entries ∧
      forall other, (next.mfiles other).map Mfile.path = (fs.mfiles other).map Mfile.path := by
  unfold Fs.fileidGet at result
  simp only [if_pos present] at result
  split at result
  · cases result
  · next mfile held =>
      split at result
      · cases result
      · split at result
        · cases result
        · obtain ⟨-, rfl⟩ := Prod.mk.inj (Except.ok.inj result)
          exact ⟨rfl, map_path_update held _⟩

omit [Inhabited Hash] [DecidableEq Hash] in
/-- Another one gets one of the path that it is asked for. -/
theorem fileidGet_first {file_add fh : Fh} {mdata : Id} {path : Path} {type : FileType}
    (closed : (fs.entries mdata).fh = 0)
    (result : fs.fileidGet (fun _ => file_add) mdata (some path) type = .ok (fh, next)) :
    fh = file_add ∧ (next.entries mdata).fh = fh ∧
      (forall id, id ≠ mdata -> next.entries id = fs.entries id) ∧
      Exists fun mfile => mfile.path = path ∧
        next.mfiles = Function.update fs.mfiles fh (some mfile) := by
  unfold Fs.fileidGet at result
  simp only [closed, ne_eq, not_true_eq_false, if_false] at result
  obtain ⟨mypath, told, result⟩ := bind_eq_ok.mp result
  obtain rfl := Except.ok.inj told
  obtain ⟨rfl, rfl⟩ := Prod.mk.inj (Except.ok.inj result)
  refine ⟨rfl, ?_, fun id apart => ?_, _, rfl, rfl⟩
  · rw [modify_self]
  · rw [modify_other apart]

omit [DecidableEq Hash] in
/-- `mcachefs_file_release` changes the entry of its open file at most. -/
theorem fileRelease_opened {mount after : Mount Hash} {fh : Fh} (linking : Linking mount.fs)
    (result : mount.fileRelease fh = .ok after) : Opened mount.fs after.fs ∧
      forall id, (after.fs.entries id).fh = 0 ∨
        (after.fs.entries id).fh = (mount.fs.entries id).fh ∧
          (id ∈ mount.fs.index -> (mount.fs.entries id).fh ≠ 0 ->
            (after.fs.mfiles (mount.fs.entries id).fh).map Mfile.path =
              (mount.fs.mfiles (mount.fs.entries id).fh).map Mfile.path) := by
  unfold Mount.fileRelease at result
  split at result
  · cases result
  · next mfile held =>
      split at result
      · cases result
      · split at result
        · next last =>
            obtain rfl := Except.ok.inj result
            have other : forall id, id ∈ mount.fs.index -> (mount.fs.entries id).fh ≠ 0 ->
                id ≠ mfile.metadata_id -> (mount.fs.entries id).fh ≠ fh := by
              rintro id linked some apart rfl
              obtain ⟨own, found, link⟩ := linking.paired.file id linked some
              obtain rfl := Option.some.inj (held.symm.trans found)
              exact apart link.symm
            by_cases unlinked : mfile.metadata_id = 0
            · simp only [unlinked, if_true, Mount.setFile]
              refine ⟨⟨fun _ => rfl, fun _ _ => rfl, rfl, rfl, rfl, rfl⟩, fun id => Or.inr ⟨trivial,
                fun linked some => ?_⟩⟩
              rw [Function.update_of_ne (other id linked some ?_)]
              rw [unlinked]
              exact linking.isTree.ne_zero linked
            · simp only [unlinked, if_false, Mount.setFile]
              have inside := (linking.paired.entry fh mfile held last.2 unlinked).1
              refine ⟨⟨fun id => ?_, fun id away => ?_, rfl, rfl, rfl, rfl⟩, fun id => ?_⟩
              · by_cases same : id = mfile.metadata_id
                · rw [same, modify_self]
                · rw [modify_other same]
              · have apart : id ≠ mfile.metadata_id := by
                  rintro rfl
                  exact away inside
                rw [modify_other apart]
              · by_cases same : id = mfile.metadata_id
                · left
                  rw [same, modify_self]
                · right
                  rw [modify_other same]
                  refine ⟨rfl, fun linked some => ?_⟩
                  rw [Function.update_of_ne (other id linked some same)]
                  rfl
        · obtain rfl := Except.ok.inj result
          refine ⟨⟨fun _ => rfl, fun _ _ => rfl, rfl, rfl, rfl, rfl⟩, fun id => Or.inr ⟨rfl,
            fun _ _ => map_path_update held _ _⟩⟩

section Move

variable {mdata mtarget : Id} {lname : Component} {names above : List Component}

omit [DecidableEq Hash] in
/-- Names are cut when they are stored. -/
theorem moveEntry_take : fs.moveEntry env mdata mtarget (lname.take NAME_MAX) =
    fs.moveEntry env mdata mtarget lname := by
  unfold Fs.moveEntry
  simp only [List.take_take, Nat.min_self]

theorem Intact.moves (intact : Intact env fs) (linked : mdata ∈ fs.index)
    (targetLinked : mtarget ∈ fs.index) (legal : ¬ Climbs fs.father mdata mtarget)
    (all : AllRead fs mdata) (source : Named fs mdata names) (directory : Named fs mtarget above)
    (moving : fs.moveEntry env mdata mtarget lname = .ok next) :
    Moves env fs mdata mtarget names above (lname.take NAME_MAX) next :=
  moveEntry_moves intact.isTree intact.hashes intact.filesApart linked targetLinked legal all source
    directory (List.length_take_le _ _) (intact.onlyDirectories mdata)
    (moveEntry_take.trans moving)

theorem Intact.moveEntry (intact : Intact env fs) (linked : mdata ∈ fs.index)
    (targetLinked : mtarget ∈ fs.index) (isDir : (fs.entries mtarget).st.isDir = true)
    (legal : ¬ Climbs fs.father mdata mtarget) (all : AllRead fs mdata)
    (moving : fs.moveEntry env mdata mtarget lname = .ok next) : Intact env next := by
  obtain ⟨names, source, -⟩ := intact.hashes.named intact.isTree linked
  obtain ⟨above, directory, -⟩ := intact.hashes.named intact.isTree targetLinked
  have moves := intact.moves linked targetLinked legal all source directory moving
  refine ⟨⟨moves.isTree,
    (moveEntry_isTree intact.isTree intact.noLinks linked targetLinked legal moving).2,
    moveEntry_paired intact.isTree linked targetLinked legal moving intact.paired⟩,
    moveEntry_hashes intact.isTree intact.hashes linked targetLinked legal all
      (intact.onlyDirectories mdata) moving, fun id there below => ?_⟩
  rw [moves.st]
  by_cases same : id = mdata
  · rw [same, moves.father]
    exact isDir
  · rw [(moves.others id same).1]
    exact intact.directories id ((moves.index id).mp there) below

/-- The open files of the entries that are not below the moved one. -/
def KeptOutside (mdata : Id) (fs state : Fs Hash) (id : Id) : Prop :=
  ¬ Climbs state.father mdata id -> (state.entries id).fh ≠ 0 ->
    state.mfiles (state.entries id).fh = fs.mfiles (state.entries id).fh

omit [Inhabited Hash] in
theorem turnDoes_kept (files : FilesApart fs) : TurnDoes env mdata fs (KeptOutside mdata fs) := by
  intro state cursor more after rehashed place turn
  have updates := rehashTurn_updates turn
  obtain ⟨further, -, -⟩ := rehash_rehashed env cursor.2 place.linked
  have whole := further.trans (updateFhPath_rehashed updates)
  refine ⟨fun away => absurd (whole.father ▸ place.below) away,
    fun id linked different _ kept away some => ?_⟩
  rw [whole.father] at away
  rw [whole.fh] at some ⊢
  rw [← kept away some]
  refine updateFhPath_mfiles updates ?_
  rw [further.fh]
  exact fun same =>
    different ((files.rehashed rehashed) id cursor.1 linked place.linked same some)

/-- A rename leaves the open files of the other entries alone. -/
theorem Intact.moveEntry_files (intact : Intact env fs) (linked : mdata ∈ fs.index)
    (targetLinked : mtarget ∈ fs.index) (legal : ¬ Climbs fs.father mdata mtarget)
    (all : AllRead fs mdata) (moving : fs.moveEntry env mdata mtarget lname = .ok next) :
    (forall id, (next.entries id).fh = (fs.entries id).fh) ∧
      forall id, id ∈ fs.index -> id ≠ rootId -> ¬ Climbs fs.father mdata id ->
        (fs.entries id).fh ≠ 0 ->
          next.mfiles (fs.entries id).fh = fs.mfiles (fs.entries id).fh := by
  obtain ⟨unlinked, unlinking, moving⟩ := bind_eq_ok.mp moving
  obtain ⟨middle, rehash, updating⟩ := bind_eq_ok.mp moving
  have move : Moved env fs mdata mtarget lname (unlinked.relinkEntry env mdata mtarget lname) :=
    unlinkEntry_moved intact.isTree linked targetLinked legal unlinking
  have mfiles : (unlinked.relinkEntry env mdata mtarget lname).mfiles = fs.mfiles :=
    (unlinkEntry_relinked unlinking).mfiles
  have movedLinked := (move.index mdata).mpr linked
  have movedFiles := intact.filesApart.moved move
  obtain ⟨⟨-, below⟩, kept⟩ := rehashBelow_done move.isTree movedLinked (all.moved move)
    ((intact.onlyDirectories mdata).moved intact.isTree linked legal move)
    (turnDoes_kept movedFiles) (fun id _ _ => Or.inl fun _ _ => rfl) rehash
  have last := updateFhPath_rehashed updating
  have movedFh : forall id, ((unlinked.relinkEntry env mdata mtarget lname).entries id).fh =
      (fs.entries id).fh := by
    intro id
    by_cases same : id = mdata
    · rw [same, move.fh]
    · exact (move.others id same).fh
  refine ⟨fun id => (last.fh id).trans ((below.fh id).trans (movedFh id)),
    fun id old idNotRoot away some => ?_⟩
  have there := below.mem_index.mpr ((move.index id).mpr old)
  have middleFh := (below.fh id).trans (movedFh id)
  have different : (fs.entries id).fh ≠ (middle.entries mdata).fh := by
    intro same
    have equal : (middle.entries id).fh = (middle.entries mdata).fh := middleFh.trans same
    have isMoved := (movedFiles.rehashed below) id mdata there (below.mem_index.mpr movedLinked)
      equal (by rwa [middleFh])
    exact away (isMoved ▸ .here)
  rw [updateFhPath_mfiles updating different, ← mfiles]
  have outside : ¬ Climbs middle.father mdata id := by
    rw [below.father]
    exact fun climbs => away (move.climbs.mp climbs)
  have same := kept id there idNotRoot outside (by rwa [middleFh])
  rwa [middleFh] at same

end Move

end Tree

end Lowlevel
end Mcachefs
