import Mcachefs.Metadata.ShownNames

namespace Mcachefs
namespace Metadata

open Library Journal

/-!
# Removing and moving names

The other two kinds of changes of a namespace that is shown.  A directory is removed
only when it has been read and is empty, and before a rename everything below the
entry is read, so that nothing that is unread moves to another place than the source
has it at.
-/

variable {Hash : Type} [Inhabited Hash] {env : Env Hash} {st : Stat} {strings : Path -> Prop}
  {space : Namespace Component UInt32} {fs next : Fs Hash} {father id mdata mtarget : Id}
  {names source above : List Component} {name : Component}

/-! ## Removing -/

section Removing

/-- What is left when an entry without children has been removed. -/
structure Removed (fs : Fs Hash) (id : Id) (next : Fs Hash) : Prop where
  isTree : IsTree next
  index : forall other, other ∈ next.index ↔ other ∈ fs.index ∧ other ≠ id
  placed : forall other, other ∈ next.index -> (next.entries other).Placed (fs.entries other)
  known : forall other, other ≠ id -> (fs.entries other).child ≠ .unread ->
    (next.entries other).child ≠ .unread
  still : forall other, other ≠ id -> other ≠ fs.father id ->
    (next.entries other).child = (fs.entries other).child

theorem unlinkRemove_removed (isTree : IsTree fs) (linked : id ∈ fs.index)
    (leaf : fs.first id = 0) (removed : fs.unlinkRemove env id = .ok next) : Removed fs id next := by
  obtain ⟨nextTree, shrinks, -⟩ := unlinkRemove_shrinks isTree linked leaf removed
  obtain ⟨middle, unlinked, removed⟩ := bind_eq_ok.mp removed
  have index : middle.index = fs.index := by
    rcases unlinkEntry_cases unlinked with ⟨-, rfl⟩ | ⟨-, -, previous, -, rfl⟩
    · rfl
    · rfl
  have entries : forall other, other ≠ id -> next.entries other = middle.entries other := by
    intro other apart
    rw [remove_eq removed]
    exact Function.update_of_ne apart _ _
  have nodup : fs.index.Nodup := by
    obtain ⟨kids, free, tree⟩ := isTree
    exact tree.indexed.nodup
  refine ⟨nextTree, fun other => ?_, fun other there => (shrinks other there).2,
    fun other apart known => ?_, fun other apart away => ?_⟩
  · have erased : next.index = fs.index.erase id := by
      rw [remove_eq removed, ← index]
      rfl
    rw [erased, nodup.mem_erase_iff, and_comm]
  · rw [entries other apart]
    exact (unlinkEntry_child unlinked).1 known
  · rw [entries other apart]
    exact (unlinkEntry_child unlinked).2 away

namespace Removed

variable {own : List Component} {other : Id}

theorem named (removed : Removed fs id next) (there : other ∈ next.index)
    (named : Named next other own) : Named fs other own := by
  induction named with
  | root => exact .root
  | @child other own present _ inductionHypothesis =>
      have placed := removed.placed other there
      have father : next.father other = fs.father other := placed.father
      have below : other ≠ rootId := by
        rintro rfl
        exact present ((removed.isTree.father_eq_zero there).mpr rfl)
      have higher := inductionHypothesis (removed.isTree.father there below)
      rw [placed.d_name]
      rw [father] at present higher
      exact .child present higher

theorem named_next (removed : Removed fs id next) (sound : Sound env fs)
    (there : other ∈ next.index) (named : Named fs other own) : Named next other own := by
  obtain ⟨names, nextNamed⟩ : Exists fun names => Named next other names := by
    obtain ⟨names, named, -⟩ :=
      (sound.hashes.shrinks (fun other there => ⟨((removed.index other).mp there).1,
        removed.placed other there⟩) removed.isTree).named removed.isTree there
    exact ⟨names, named⟩
  rw [named.unique sound.rootFather (removed.named there nextNamed)]
  exact nextNamed

theorem fileKind (removed : Removed fs id next) (there : other ∈ next.index) :
    fileKind (next.entries other).st = fileKind (fs.entries other).st := by
  unfold Journal.fileKind
  rw [(removed.placed other there).st_mode]

theorem isDir (removed : Removed fs id next) (there : other ∈ next.index) :
    (next.entries other).st.isDir = (fs.entries other).st.isDir := by
  unfold Stat.isDir
  rw [(removed.placed other there).st_mode]

theorem sound (removed : Removed fs id next) (sound : Sound env fs) : Sound env next := by
  have shrinks : Shrinks fs next := fun other there =>
    ⟨((removed.index other).mp there).1, removed.placed other there⟩
  refine ⟨removed.isTree, sound.hashes.shrinks shrinks removed.isTree,
    sound.noTwins.shrinks sound.isTree removed.isTree shrinks, shrinks.noLinks sound.noLinks,
    fun other there below => ?_, fun other there some => ?_⟩
  · rw [(removed.placed other there).d_name]
    exact sound.components other (shrinks other there).1 below
  · obtain ⟨childLinked, above⟩ := removed.isTree.first there some
    have placed := removed.placed _ childLinked
    have link : fs.father (next.first other) = other := placed.father.symm.trans above
    have below : next.first other ≠ rootId := by
      intro isRoot
      rw [isRoot, sound.rootFather] at link
      exact removed.isTree.ne_zero there link.symm
    rw [removed.isDir there]
    have hasName : HasName fs other (fs.entries (next.first other)).d_name :=
      sound.isTree.hasName_iff.mpr ⟨_, (shrinks _ childLinked).1, below, link, rfl⟩
    have first := sound.hasName_first (shrinks other there).1 hasName
    exact sound.directories other (shrinks other there).1 first

end Removed

/-- Without an entry that has nothing below it, its name is gone. -/
theorem Shows.removed (shown : Shows env st strings space fs) (linked : id ∈ fs.index)
    (named : Named fs id (names ++ [name])) (leaf : fs.first id = 0)
    (removed : fs.unlinkRemove env id = .ok next)
    (closed : (space.erase (names ++ [name])).Closed IsDirectory) :
    Shows env st strings (space.erase (names ++ [name])) next := by
  have removed := unlinkRemove_removed shown.sound.isTree linked leaf removed
  have sound := removed.sound shown.sound
  have old : forall {other}, other ∈ next.index -> other ∈ fs.index := fun there =>
    ((removed.index _).mp there).1
  have apart : forall {other own}, other ∈ next.index -> Named fs other own ->
      own ≠ names ++ [name] := by
    rintro other own there ownNamed rfl
    exact ((removed.index other).mp there).2
      (shown.sound.id_unique (old there) linked ownNamed named)
  have fatherRead : (fs.entries (fs.father id)).child ≠ .unread := by
    obtain ⟨-, higher, -⟩ := named.concat_inv
    have fatherLinked := shown.sound.isTree.father linked (shown.sound.below_root named)
    exact shown.read_above fatherLinked higher ⟨id, linked, named⟩ (List.cons_ne_nil _ _)
  have knownOld : forall {other}, other ∈ next.index -> (next.entries other).child ≠ .unread ->
      (fs.entries other).child ≠ .unread := by
    intro other there known
    by_cases isFather : other = fs.father id
    · exact isFather ▸ fatherRead
    · rw [← removed.still other ((removed.index other).mp there).2 isFather]
      exact known
  refine .ofUnread sound ?_ closed ?_ ?_ ?_ ?_ ?_
  · intro other own there ownNamed
    exact shown.within other own (old there) (removed.named there ownNamed)
  · intro own virtual
    by_cases same : own = names ++ [name]
    · rw [same, Namespace.erase_self]
    · rw [Namespace.erase_other same]
      exact shown.real own virtual
  · refine removed.known rootId (fun isRoot => ?_) shown.rootRead
    exact shown.sound.below_root named isRoot.symm
  · intro other own there ownNamed real
    have ownOld := removed.named there ownNamed
    rw [Namespace.erase_other (apart there ownOld), removed.fileKind there]
    exact shown.there other own (old there) ownOld real
  · intro other own there ownNamed known last present
    have ownOld := removed.named there ownNamed
    have other_path : own ++ [last] ≠ names ++ [name] := by
      intro same
      rw [same, Namespace.erase_self] at present
      exact present rfl
    rw [Namespace.erase_other other_path] at present
    obtain ⟨child, childLinked, childNamed⟩ := (shown.sound.hasName_iff (old there) ownOld).mp
      (shown.all other own (old there) ownOld (knownOld there known) last present)
    have left : child ∈ next.index := by
      refine (removed.index child).mpr ⟨childLinked, ?_⟩
      rintro rfl
      exact other_path (childNamed.unique shown.sound.rootFather named)
    exact (sound.hasName_iff there ownNamed).mpr
      ⟨child, left, removed.named_next shown.sound left childNamed⟩
  · intro other own there ownNamed unread isDir
    have ownOld := removed.named there ownNamed
    have unreadOld : (fs.entries other).child = .unread := by
      by_contra known
      exact removed.known other ((removed.index other).mp there).2 known unread
    rw [removed.isDir there] at isDir
    obtain ⟨real, same⟩ := shown.unread other own (old there) ownOld unreadOld isDir
    refine ⟨real, fun rest => ?_⟩
    rw [← same rest, Namespace.erase_other]
    intro whole
    by_cases none : rest = []
    · rw [none, List.append_nil] at whole
      exact apart there ownOld whole
    · exact shown.read_above (old there) ownOld ⟨id, linked, whole ▸ named⟩ none unreadOld

end Removing

section Calls

variable [DecidableEq Hash]

/-- What `mcachefs_metadata_rmdir_unlink` has found when it returns `0`. -/
theorem rmdirUnlink_zero {path : Path} {isDir : Bool} (noLinks : forall id found,
      fs.findLocked env path = .ok (id, found) -> id ≠ 0 -> (found.entries id).hardlink = 0)
    (result : fs.rmdirUnlink env path isDir = .ok (0, next)) :
    Exists fun id => Exists fun found => fs.findLocked env path = .ok (id, found) ∧ id ≠ 0 ∧
      Exists fun middle => middle.unlinkRemove env id = .ok next ∧
        if isDir then (found.entries id).st.isDir = true ∧ found.readChildren env id = .ok middle ∧
          (middle.entries id).child = .empty
        else middle = found ∧
          ((found.entries id).st.isReg = true ∨ (found.entries id).st.isLnk = true) := by
  obtain ⟨⟨id, found⟩, lookup, result⟩ := bind_eq_ok.mp result
  have links := noLinks id found lookup
  simp only at result
  split at result
  · cases result
  · next present =>
      refine ⟨id, found, lookup, present, ?_⟩
      cases isDir with
      | true =>
          simp only [if_true] at result ⊢
          split at result
          · cases result
          · next directory =>
              obtain ⟨middle, read, result⟩ := bind_eq_ok.mp result
              split at result
              · cases result
              · next empty =>
                  obtain ⟨last, removed, result⟩ := bind_eq_ok.mp result
                  obtain ⟨-, rfl⟩ := Prod.mk.inj (Except.ok.inj result)
                  exact ⟨middle, removed, by simpa using directory, read, not_not.mp empty⟩
      | false =>
          simp only [Bool.false_eq_true, if_false] at result ⊢
          split at result
          · cases result
          · next kind =>
              obtain ⟨middle, unlinked, result⟩ := bind_eq_ok.mp result
              obtain ⟨last, removed, result⟩ := bind_eq_ok.mp result
              obtain ⟨-, rfl⟩ := Prod.mk.inj (Except.ok.inj result)
              refine ⟨middle, removed, ?_, ?_⟩
              · split at unlinked
                · rw [Fs.unlinkList, if_pos (links present)] at unlinked
                  cases unlinked
                · exact (Except.ok.inj unlinked).symm
              · rw [not_and_or] at kind
                simpa using kind

/-- `mcachefs_metadata_rmdir_unlink` in a known directory. -/
theorem Shows.rmdirUnlink {isDir : Bool} (shown : Shows env st strings space fs)
    (quiet : QuietSource env st strings) (asks : Asks strings names name)
    (components : forall other, other ∈ names ++ [name] -> IsComponent other)
    (real : ¬ VirtualNames (names ++ [name])) (directory : KnownDirectory fs names)
    (result : fs.rmdirUnlink env (absolutePath (names ++ [name])) isDir = .ok (0, next)) :
    (if isDir then space.CanRemove IsDirectory (names ++ [name])
      else space.CanUnlink IsDirectory (names ++ [name])) ∧
      Shows env st strings (space.erase (names ++ [name])) next := by
  obtain ⟨id, found, lookup, present, middle, removed, kind⟩ := rmdirUnlink_zero
    (fun id found lookup present => by
      obtain ⟨populated, there, -⟩ := shown.findLocked quiet asks components directory lookup
      exact (shown.populated quiet populated).sound.noLinks id (there present).1) result
  obtain ⟨populated, there, -⟩ := shown.findLocked quiet asks components directory lookup
  obtain ⟨linked, named⟩ := there present
  have foundShown := shown.populated quiet populated
  cases isDir with
  | true =>
      simp only [if_true] at kind ⊢
      obtain ⟨isDirectory, read, empty⟩ := kind
      obtain ⟨further, -⟩ := readChildren_populated linked read
      have middleShown := foundShown.populated quiet further
      have stays := further.stays foundShown.sound.isTree linked
      have middleNamed := named.populated foundShown.sound.isTree linked further
      have leaf : middle.first id = 0 := by rw [Fs.first, empty]; rfl
      have known : (middle.entries id).child ≠ .unread := empty ▸ Child.empty_ne_unread
      have nothing : forall last, space ((names ++ [name]) ++ [last]) = none := by
        intro last
        by_contra some
        exact middleShown.sound.hasName_first stays.linked
          (middleShown.all id _ stays.linked middleNamed known last some) leaf
      have can : space.CanRemove IsDirectory (names ++ [name]) :=
        ⟨by simp, (middleShown.hasDirectory stays.linked middleNamed real).mpr
          (stays.alike.st ▸ isDirectory), nothing⟩
      exact ⟨can, middleShown.removed stays.linked middleNamed leaf removed
        (shown.closed.erase can.1 can.2.2)⟩
  | false =>
      simp only [Bool.false_eq_true, if_false] at kind ⊢
      obtain ⟨rfl, file⟩ := kind
      have notDir : ¬ (middle.entries id).st.isDir = true := by
        intro isDirectory
        rw [Stat.isReg_of_isDir isDirectory, Stat.isLnk_of_isDir isDirectory] at file
        simp at file
      have leaf : middle.first id = 0 := by
        by_contra some
        exact notDir (foundShown.sound.directories id linked some)
      have can : space.CanUnlink IsDirectory (names ++ [name]) :=
        ⟨_, foundShown.there id _ linked named real, fun kind => notDir (isDirectory_fileKind.mp kind)⟩
      exact ⟨can, foundShown.removed linked named leaf removed (shown.closed.unlink can)⟩

end Calls

/-! ## Moving -/

section Moving

variable {lname : Component} {own : List Component}

theorem VirtualNames.of_append {rest : List Component} (some : names ≠ [])
    (virtual : VirtualNames (names ++ rest)) : VirtualNames names := by
  cases names with
  | nil => exact absurd rfl some
  | cons name names => exact virtual

/-- What a move does to the entries: only one gets another name and another father. -/
structure Relocated (fs : Fs Hash) (mdata mtarget : Id) (name : Component) (next : Fs Hash) :
    Prop where
  isTree : IsTree next
  index : forall id, id ∈ next.index ↔ id ∈ fs.index
  st : forall id, (next.entries id).st = (fs.entries id).st
  father : next.father mdata = mtarget
  d_name : (next.entries mdata).d_name = name
  others : forall id, id ≠ mdata ->
    next.father id = fs.father id ∧ (next.entries id).d_name = (fs.entries id).d_name
  known : forall id, (fs.entries id).child ≠ .unread -> (next.entries id).child ≠ .unread
  still : forall id, id ≠ mtarget -> id ≠ fs.father mdata ->
    (next.entries id).child = (fs.entries id).child

theorem Sound.onlyDirectories (sound : Sound env fs) (id : Id) : OnlyDirectories fs id :=
  fun other linked _ some => sound.directories other linked some

variable [DecidableEq Hash]

theorem moveEntry_relocated (sound : Sound env fs) (linked : mdata ∈ fs.index)
    (targetLinked : mtarget ∈ fs.index) (legal : ¬ Climbs fs.father mdata mtarget)
    (all : AllRead fs mdata) (short : lname.length ≤ NAME_MAX)
    (moving : fs.moveEntry env mdata mtarget lname = .ok next) :
    Relocated fs mdata mtarget lname next := by
  have isTree := moveEntry_tree sound.isTree linked targetLinked legal moving
  obtain ⟨father, d_name, others⟩ := moveEntry_place sound.isTree linked targetLinked legal moving
  obtain ⟨moved, move, middle, rehash, updating⟩ :=
    moveEntry_cases sound.isTree linked targetLinked legal moving
  have notRoot := move.notRoot sound.isTree linked targetLinked
  have rehashed : Rehashed moved next := by
    have movedTree := move.isTree
    obtain ⟨kids, free, tree⟩ := movedTree
    have only := (sound.onlyDirectories mdata).moved sound.isTree linked legal move
    obtain ⟨-, -, stale⟩ := move.hashed sound.isTree sound.hashes legal notRoot
    obtain ⟨⟨-, first⟩, -⟩ := rehashBelow_done move.isTree ((move.index mdata).mpr linked)
      (all.moved move) only (turnDoes_hashed tree) stale rehash
    exact first.trans (updateFhPath_rehashed updating)
  have outside : forall id, id ∉ fs.index -> next.father id = fs.father id ∧
      (next.entries id).d_name = (fs.entries id).d_name := by
    intro id notLinked
    have apart : id ≠ mdata := fun same => notLinked (same ▸ linked)
    have entry := rehashed.unlinked id fun there => notLinked ((move.index id).mp there)
    have alike := move.others id apart
    exact ⟨(congrArg Entry.father entry).trans alike.father,
      (congrArg Entry.d_name entry).trans alike.d_name⟩
  refine ⟨isTree, fun id => rehashed.mem_index.trans (move.index id), fun id => ?_, father, ?_,
    fun id apart => ?_, fun id known => ?_, fun id notTarget notFather => ?_⟩
  · rw [rehashed.st]
    by_cases same : id = mdata
    · rw [same, move.st]
    · exact (move.others id same).st
  · rw [d_name, List.take_of_length_le short]
  · by_cases inside : id ∈ fs.index
    · exact others id inside apart
    · exact outside id inside
  · rw [rehashed.child]
    exact move.known id known
  · rw [rehashed.child]
    exact move.still id notTarget notFather

/-- Where the entries are after a move. -/
structure Relocates (fs : Fs Hash) (mdata : Id) (source target : List Component) (next : Fs Hash) :
    Prop where
  inside : forall id, id ∈ fs.index -> Climbs fs.father mdata id -> Exists fun rest =>
    Named fs id (source ++ rest) ∧ Named next id (target ++ rest)
  outside : forall id names, ¬ Climbs fs.father mdata id -> Named fs id names -> Named next id names

omit [DecidableEq Hash] in
theorem Relocated.relocates (relocated : Relocated fs mdata mtarget name next) (sound : Sound env fs)
    (targetLinked : mtarget ∈ fs.index) (legal : ¬ Climbs fs.father mdata mtarget)
    (named : Named fs mdata source) (targetNamed : Named fs mtarget above) :
    Relocates fs mdata source (above ++ [name]) next := by
  have outside : forall id names, ¬ Climbs fs.father mdata id -> Named fs id names ->
      Named next id names := fun id names away named => named.outside relocated.others away
  refine ⟨fun id linked climbs => ?_, outside⟩
  have there : Named next mdata (above ++ [name]) := by
    rw [← relocated.d_name]
    refine .child ?_ ?_
    · rw [relocated.father]
      exact sound.isTree.ne_zero targetLinked
    · rw [relocated.father]
      exact outside mtarget above legal targetNamed
  exact Named.inside relocated.others climbs named there

omit [DecidableEq Hash] in
/-- The entries have no other places than these. -/
theorem Relocates.named (relocates : Relocates fs mdata source (above ++ [name]) next)
    (sound : Sound env fs) (nextTree : IsTree next) (linked : id ∈ fs.index)
    (named : Named next id own) :
    (Climbs fs.father mdata id ∧ Exists fun rest => own = above ++ [name] ++ rest ∧
        Named fs id (source ++ rest)) ∨
      ¬ Climbs fs.father mdata id ∧ Named fs id own := by
  have rootFather : next.father rootId = 0 := (nextTree.father_eq_zero nextTree.root).mpr rfl
  by_cases climbs : Climbs fs.father mdata id
  · obtain ⟨rest, before, after⟩ := relocates.inside id linked climbs
    exact Or.inl ⟨climbs, rest, named.unique rootFather after, before⟩
  · obtain ⟨names, before, -⟩ := sound.named linked
    rw [named.unique rootFather (relocates.outside id names climbs before)]
    exact Or.inr ⟨climbs, before⟩

/-- Moving an entry whose subtree has been read to a free name in a directory that has been
read moves its names. -/
theorem Shows.moved (shown : Shows env st strings space fs) (quiet : QuietSource env st strings)
    (linked : mdata ∈ fs.index) (named : Named fs mdata source) (below : source ≠ [])
    (targetLinked : mtarget ∈ fs.index) (targetNamed : Named fs mtarget above)
    (isDir : (fs.entries mtarget).st.isDir = true)
    (targetRead : (fs.entries mtarget).child ≠ .unread) (absent : ¬ Known fs (above ++ [name]))
    (apart : ¬ source <+: above ++ [name]) (real : ¬ VirtualNames source)
    (targetReal : ¬ VirtualNames (above ++ [name])) (component : IsComponent name)
    (short : name.length ≤ NAME_MAX) (all : AllRead fs mdata)
    (string : forall rest, Known fs (source ++ rest) ->
      strings (absolutePath (above ++ [name] ++ rest)))
    (moving : fs.moveEntry env mdata mtarget name = .ok next) :
    space.CanMove IsDirectory source (above ++ [name]) ∧
      Shows env st strings (space.move source (above ++ [name])) next := by
  have sound := shown.sound
  have legal : ¬ Climbs fs.father mdata mtarget := by
    rw [sound.climbs_iff targetLinked linked targetNamed named]
    exact fun within => apart (within.trans (List.prefix_append _ _))
  have relocated := moveEntry_relocated sound linked targetLinked legal all short moving
  have relocates := relocated.relocates sound targetLinked legal named targetNamed
  have aboveReal : ¬ VirtualNames above := fun virtual => targetReal virtual.append
  have missing := shown.vacant targetLinked targetNamed targetRead absent
  have can : space.CanMove IsDirectory source (above ++ [name]) := by
    refine ⟨below, ?_, ⟨missing, above, name, rfl,
      (shown.hasDirectory targetLinked targetNamed aboveReal).mpr isDir⟩, apart⟩
    rw [shown.there mdata source linked named real]
    exact Option.some_ne_none _
  have old : forall {id}, id ∈ next.index -> id ∈ fs.index := fun there =>
    (relocated.index _).mp there
  have places : forall {id own}, id ∈ next.index -> Named next id own ->
      (Climbs fs.father mdata id ∧ Exists fun rest => own = above ++ [name] ++ rest ∧
        Named fs id (source ++ rest)) ∨ ¬ Climbs fs.father mdata id ∧ Named fs id own :=
    fun there ownNamed => relocates.named sound relocated.isTree (old there) ownNamed
  -- Names outside the subtree are neither below the old place nor below the new one.
  have away : forall {id own}, id ∈ fs.index -> ¬ Climbs fs.father mdata id -> Named fs id own ->
      ¬ source <+: own ∧ ¬ above ++ [name] <+: own := by
    intro id own idLinked outside ownNamed
    refine ⟨?_, ?_⟩
    · rwa [← sound.climbs_iff idLinked linked ownNamed named]
    · rintro ⟨rest, rfl⟩
      exact absent (sound.known_above ⟨id, idLinked, ownNamed⟩)
  have fatherRead : (fs.entries (fs.father mdata)).child ≠ .unread := by
    rcases List.eq_nil_or_concat source with none | ⟨front, last, isConcat⟩
    · exact absurd none below
    · rw [List.concat_eq_append] at isConcat
      subst isConcat
      obtain ⟨-, higher, -⟩ := named.concat_inv
      have fatherLinked := sound.isTree.father linked (sound.below_root named)
      exact shown.read_above fatherLinked higher ⟨mdata, linked, named⟩ (List.cons_ne_nil _ _)
  have knownOld : forall {id}, (next.entries id).child ≠ .unread ->
      (fs.entries id).child ≠ .unread := by
    intro id known
    by_cases isTarget : id = mtarget
    · exact isTarget ▸ targetRead
    · by_cases isFather : id = fs.father mdata
      · exact isFather ▸ fatherRead
      · rw [← relocated.still id isTarget isFather]
        exact known
  have newSound : Sound env next := by
    refine ⟨relocated.isTree, moveEntry_hashes sound.isTree sound.hashes linked targetLinked legal all
      (sound.onlyDirectories mdata) moving, ?_, (moveEntry_isTree sound.isTree sound.noLinks linked
      targetLinked legal moving).2, fun id there notRoot => ?_, fun id there some => ?_⟩
    · refine sound.noTwins.moveEntry sound.isTree quiet.steady.lists linked targetLinked legal ?_ moving
      intro other otherLinked otherBelow isTarget spelled
      rw [List.take_of_length_le short] at spelled
      refine absurd ⟨other, otherLinked, ?_⟩ absent
      rw [← spelled]
      exact .child (isTarget.symm ▸ sound.isTree.ne_zero targetLinked) (isTarget.symm ▸ targetNamed)
    · by_cases same : id = mdata
      · rw [same, relocated.d_name]
        exact component
      · rw [(relocated.others id same).2]
        exact sound.components id (old there) notRoot
    · rw [relocated.st]
      obtain ⟨childLinked, link⟩ := relocated.isTree.first there some
      by_cases same : next.first id = mdata
      · rw [same, relocated.father] at link
        exact link ▸ isDir
      · rw [(relocated.others _ same).1] at link
        have childBelow : next.first id ≠ rootId := by
          intro isRoot
          rw [isRoot, sound.rootFather] at link
          exact relocated.isTree.ne_zero there link.symm
        have hasName : HasName fs id (fs.entries (next.first id)).d_name :=
          sound.isTree.hasName_iff.mpr ⟨_, old childLinked, childBelow, link, rfl⟩
        exact sound.directories id (old there) (sound.hasName_first (old there) hasName)
  have newHere : Named next mdata (above ++ [name]) := by
    obtain ⟨rest, before, after⟩ := relocates.inside mdata linked .here
    have none : rest = [] := by
      have whole := before.unique sound.rootFather named
      exact List.append_right_eq_self.mp whole
    rw [none, List.append_nil] at after
    exact after
  refine ⟨can, .ofUnread newSound ?_ (shown.closed.move can) ?_ (relocated.known _ shown.rootRead) ?_ ?_ ?_⟩
  · intro id own there ownNamed
    rcases places there ownNamed with ⟨-, rest, rfl, before⟩ | ⟨-, before⟩
    · exact string rest ⟨id, old there, before⟩
    · exact shown.within id own (old there) before
  · intro own virtual
    have outside : ¬ above ++ [name] <+: own := by
      rintro ⟨rest, rfl⟩
      exact targetReal (virtual.of_append (by simp))
    by_cases left : source <+: own
    · exact Namespace.move_left outside left
    · rw [Namespace.move_outside outside left]
      exact shown.real own virtual
  · intro id own there ownNamed ownReal
    rw [relocated.st]
    rcases places there ownNamed with ⟨-, rest, rfl, before⟩ | ⟨outside, before⟩
    · rw [Namespace.move_inside]
      exact shown.there id _ (old there) before fun virtual => real (virtual.of_append below)
    · obtain ⟨notSource, notTarget⟩ := away (old there) outside before
      rw [Namespace.move_outside notTarget notSource]
      exact shown.there id own (old there) before ownReal
  · intro other own there ownNamed known last present
    rw [newSound.hasName_iff there ownNamed]
    have child : forall {path}, Named fs other path -> space (path ++ [last]) ≠ none ->
        Known fs (path ++ [last]) := fun before some =>
      (shown.sound.hasName_iff (old there) before).mp
        (shown.all other _ (old there) before (knownOld known) last some)
    rcases places there ownNamed with ⟨climbs, rest, rfl, before⟩ | ⟨outside, before⟩
    · rw [List.append_assoc, Namespace.move_inside, ← List.append_assoc] at present
      obtain ⟨id, idLinked, idNamed⟩ := child before present
      have inside : Climbs fs.father mdata id := by
        rw [sound.climbs_iff idLinked linked idNamed named, List.append_assoc]
        exact List.prefix_append _ _
      obtain ⟨more, earlier, later⟩ := relocates.inside id idLinked inside
      have same := earlier.unique sound.rootFather idNamed
      rw [List.append_assoc] at same
      rw [List.append_cancel_left same, ← List.append_assoc] at later
      exact ⟨id, (relocated.index id).mpr idLinked, later⟩
    · obtain ⟨notSource, notTarget⟩ := away (old there) outside before
      by_cases isTarget : above ++ [name] <+: own ++ [last]
      · rcases List.prefix_concat_iff.mp isTarget with same | within
        · rw [← same]
          exact ⟨mdata, (relocated.index mdata).mpr linked, newHere⟩
        · exact absurd within notTarget
      · by_cases isSource : source <+: own ++ [last]
        · exact absurd (Namespace.move_left isTarget isSource) present
        · rw [Namespace.move_outside isTarget isSource] at present
          obtain ⟨id, idLinked, idNamed⟩ := child before present
          have notInside : ¬ Climbs fs.father mdata id := by
            rwa [sound.climbs_iff idLinked linked idNamed named]
          exact ⟨id, (relocated.index id).mpr idLinked,
            relocates.outside id _ notInside idNamed⟩
  · intro id own there ownNamed unread directory
    rw [relocated.st] at directory
    have unreadOld : (fs.entries id).child = .unread := by
      by_contra known
      exact relocated.known id known unread
    rcases places there ownNamed with ⟨climbs, -, -, -⟩ | ⟨outside, before⟩
    · exact absurd unreadOld (all id (old there) climbs directory)
    · obtain ⟨ownReal, same⟩ := shown.unread id own (old there) before unreadOld directory
      obtain ⟨notSource, notTarget⟩ := away (old there) outside before
      refine ⟨ownReal, fun rest => ?_⟩
      -- Both places are below directories that have been read.
      have noSource : ¬ source <+: own ++ rest := by
        intro within
        rcases List.prefix_or_prefix_of_prefix within (List.prefix_append own rest) with
          shorter | ⟨more, longer⟩
        · exact notSource shorter
        · by_cases none : more = []
          · rw [none, List.append_nil] at longer
            exact notSource (longer ▸ List.prefix_refl _)
          · exact shown.read_above (old there) before ⟨mdata, linked, longer ▸ named⟩ none unreadOld
      have noTarget : ¬ above ++ [name] <+: own ++ rest := by
        intro within
        rcases List.prefix_or_prefix_of_prefix within (List.prefix_append own rest) with
          shorter | longer
        · exact notTarget shorter
        · rcases List.prefix_concat_iff.mp longer with isPath | ⟨more, higher⟩
          · exact notTarget (isPath ▸ List.prefix_refl _)
          · by_cases none : more = []
            · rw [none, List.append_nil] at higher
              have isTarget := sound.id_unique (old there) targetLinked before (higher ▸ targetNamed)
              exact targetRead (isTarget ▸ unreadOld)
            · exact shown.read_above (old there) before ⟨mtarget, targetLinked, higher ▸ targetNamed⟩
                none unreadOld
      rw [Namespace.move_outside noTarget noSource]
      exact same rest

/-- However far the tree is read, what is below the source of a move may be hashed below its
target. -/
def StringsMove (env : Env Hash) (strings : Path -> Prop) (fs : Fs Hash)
    (source target : List Component) : Prop :=
  forall middle rest, Populated env fs middle -> Known middle (source ++ rest) ->
    strings (absolutePath (target ++ rest))

omit [DecidableEq Hash] in
/-- A file has nothing below it. -/
theorem Shows.stringsMove_file (shown : Shows env st strings space fs)
    (quiet : QuietSource env st strings) (linked : id ∈ fs.index) (named : Named fs id source)
    (file : ¬ (fs.entries id).st.isDir = true) {target : List Component}
    (string : strings (absolutePath target)) : StringsMove env strings fs source target := by
  intro middle rest populated known
  by_cases none : rest = []
  · rw [none, List.append_nil]
    exact string
  · have stays := populated.stays shown.sound.isTree linked
    have later := (shown.populated quiet populated).sound
    have some := later.first_above stays.linked
      (named.populated shown.sound.isTree linked populated) known none
    exact absurd (stays.alike.st ▸ later.directories id stays.linked some) file

/-- `mcachefs_metadata_rename_entry` between known directories, to no place below the entry. -/
theorem Shows.renameEntry {front : List Component} {last : Component}
    (shown : Shows env st strings space fs) (quiet : QuietSource env st strings)
    (asks : Asks strings front last) (targetAsks : Asks strings above name)
    (components : forall other, other ∈ front ++ [last] -> IsComponent other)
    (targetComponents : forall other, other ∈ above ++ [name] -> IsComponent other)
    (short : name.length ≤ NAME_MAX) (real : ¬ VirtualNames (front ++ [last]))
    (targetReal : ¬ VirtualNames (above ++ [name])) (directory : KnownDirectory fs front)
    (targetDirectory : KnownDirectory fs above) (apart : ¬ front ++ [last] <+: above ++ [name])
    (string : StringsMove env strings fs (front ++ [last]) (above ++ [name]))
    (result : fs.renameEntry env (absolutePath (front ++ [last])) (absolutePath (above ++ [name])) =
      .ok (0, next)) :
    space.CanMove IsDirectory (front ++ [last]) (above ++ [name]) ∧
      Shows env st strings (space.move (front ++ [last]) (above ++ [name])) next := by
  have isTree := shown.sound.isTree
  rcases renameEntry_cases isTree result with ⟨nonzero, -⟩ | ⟨mdata, mtarget, lname, middle, finds,
    moving⟩
  · exact absurd rfl nonzero
  · obtain ⟨whole, linked, targetLinked⟩ := finds.populated isTree
    have readAll := finds.allRead isTree fun id found lookup present => by
      obtain ⟨populated, -⟩ := shown.findLocked quiet asks components directory lookup
      exact (shown.populated quiet populated).sound.onlyDirectories id
    obtain ⟨found, fetched, between, targetpath, lookup, present, fetch, absent, split, higher, -⟩ :=
      finds
    obtain ⟨first, there, -⟩ := shown.findLocked quiet asks components directory lookup
    obtain ⟨foundLinked, foundNamed⟩ := there present
    have foundShown := shown.populated quiet first
    have second : Populated env found fetched := by
      split at fetch
      · exact fetchChildren_populated foundShown.sound.isTree foundLinked fetch
      · obtain rfl := Except.ok.inj fetch
        exact .refl
    have fetchedShown := foundShown.populated quiet second
    have toFetched := first.trans second
    obtain ⟨third, -, nothing⟩ := fetchedShown.findLocked quiet targetAsks targetComponents
      (targetDirectory.populated isTree toFetched) absent
    obtain ⟨unknown, father, fatherLinked, fatherNamed, isDir, known⟩ := nothing rfl
    have betweenShown := fetchedShown.populated quiet third
    have component := targetComponents name (by simp)
    rw [splitPath_absolutePath component.noSlash] at split
    obtain ⟨rfl, rfl⟩ := Prod.mk.inj (Except.ok.inj split)
    obtain ⟨rfl, otherLinked, otherNamed⟩ := betweenShown.sound.findLocked_known quiet.apart
      betweenShown.within targetAsks.above
      (fun other member => targetComponents other (List.mem_append_left _ member))
      ⟨father, fatherLinked, fatherNamed⟩ higher
    obtain rfl := betweenShown.sound.id_unique fatherLinked otherLinked fatherNamed otherNamed
    have named : Named middle mdata (front ++ [last]) :=
      foundNamed.populated foundShown.sound.isTree foundLinked (second.trans third)
    exact betweenShown.moved quiet linked named (by simp) fatherLinked fatherNamed isDir known unknown
      apart real targetReal component short readAll.1
      (fun rest there => string middle rest whole there) moving

/-- A rename that fails has only read directories. -/
theorem renameEntry_refused {path target : Path} {code : Int} (isTree : IsTree fs)
    (result : fs.renameEntry env path target = .ok (code, next)) (failed : code ≠ 0) :
    Populated env fs next := by
  rcases renameEntry_cases isTree result with ⟨-, populated⟩ |
    ⟨mdata, mtarget, lname, middle, finds, moving⟩
  · exact populated
  · obtain ⟨whole, -⟩ := finds.populated isTree
    obtain ⟨found, fetched, between, targetpath, lookup, present, fetch, absent, split, above, some⟩ :=
      finds
    obtain ⟨both, again, result⟩ := bind_eq_ok.mp result
    obtain rfl := Except.ok.inj (lookup.symm.trans again)
    simp only [if_neg present] at result
    obtain ⟨state, again, result⟩ := bind_eq_ok.mp result
    obtain rfl := Except.ok.inj (fetch.symm.trans again)
    obtain ⟨both, again, result⟩ := bind_eq_ok.mp result
    obtain rfl := Except.ok.inj (absent.symm.trans again)
    simp only [ne_eq, not_true_eq_false, if_false] at result
    obtain ⟨both, again, result⟩ := bind_eq_ok.mp result
    obtain rfl := Except.ok.inj (split.symm.trans again)
    obtain ⟨both, again, result⟩ := bind_eq_ok.mp result
    obtain rfl := Except.ok.inj (above.symm.trans again)
    simp only [if_neg some] at result
    split at result
    · obtain ⟨-, rfl⟩ := Prod.mk.inj (Except.ok.inj result)
      exact whole
    · obtain ⟨last, -, result⟩ := bind_eq_ok.mp result
      exact absurd (Prod.mk.inj (Except.ok.inj result)).1.symm failed

end Moving

end Metadata
end Mcachefs
