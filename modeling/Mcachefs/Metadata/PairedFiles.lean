import Mcachefs.Metadata.Fill

namespace Mcachefs
namespace Metadata

open Library Transfer

/-!
# Entries and their open files

An entry has the handle of its open file in `fh`, and the open file has the id of
the entry in `metadata_id`.  `Paired` says that the two agree, and is what the
calls that change the tree keep: a new entry has no open file, an entry that goes
takes itself out of its open file, and a rename only changes the path in it.
-/

variable {Hash : Type}

/-- The entry of an open file has it for its open file, and the other way round.
A virtual file stays behind when the metadata is flushed, and is not used again. -/
structure Paired (fs : Fs Hash) : Prop where
  noFile : fs.mfiles 0 = none
  file : forall id, id ∈ fs.index -> (fs.entries id).fh ≠ 0 ->
    Exists fun mfile => fs.mfiles (fs.entries id).fh = some mfile ∧ mfile.metadata_id = id
  entry : forall fh mfile, fs.mfiles fh = some mfile -> mfile.type ≠ .vops ->
    mfile.metadata_id ≠ 0 ->
      mfile.metadata_id ∈ fs.index ∧ (fs.entries mfile.metadata_id).fh = fh

/-- What an open file says about its entry. -/
def filed (mfile : Mfile) : Id × FileType :=
  (mfile.metadata_id, mfile.type)

/-- Nothing that an open file says about its entry has changed. -/
def SameFiles (fs next : Fs Hash) : Prop :=
  forall fh, (next.mfiles fh).map filed = (fs.mfiles fh).map filed

theorem SameFiles.refl (fs : Fs Hash) : SameFiles fs fs :=
  fun _ => rfl

theorem SameFiles.trans {fs middle next : Fs Hash} (one : SameFiles fs middle)
    (two : SameFiles middle next) : SameFiles fs next :=
  fun fh => (two fh).trans (one fh)

/-- An open file is changed elsewhere. -/
theorem SameFiles.set {fs next : Fs Hash} {fh : Fh} {old new : Mfile}
    (opened : fs.mfiles fh = some old) (same : filed new = filed old)
    (mfiles : next.mfiles = Function.update fs.mfiles fh (some new)) : SameFiles fs next := by
  intro other
  rw [mfiles]
  by_cases here : other = fh
  · rw [here, Function.update_self, opened, Option.map_some, Option.map_some, same]
  · rw [Function.update_of_ne here]

namespace Paired

variable {fs next : Fs Hash}

/-- The pairing, for an entry of the tree and an open file that is not virtual. -/
theorem eq_iff (paired : Paired fs) {id : Id} (linked : id ∈ fs.index) (some : id ≠ 0) {fh : Fh}
    {mfile : Mfile} (opened : fs.mfiles fh = Option.some mfile) (type : mfile.type ≠ .vops) :
    mfile.metadata_id = id ↔ (fs.entries id).fh = fh := by
  constructor
  · rintro rfl
    exact (paired.entry fh mfile opened type some).2
  · rintro rfl
    have present : (fs.entries id).fh ≠ 0 := by
      intro none
      rw [none, paired.noFile] at opened
      cases opened
    obtain ⟨other, same, link⟩ := paired.file id linked present
    obtain rfl := Option.some.inj (opened.symm.trans same)
    exact link

/-- Changes elsewhere. -/
theorem transfer (paired : Paired fs) (index : forall id, id ∈ next.index ↔ id ∈ fs.index)
    (fhs : forall id, id ∈ fs.index -> (next.entries id).fh = (fs.entries id).fh)
    (files : SameFiles fs next) : Paired next := by
  refine ⟨?_, fun id linked present => ?_, fun fh mfile opened type some => ?_⟩
  · have same := files 0
    rw [paired.noFile] at same
    exact Option.map_eq_none_iff.mp same
  · have old := (index id).mp linked
    rw [fhs id old] at present ⊢
    obtain ⟨mfile, opened, link⟩ := paired.file id old present
    have same := files (fs.entries id).fh
    rw [opened] at same
    obtain ⟨other, found, alike⟩ := Option.map_eq_some_iff.mp same
    exact ⟨other, found, (congrArg Prod.fst alike).trans link⟩
  · have same := files fh
    rw [opened] at same
    obtain ⟨other, found, alike⟩ := Option.map_eq_some_iff.mp same.symm
    have ids : other.metadata_id = mfile.metadata_id := congrArg Prod.fst alike
    have types : other.type = mfile.type := congrArg Prod.snd alike
    obtain ⟨linked, link⟩ := paired.entry fh other found (types ▸ type) (ids ▸ some)
    rw [ids] at linked link
    exact ⟨(index _).mpr linked, (fhs _ linked).trans link⟩

/-- New entries have no open files. -/
theorem grow (paired : Paired fs) (mfiles : next.mfiles = fs.mfiles)
    (old : forall id, id ∈ fs.index -> id ∈ next.index ∧ (next.entries id).fh = (fs.entries id).fh)
    (new : forall id, id ∈ next.index -> id ∈ fs.index ∨ (next.entries id).fh = 0) :
    Paired next := by
  refine ⟨mfiles ▸ paired.noFile, fun id linked present => ?_, fun fh mfile opened type some => ?_⟩
  · have before := (new id linked).resolve_right present
    rw [(old id before).2] at present ⊢
    rw [mfiles]
    exact paired.file id before present
  · rw [mfiles] at opened
    obtain ⟨linked, link⟩ := paired.entry fh mfile opened type some
    exact ⟨(old _ linked).1, (old _ linked).2.trans link⟩

theorem ne_zero (paired : Paired fs) {fh : Fh} {mfile : Mfile}
    (opened : fs.mfiles fh = some mfile) : fh ≠ 0 := by
  rintro rfl
  rw [paired.noFile] at opened
  cases opened

/-- An entry gets an open file. -/
theorem connect (paired : Paired fs) {id : Id} {fh : Fh} {mfile : Mfile} (linked : id ∈ fs.index)
    (closed : (fs.entries id).fh = 0) (fresh : fs.mfiles fh = none) (some : fh ≠ 0)
    (link : mfile.metadata_id = id) (index : next.index = fs.index)
    (mfiles : next.mfiles = Function.update fs.mfiles fh (Option.some mfile))
    (here : (next.entries id).fh = fh)
    (others : forall other, other ≠ id -> (next.entries other).fh = (fs.entries other).fh) :
    Paired next := by
  refine ⟨?_, fun other inside present => ?_, fun other file held type present => ?_⟩
  · rw [mfiles, Function.update_of_ne some.symm]
    exact paired.noFile
  · by_cases same : other = id
    · rw [same, here, mfiles, Function.update_self]
      exact ⟨mfile, rfl, link⟩
    · rw [others other same] at present ⊢
      obtain ⟨file, held, own⟩ := paired.file other (index ▸ inside) present
      refine ⟨file, ?_, own⟩
      rw [mfiles, Function.update_of_ne, held]
      intro equal
      rw [equal, fresh] at held
      cases held
  · rw [mfiles] at held
    by_cases same : other = fh
    · rw [same, Function.update_self] at held
      rw [← Option.some.inj held, link, index, here]
      exact ⟨linked, same.symm⟩
    · rw [Function.update_of_ne same] at held
      obtain ⟨inside, own⟩ := paired.entry other file held type present
      have different : file.metadata_id ≠ id := fun equal => by
        rw [equal, closed] at own
        exact paired.ne_zero held own.symm
      rw [index, others _ different]
      exact ⟨inside, own⟩

/-- An open file goes, and its entry has none. -/
theorem disconnect (paired : Paired fs) {fh : Fh} {mfile : Mfile}
    (opened : fs.mfiles fh = some mfile) (notVops : mfile.type ≠ .vops)
    (index : next.index = fs.index) (mfiles : next.mfiles = Function.update fs.mfiles fh none)
    (here : (next.entries mfile.metadata_id).fh = 0 ∨ mfile.metadata_id = 0)
    (others : forall id, id ≠ mfile.metadata_id -> (next.entries id).fh = (fs.entries id).fh)
    (isTree : forall id, id ∈ fs.index -> id ≠ 0) : Paired next := by
  refine ⟨?_, fun id inside present => ?_, fun other file held type present => ?_⟩
  · rw [mfiles, Function.update_of_ne (paired.ne_zero opened).symm]
    exact paired.noFile
  · rw [index] at inside
    have different : id ≠ mfile.metadata_id := by
      rintro rfl
      exact here.elim present (isTree _ inside)
    rw [others id different] at present ⊢
    obtain ⟨file, held, own⟩ := paired.file id inside present
    refine ⟨file, ?_, own⟩
    rw [mfiles, Function.update_of_ne, held]
    intro equal
    rw [equal, opened] at held
    exact different (own.symm.trans (congrArg Mfile.metadata_id (Option.some.inj held).symm))
  · rw [mfiles] at held
    by_cases same : other = fh
    · rw [same, Function.update_self] at held
      cases held
    · rw [Function.update_of_ne same] at held
      obtain ⟨inside, own⟩ := paired.entry other file held type present
      have different : file.metadata_id ≠ mfile.metadata_id := fun equal => by
        obtain ⟨-, mine⟩ := paired.entry fh mfile opened notVops (equal ▸ present)
        exact same (own.symm.trans ((congrArg (Entry.fh ∘ fs.entries) equal).trans mine))
      rw [index, others _ different]
      exact ⟨inside, own⟩

end Paired

/-! ## Entries that come -/

section Calls

variable [Inhabited Hash] {env : Env Hash} {fs middle next : Fs Hash}

theorem Added.paired {kids : Id -> List Id} {free rest : List Id} {father id : Id}
    {name : Component} {st : Stat} {child : Child} (tree : Tree fs kids free)
    (added : Added env fs kids free father id name st child next rest) (paired : Paired fs) :
    Paired next := by
  refine paired.grow added.mfiles (fun other linked => ?_) fun other linked => ?_
  · have old := tree.mem_index.mp linked
    refine ⟨added.tree.mem_index.mpr ((added.nodes other).mpr (Or.inl old)), ?_⟩
    by_cases same : other = father
    · subst same
      rw [added.above]
    · rw [added.kept other old same]
  · rcases (added.nodes other).mp (added.tree.mem_index.mp linked) with old | rfl
    · exact Or.inl (tree.mem_index.mpr old)
    · exact Or.inr (by rw [added.entry])

variable [DecidableEq Hash]

omit [DecidableEq Hash] in
theorem getChild_paired {father child : Id} (isTree : IsTree fs) (linked : father ∈ fs.index)
    (read : fs.getChild env father = .ok (child, next)) (paired : Paired fs) : Paired next := by
  obtain ⟨kids, free, tree⟩ := isTree
  obtain ⟨-, same | ⟨-, -, -, _, _, _, -, -, rest, new, grown⟩⟩ :=
    tree.getChild (tree.mem_index.mp linked) read
  · rw [same]
    exact paired.transfer (fun _ => Iff.rfl) (fun _ _ => rfl) (.refl _)
  · refine paired.grow grown.mfiles (fun other old => ?_) fun other found => ?_
    · have isNode := tree.mem_index.mp old
      exact ⟨grown.tree.mem_index.mpr ((grown.nodes other).mpr (Or.inl isNode)),
        (grown.alike isNode).fh⟩
    · rcases (grown.nodes other).mp (grown.tree.mem_index.mp found) with old | fresh
      · exact Or.inl (tree.mem_index.mpr old)
      · obtain ⟨link, entry⟩ := grown.entries other fresh
        exact Or.inr (by rw [entry])

omit [DecidableEq Hash] in
theorem Populated.paired (populated : Populated env fs next) (isTree : IsTree fs)
    (paired : Paired fs) : Paired next := by
  have preserved : forall (fs next : Fs Hash) (father child : Id), IsTree fs ∧ Paired fs ->
      father ∈ fs.index -> fs.getChild env father = .ok (child, next) ->
      IsTree next ∧ Paired next := fun _ _ _ _ holds linked read =>
    ⟨getChild_isTree holds.1 linked read, getChild_paired holds.1 linked read holds.2⟩
  exact (populated.keeps preserved ⟨isTree, paired⟩).2

/-! ## Entries that go -/

omit [DecidableEq Hash] in
/-- The open files are as before, but for that of the entry. -/
theorem discard_files {id : Id} (removed : (fs.removeHash id).remove id = .ok next) :
    (forall fh, fh ≠ (fs.entries id).fh ∨ fh = 0 -> next.mfiles fh = fs.mfiles fh) ∧
      forall mfile, (fs.entries id).fh ≠ 0 -> next.mfiles (fs.entries id).fh = some mfile ->
        mfile.metadata_id = 0 := by
  obtain ⟨changed, change, last⟩ := bind_eq_ok.mp removed
  have mfiles : next.mfiles = changed.mfiles := by
    rw [← Except.ok.inj last]
    rfl
  rw [mfiles]
  unfold Fs.modifyFile at change
  simp only at change
  split at change
  · next none =>
      obtain rfl := Except.ok.inj change
      exact ⟨fun _ _ => rfl, fun _ present => absurd none present⟩
  · next some =>
      split at change
      · cases change
      · obtain rfl := Except.ok.inj change
        refine ⟨fun fh other => Function.update_of_ne ?_ _ _, fun mfile _ opened => ?_⟩
        · rintro rfl
          exact other.elim (absurd rfl) some
        · change Function.update fs.mfiles (fs.entries id).fh _ (fs.entries id).fh = _ at opened
          rw [Function.update_self] at opened
          rw [← Option.some.inj opened]

omit [DecidableEq Hash] in
/-- An entry that goes is taken out of its open file. -/
theorem discard_paired {id : Id} (nodup : fs.index.Nodup) (linked : id ∈ fs.index)
    (removed : (fs.removeHash id).remove id = .ok next) (paired : Paired fs) : Paired next := by
  have index : forall other, other ∈ next.index ↔ other ∈ fs.index ∧ other ≠ id := by
    intro other
    have erased : next.index = fs.index.erase id := by
      rw [remove_eq removed]
      rfl
    rw [erased, nodup.mem_erase_iff, and_comm]
  have entries : forall other, other ≠ id -> next.entries other = fs.entries other := by
    intro other different
    rw [remove_eq removed]
    exact Function.update_of_ne different _ _
  obtain ⟨kept, cleared⟩ := discard_files removed
  refine ⟨(kept 0 (Or.inr rfl)).trans paired.noFile, fun other inside present => ?_,
    fun fh mfile opened type some => ?_⟩
  · obtain ⟨old, different⟩ := (index other).mp inside
    rw [entries other different] at present ⊢
    obtain ⟨mfile, opened, link⟩ := paired.file other old present
    refine ⟨mfile, (kept _ (Or.inl fun equal => ?_)).trans opened, link⟩
    obtain ⟨mine, found, own⟩ := paired.file id linked (equal ▸ present)
    obtain rfl := Option.some.inj ((equal ▸ opened).symm.trans found)
    exact different (link.symm.trans own)
  · by_cases own : fh = (fs.entries id).fh ∧ fh ≠ 0
    · obtain ⟨rfl, present⟩ := own
      exact absurd (cleared mfile present opened) some
    · have before : fs.mfiles fh = Option.some mfile := (kept fh (by tauto)).symm.trans opened
      obtain ⟨old, link⟩ := paired.entry fh mfile before type some
      have present : fh ≠ 0 := by
        rintro rfl
        rw [paired.noFile] at before
        cases before
      have different : mfile.metadata_id ≠ id := fun same =>
        own ⟨by rw [← same, link], present⟩
      exact ⟨(index _).mpr ⟨old, different⟩, by rw [entries _ different, link]⟩

omit [Inhabited Hash] [DecidableEq Hash] in
theorem Relinked.paired (relinked : Relinked fs next) (paired : Paired fs) : Paired next :=
  paired.transfer (fun _ => by rw [relinked.index]) (fun id _ => (relinked.alike id).fh)
    fun fh => by rw [relinked.mfiles]

omit [Inhabited Hash] [DecidableEq Hash] in
theorem unlinkEntry_relinked {id : Id} (unlinked : fs.unlinkEntry env id = .ok next) :
    Relinked fs next := by
  rcases unlinkEntry_cases unlinked with ⟨-, rfl⟩ | ⟨-, -, previous, -, rfl⟩
  · exact .modify ⟨rfl, rfl, rfl, rfl, rfl, rfl⟩
  · exact .modify ⟨rfl, rfl, rfl, rfl, rfl, rfl⟩

omit [DecidableEq Hash] in
theorem unlinkRemove_paired {id : Id} (isTree : IsTree fs) (linked : id ∈ fs.index)
    (removed : fs.unlinkRemove env id = .ok next) (paired : Paired fs) : Paired next := by
  obtain ⟨unlinked, unlinking, removed⟩ := bind_eq_ok.mp removed
  have relinked := unlinkEntry_relinked unlinking
  obtain ⟨kids, free, tree⟩ := isTree
  exact discard_paired (relinked.index ▸ tree.indexed.nodup) (relinked.index ▸ linked) removed
    (relinked.paired paired)

omit [DecidableEq Hash] in
/-- The cursor of the loop over the entries below is one of the tree. -/
theorem RemoveAt.linked {old : Fs Hash} {metadata : Id} {cursor : Fs.RemoveCursor}
    (holds : RemoveAt old metadata cursor fs) :
    fs.index.Nodup ∧ match cursor with
      | .current id => id ∈ fs.index
      | .rewind father => father ∈ fs.index := by
  obtain ⟨first, kids, free, stack, removing, place⟩ := holds
  refine ⟨removing.indexed.nodup, ?_⟩
  cases cursor with
  | current id =>
      obtain ⟨above, spine, head⟩ := place
      have aboveNode := (spine.climbs removing.shape removing.inside).1
      exact removing.indexed.mem_iff.mpr (removing.shape.forest.child above id aboveNode
        (List.mem_of_mem_head? (Option.mem_def.mpr head))).1
  | rewind father =>
      exact removing.indexed.mem_iff.mpr (place.1.climbs removing.shape removing.inside).1

omit [DecidableEq Hash] in
theorem removeTurn_paired {old : Fs Hash} {metadata : Id} {cursor : Fs.RemoveCursor}
    {more : Option Fs.RemoveCursor} (holds : RemoveAt old metadata cursor fs)
    (turn : Fs.removeTurn metadata cursor fs = .ok (more, next)) (paired : Paired fs) :
    Paired next := by
  obtain ⟨nodup, linked⟩ := holds.linked
  cases cursor with
  | current id =>
      unfold Fs.removeTurn at turn
      simp only at turn
      split at turn
      · obtain ⟨-, rfl⟩ := Prod.mk.inj (Except.ok.inj turn)
        exact paired
      · obtain ⟨after, removed, last⟩ := bind_eq_ok.mp turn
        obtain ⟨-, rfl⟩ := Prod.mk.inj (Except.ok.inj last)
        exact discard_paired nodup linked removed paired
  | rewind father =>
      unfold Fs.removeTurn at turn
      simp only at turn
      split at turn
      · cases turn
      · split at turn
        · obtain ⟨-, rfl⟩ := Prod.mk.inj (Except.ok.inj turn)
          exact paired
        · obtain ⟨after, removed, last⟩ := bind_eq_ok.mp turn
          obtain ⟨-, rfl⟩ := Prod.mk.inj (Except.ok.inj last)
          exact discard_paired nodup linked removed paired

omit [DecidableEq Hash] in
theorem removeChildren_paired {metadata : Id} (isTree : IsTree fs) (linked : metadata ∈ fs.index)
    (removed : fs.removeChildren env metadata = .ok next) (paired : Paired fs) : Paired next := by
  unfold Fs.removeChildren at removed
  split at removed
  · exact Except.ok.inj removed ▸ paired
  · next some =>
      obtain ⟨middle, loop, last⟩ := bind_eq_ok.mp removed
      obtain rfl := Except.ok.inj last
      have goesOn : forall cursor state other after, RemoveAt fs metadata cursor state ∧ Paired state ->
          Fs.removeTurn metadata cursor state = .ok (Option.some other, after) ->
          RemoveAt fs metadata other after ∧ Paired after := fun _ _ _ _ holds turn =>
        ⟨removeTurn_some holds.1 turn, removeTurn_paired holds.1 turn holds.2⟩
      have cleared : Paired middle := iterate_ok goesOn
        (fun _ _ _ holds turn => removeTurn_paired holds.1 turn holds.2)
        ⟨RemoveAt.start isTree linked some, paired⟩ loop
      refine cleared.transfer (fun _ => Iff.rfl) (fun id _ => ?_) (.refl _)
      by_cases same : id = metadata
      · subst same
        rw [modify_self]
      · rw [modify_other same]

/-! ## Entries that move -/

omit [Inhabited Hash] [DecidableEq Hash] in
theorem updateFhPath_sameFiles {id : Id} (updated : fs.updateFhPath id = .ok next) :
    SameFiles fs next := by
  unfold Fs.updateFhPath at updated
  split at updated
  · exact Except.ok.inj updated ▸ .refl _
  · obtain ⟨newpath, -, updated⟩ := bind_eq_ok.mp updated
    unfold Fs.modifyFile at updated
    simp only at updated
    split at updated
    · exact Except.ok.inj updated ▸ .refl _
    · split at updated
      · cases updated
      · next mfile opened =>
          obtain rfl := Except.ok.inj updated
          have same : filed { mfile with path := newpath } = filed mfile := rfl
          exact .set opened same rfl

omit [Inhabited Hash] [DecidableEq Hash] in
theorem updateFhPath_paired {id : Id} (updated : fs.updateFhPath id = .ok next)
    (paired : Paired fs) : Paired next := by
  have rehashed := updateFhPath_rehashed updated
  refine paired.transfer (fun _ => rehashed.mem_index) (fun id _ => ?_)
    (updateFhPath_sameFiles updated)
  rw [rehashed.entries id]

omit [Inhabited Hash] [DecidableEq Hash] in
theorem rehashTurn_sameFiles {rootid : Id} {cursor : Id × Id} {more : Option (Id × Id)}
    (turn : fs.rehashTurn env rootid cursor = .ok (more, next)) : SameFiles fs next := by
  unfold Fs.rehashTurn at turn
  simp only at turn
  split at turn
  · cases turn
  · split at turn
    · cases turn
    · obtain ⟨updated, paths, turn⟩ := bind_eq_ok.mp turn
      have updates := updateFhPath_sameFiles paths
      have files : SameFiles fs updated := updates
      split at turn
      · obtain ⟨-, rfl⟩ := Prod.mk.inj (Except.ok.inj turn)
        exact files
      · split at turn
        · obtain ⟨-, rfl⟩ := Prod.mk.inj (Except.ok.inj turn)
          exact files
        · obtain ⟨climbed, -, turn⟩ := bind_eq_ok.mp turn
          cases climbed with
          | none =>
              obtain ⟨-, rfl⟩ := Prod.mk.inj (Except.ok.inj turn)
              exact files
          | some way =>
              simp only at turn
              split at turn
              · cases turn
              · obtain ⟨-, rfl⟩ := Prod.mk.inj (Except.ok.inj turn)
                exact files

omit [DecidableEq Hash] in
theorem rehashChildren_paired {mdata : Id} (isTree : IsTree fs) (linked : mdata ∈ fs.index)
    (rehash : fs.rehashChildren env mdata = .ok next) (paired : Paired fs) : Paired next := by
  obtain ⟨child, middle, read, rehashed⟩ := rehashChildren_rehashed isTree linked rehash
  have files : SameFiles middle next := by
    obtain ⟨⟨other, same⟩, reads, rehash⟩ := bind_eq_ok.mp rehash
    obtain ⟨rfl, rfl⟩ := Prod.mk.inj (Except.ok.inj (read.symm.trans reads))
    simp only at rehash
    split at rehash
    · exact Except.ok.inj rehash ▸ .refl _
    · have goesOn : forall (cursor : Id × Id) (state : Fs Hash) (other : Id × Id)
          (after : Fs Hash), SameFiles middle state ->
          state.rehashTurn env mdata cursor = .ok (some other, after) -> SameFiles middle after :=
        fun _ _ _ _ before turn => before.trans (rehashTurn_sameFiles turn)
      exact iterate_ok goesOn (fun _ _ _ before turn => before.trans (rehashTurn_sameFiles turn))
        (.refl middle) rehash
  refine (getChild_paired isTree linked read paired).transfer (fun _ => rehashed.mem_index)
    (fun id _ => ?_) files
  rw [rehashed.entries id]

omit [DecidableEq Hash] in
theorem moveEntry_paired {mdata mtarget : Id} {lname : Component} (isTree : IsTree fs)
    (linked : mdata ∈ fs.index) (targetLinked : mtarget ∈ fs.index)
    (legal : ¬ Climbs fs.father mdata mtarget)
    (moving : fs.moveEntry env mdata mtarget lname = .ok next) (paired : Paired fs) :
    Paired next := by
  obtain ⟨unlinked, unlinking, moving⟩ := bind_eq_ok.mp moving
  obtain ⟨middle, rehashing, updating⟩ := bind_eq_ok.mp moving
  have moved : Moved env fs mdata mtarget lname (unlinked.relinkEntry env mdata mtarget lname) :=
    unlinkEntry_moved isTree linked targetLinked legal unlinking
  have placed : Paired (unlinked.relinkEntry env mdata mtarget lname) := by
    refine paired.transfer moved.index (fun id _ => ?_) fun fh => ?_
    · by_cases same : id = mdata
      · rw [same, moved.fh]
      · exact (moved.others id same).fh
    · exact congrArg (fun mfiles : Fh -> Option Mfile => (mfiles fh).map filed)
        (unlinkEntry_relinked unlinking).mfiles
  refine updateFhPath_paired updating ?_
  split at rehashing
  · exact rehashChildren_paired moved.isTree ((moved.index mdata).mpr linked) rehashing placed
  · exact Except.ok.inj rehashing ▸ placed

/-! ## Calls -/

omit [DecidableEq Hash] in
theorem vopsCreate_paired (env : Env Hash) {father : Id} (name : Component) (mode : UInt32)
    (size : Int) (isTree : IsTree fs) (linked : father ∈ fs.index) (paired : Paired fs) :
    Paired (fs.vopsCreate env father name mode size).2 := by
  obtain ⟨kids, free, tree⟩ := isTree
  obtain ⟨id, rest, st, next, result, -, added⟩ :=
    tree.vopsCreate env name mode size (tree.mem_index.mp linked)
  rw [result]
  exact added.paired tree paired

omit [DecidableEq Hash] in
theorem vopsRemovePrevious_paired (isTree : IsTree fs)
    (removed : fs.vopsRemovePrevious env rootId = .ok next) (paired : Paired fs) :
    Paired next := by
  obtain ⟨⟨child, middle⟩, read, removed⟩ := bind_eq_ok.mp removed
  have middleTree := getChild_isTree isTree isTree.root read
  have middlePaired := getChild_paired isTree isTree.root read paired
  obtain ⟨found, searched, removed⟩ := bind_eq_ok.mp removed
  split at removed
  · exact Except.ok.inj removed ▸ middlePaired
  · next present =>
      have linked : found ∈ middle.index := by
        obtain ⟨kids, free, tree⟩ := isTree
        obtain ⟨childEq, -⟩ := tree.getChild tree.shape.root read
        rw [childEq] at searched
        exact ((middleTree.findSibling middleTree.root searched).resolve_left present).1
      obtain ⟨cleared, children, last⟩ := bind_eq_ok.mp removed
      obtain ⟨clearedTree, -, still, -⟩ := removeChildren_shrinks middleTree linked children
      exact unlinkRemove_paired clearedTree still last
        (removeChildren_paired middleTree linked children middlePaired)

omit [DecidableEq Hash] in
theorem vopsCreateFiles_paired (env : Env Hash) (names : List Component) {father : Id}
    (isTree : IsTree fs) (linked : father ∈ fs.index) (paired : Paired fs) :
    Paired (names.foldl (Fs.vopsCreateFile env father) fs) := by
  induction names generalizing fs with
  | nil => exact paired
  | cons name names inductionHypothesis =>
      rw [List.foldl_cons]
      obtain ⟨kids, free, tree⟩ := isTree
      have isNode := tree.mem_index.mp linked
      obtain ⟨id, rest, st, after, made, -, added⟩ :=
        tree.vopsCreate env (name.take NAME_MAX) (S_IFREG ||| 0o600) (2 ^ 20) isNode
      have file : Fs.vopsCreateFile env father fs name = after := congrArg Prod.snd made
      rw [file]
      exact inductionHypothesis ⟨_, _, added.tree⟩
        (added.tree.mem_index.mpr ((added.nodes father).mpr (Or.inl isNode)))
        (added.paired tree paired)

omit [DecidableEq Hash] in
theorem populateVops_paired (isTree : IsTree fs) (result : fs.populateVops env = .ok next)
    (paired : Paired fs) : Paired next := by
  obtain ⟨⟨child, first⟩, read, result⟩ := bind_eq_ok.mp result
  obtain ⟨second, cleared, result⟩ := bind_eq_ok.mp result
  obtain rfl := Except.ok.inj result
  have firstTree := getChild_isTree isTree isTree.root read
  have secondPaired := vopsRemovePrevious_paired firstTree cleared
    (getChild_paired isTree isTree.root read paired)
  obtain ⟨-, -, secondTree, -⟩ := vopsRemovePrevious_shrinks firstTree firstTree.root cleared
  obtain ⟨directory, linked⟩ := vopsCreate_changed env (vopsName.take (NAME_MAX + 1))
    (S_IFDIR ||| 0o700) 0 secondTree secondTree.root
  exact vopsCreateFiles_paired env _ (directory.isTree secondTree) linked
    (vopsCreate_paired env _ _ _ secondTree secondTree.root secondPaired)

/-- What one call keeps. -/
theorem TreeCall.run_paired {call : TreeCall} (isTree : IsTree fs) (noLinks : NoLinks fs)
    (legal : call.Legal env fs) (result : call.run env fs = .ok next) (paired : Paired fs) :
    Paired next := by
  cases call with
  | findLocked path =>
      obtain ⟨id, found⟩ := map_snd_eq_ok.mp result
      exact (findLocked_populated isTree found).1.paired isTree paired
  | getChild father =>
      simp only [run] at result
      split at result
      · next linked =>
          obtain ⟨child, read⟩ := map_snd_eq_ok.mp result
          exact getChild_paired isTree linked read paired
      · exact Except.ok.inj result ▸ paired
  | makeEntry context path mode rdev =>
      obtain ⟨code, made⟩ := map_snd_eq_ok.mp result
      obtain ⟨-, populated⟩ | ⟨-, father, lname, middle, populated, linked, rfl⟩ :=
        makeEntry_cases isTree made
      · exact populated.paired isTree paired
      · obtain ⟨kids, free, tree⟩ := populated.isTree isTree
        obtain ⟨id, rest, added⟩ :=
          tree.makeChild env context lname mode rdev (tree.mem_index.mp linked)
        exact added.paired tree (populated.paired isTree paired)
  | rmdirUnlink path isDir =>
      obtain ⟨code, gone⟩ := map_snd_eq_ok.mp result
      obtain ⟨found, id, -, middle, populated, ⟨-, rfl⟩ | ⟨-, linked, removed, -⟩⟩ :=
        rmdirUnlink_cases isTree noLinks gone
      · exact populated.paired isTree paired
      · exact unlinkRemove_paired (populated.isTree isTree) linked removed
          (populated.paired isTree paired)
  | renameEntry path target =>
      obtain ⟨code, renamed⟩ := map_snd_eq_ok.mp result
      rcases renameEntry_cases isTree renamed with
        ⟨-, populated⟩ | ⟨mdata, mtarget, lname, middle, finds, moved⟩
      · exact populated.paired isTree paired
      · obtain ⟨populated, linked, targetLinked⟩ := finds.populated isTree
        exact moveEntry_paired (populated.isTree isTree) linked targetLinked
          (legal mdata mtarget lname middle finds) moved (populated.paired isTree paired)
  | removeChildren metadata =>
      simp only [run] at result
      split at result
      · next linked => exact removeChildren_paired isTree linked result paired
      · exact Except.ok.inj result ▸ paired
  | populateVops => exact populateVops_paired isTree result paired

end Calls

end Metadata
end Mcachefs
