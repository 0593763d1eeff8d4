import Mcachefs.Lowlevel.IntactTrees
import Mcachefs.Lowlevel.SourceFiles
import Mcachefs.Metadata.ShownStart

namespace Mcachefs
namespace Lowlevel

open Library Metadata Journal
open Transfer (Fh)

/-!
# Entries and the files of the source that they were made of

The invariant has two parts.  The path of the open file of an entry is the path of the
entry, which renames and the paths that they tell keep; and at that path the source has
nothing else than the file that the entry was made of, which a rename keeps only if it
goes to a path that is free in the source.
-/

namespace SourceFs

section Traced

variable {Hash File : Type} [Inhabited Hash] [DecidableEq Hash] {env : Env Hash}
  {file : Path -> Option File} {state next : SourceFs Hash File} {id : Id}
  {names : List Component}

/-- No call of `open` for the open file of an entry has opened another file than the one that
the entry was made of. -/
def OpenedOwn (file : Path -> Option File) (state : SourceFs Hash File) (id : Id) : Prop :=
  forall own, (state.fs.entries id).st.isReg = true -> state.origin id = some own ->
    (state.fs.entries id).fh ≠ 0 -> forall number,
      number < (state.sources (state.fs.entries id).fh).opens ->
        state.IsOf file (state.fs.entries id).fh own number

/-- What is known of an entry with these names. -/
structure Follows (file : Path -> Option File) (state : SourceFs Hash File) (id : Id)
    (names : List Component) : Prop where
  told : Metadata.Told state.fs id (absolutePath names)
  placed : forall own, (state.fs.entries id).st.isReg = true -> state.origin id = some own ->
    NoOther file own names
  opened : state.OpenedOwn file id

/-- The path of the open file of each entry is that of the entry, and at that path the source
has nothing else than the file that the entry was made of. -/
structure Traced (env : Env Hash) (file : Path -> Option File) (state : SourceFs Hash File) :
    Prop where
  intact : Intact env state.fs
  root : state.origin rootId = none
  follows : forall id names, id ∈ state.fs.index -> id ≠ rootId -> Named state.fs id names ->
    state.Follows file id names
  numbered : forall fh, Numbered (state.sources fh)

omit [DecidableEq Hash] in
theorem Traced.opensOwn (traced : Traced env file state) : state.OpensOwn file := by
  intro id own linked isReg made some
  have below : id ≠ rootId := by
    rintro rfl
    rw [traced.root] at made
    cases made
  obtain ⟨names, named, -⟩ := traced.intact.hashes.named traced.intact.isTree linked
  have opened := (traced.follows id names linked below named).opened own isReg made some
  exact ⟨opened, fun holder member =>
    opened holder.2 ((traced.numbered _).holders holder member)⟩

/-- The entry is made of what it was made of, and has the open file that it had, or none. -/
structure Kept (state next : SourceFs Hash File) (id : Id) : Prop where
  isReg : (next.fs.entries id).st.isReg = (state.fs.entries id).st.isReg
  origin : next.origin id = state.origin id
  file : (next.fs.entries id).fh = 0 ∨ (next.fs.entries id).fh = (state.fs.entries id).fh ∧
    next.sources (state.fs.entries id).fh = state.sources (state.fs.entries id).fh ∧
    next.opened (state.fs.entries id).fh = state.opened (state.fs.entries id).fh

omit [Inhabited Hash] [DecidableEq Hash] in
theorem OpenedOwn.kept (opened : state.OpenedOwn file id) (kept : Kept state next id) :
    next.OpenedOwn file id := by
  intro own isReg made some number less
  rcases kept.file with none | ⟨fh, sources, same⟩
  · exact absurd none some
  · rw [fh] at some less ⊢
    rw [sources] at less
    obtain ⟨found, before, real⟩ :=
      opened own (kept.isReg ▸ isReg) (kept.origin ▸ made) some number less
    exact ⟨found, by rw [same]; exact before, real⟩

omit [Inhabited Hash] [DecidableEq Hash] in
theorem Follows.kept (follows : state.Follows file id names) (kept : Kept state next id)
    (path : (next.fs.entries id).fh ≠ 0 ->
      (next.fs.mfiles (state.fs.entries id).fh).map Mfile.path =
        (state.fs.mfiles (state.fs.entries id).fh).map Mfile.path) :
    next.Follows file id names := by
  refine ⟨fun some => ?_, fun own isReg made =>
    follows.placed own (kept.isReg ▸ isReg) (kept.origin ▸ made), follows.opened.kept kept⟩
  have same := path some
  rcases kept.file with none | ⟨fh, -⟩
  · exact absurd none some
  · rw [fh] at some ⊢
    obtain ⟨mfile, opened, told⟩ := follows.told some
    rw [opened] at same
    obtain ⟨other, found, equal⟩ := Option.map_eq_some_iff.mp same
    exact ⟨other, found, equal.trans told⟩

omit [Inhabited Hash] [DecidableEq Hash] in
/-- An entry that has just been made has no open file, and is where it was made. -/
theorem Follows.fresh (closed : (next.fs.entries id).fh = 0)
    (made : forall own, next.origin id = some own -> own = names) :
    next.Follows file id names := by
  refine ⟨fun some => absurd closed some, fun own _ origin found there => ?_,
    fun _ _ _ some => absurd closed some⟩
  rwa [made own origin]

omit [DecidableEq Hash] in
/-- Sections that open nothing, and move nothing. -/
theorem Traced.frame (traced : Traced env file state) (intact : Intact env next.fs)
    (root : next.origin rootId = none) (sources : next.sources = state.sources)
    (kept : forall id names, id ∈ next.fs.index -> id ≠ rootId -> Named next.fs id names ->
      (id ∈ state.fs.index ∧ Named state.fs id names ∧ Kept state next id ∧
        ((next.fs.entries id).fh ≠ 0 ->
          (next.fs.mfiles (state.fs.entries id).fh).map Mfile.path =
            (state.fs.mfiles (state.fs.entries id).fh).map Mfile.path)) ∨
      ((next.fs.entries id).fh = 0 ∧ forall own, next.origin id = some own -> own = names)) :
    Traced env file next := by
  refine ⟨intact, root, fun id names there below named => ?_,
    fun fh => sources ▸ traced.numbered fh⟩
  rcases kept id names there below named with ⟨old, before, same, path⟩ | ⟨closed, made⟩
  · exact (traced.follows id names old below before).kept same path
  · exact .fresh closed made

/-! ## The sections -/

section Sections

omit [DecidableEq Hash] in
theorem Traced.getChild {father child : Id} {fs : Fs Hash} (traced : Traced env file state)
    (linked : father ∈ state.fs.index) (read : state.fs.getChild env father = .ok (child, fs)) :
    Traced env file { state with fs := fs, origin := state.originAfter env father fs } := by
  have isTree := traced.intact.isTree
  have populated : Populated env state.fs fs := .step .refl linked read
  have nextIntact := traced.intact.getChild linked read
  have old : forall {id names}, id ∈ state.fs.index -> Named fs id names ->
      Named state.fs id names := fun there named =>
    traced.intact.named_old nextIntact.isTree there
      (fun _ before => before.populated isTree there populated) named
  refine traced.frame nextIntact ?_ rfl fun id names there below named => ?_
  · exact (if_pos isTree.root).trans traced.root
  · by_cases before : id ∈ state.fs.index
    · have alike := (populated.stays isTree before).alike
      refine Or.inl ⟨before, old before named, ⟨congrArg Stat.isReg alike.st, if_pos before,
        Or.inr ⟨alike.fh, rfl, rfl⟩⟩, fun _ => ?_⟩
      rw [populated.mfiles isTree]
    · right
      obtain ⟨kids, free, tree⟩ := isTree
      obtain ⟨-, same | ⟨-, -, -, way, top, _, climb, -, rest, new, grown⟩⟩ :=
        tree.getChild (tree.mem_index.mp linked) read
      · rw [same] at there
        exact absurd there before
      · have fresh := ((grown.nodes id).mp (grown.tree.mem_index.mp there)).resolve_left
          fun isNode => before (tree.mem_index.mpr isNode)
        obtain ⟨link, entry⟩ := grown.entries id fresh
        refine ⟨congrArg Entry.fh entry, fun own made => ?_⟩
        have above : fs.father id = father := congrArg Entry.father entry
        obtain rfl : way ++ [(fs.entries id).d_name] = own := by
          have origin : state.originAfter env father fs id = some own := made
          rw [originAfter, if_neg before, climb] at origin
          exact Option.some.inj origin
        cases named with
        | root => exact absurd rfl below
        | @child _ front some higher =>
            rw [above] at higher
            have climbed := (old linked higher).climb traced.intact.rootFather env.fuel
            rw [climb] at climbed
            split at climbed
            · rw [(Prod.mk.inj (Option.some.inj climbed)).1]
            · cases climbed

omit [DecidableEq Hash] in
theorem Traced.vopsCreate {father : Id} {name : Component} {mode : UInt32} {size : Int}
    (traced : Traced env file state) (linked : father ∈ state.fs.index)
    (directory : (state.fs.entries father).st.isDir = true) :
    Traced env file { state with
      fs := (state.fs.vopsCreate env father name mode size).2
      origin := Function.update state.origin
        (state.fs.vopsCreate env father name mode size).1 none } := by
  have intact := traced.intact
  obtain ⟨kids, free, tree⟩ := intact.isTree
  have isNode := tree.mem_index.mp linked
  obtain ⟨new, rest, st, fs, result, -, added⟩ := tree.vopsCreate env name mode size isNode
  rw [result]
  have nextIntact := intact.added tree linked directory added
  have other : forall {id}, id ∈ state.fs.index -> id ≠ new := by
    rintro id old rfl
    exact added.fresh (tree.mem_index.mp old)
  refine traced.frame nextIntact ?_ rfl fun id names there below named => ?_
  · exact (Function.update_of_ne (other intact.isTree.root) _ _).trans traced.root
  · rcases (added.nodes id).mp (added.tree.mem_index.mp there) with isOld | rfl
    · have before := tree.mem_index.mpr isOld
      have same : (fs.entries id).st = (state.fs.entries id).st ∧
          (fs.entries id).fh = (state.fs.entries id).fh := by
        by_cases isFather : id = father
        · rw [isFather, added.above]
          exact ⟨rfl, rfl⟩
        · rw [added.kept id isOld isFather]
          exact ⟨rfl, rfl⟩
      refine Or.inl ⟨before, intact.named_old nextIntact.isTree before
        (fun _ => added.named tree isOld) named, ⟨congrArg Stat.isReg same.1,
        Function.update_of_ne (other before) _ _, Or.inr ⟨same.2, rfl, rfl⟩⟩, fun _ => ?_⟩
      rw [added.mfiles]
    · refine Or.inr ⟨congrArg Entry.fh added.entry, fun own made => ?_⟩
      have nothing : none = some own := (Function.update_self _ _ state.origin).symm.trans made
      cases nothing

omit [DecidableEq Hash] in
theorem Traced.unlinkRemove {mdata : Id} {fs : Fs Hash} (traced : Traced env file state)
    (linked : mdata ∈ state.fs.index) (leaf : state.fs.first mdata = 0)
    (removing : state.fs.unlinkRemove env mdata = .ok fs) :
    Traced env file { state with fs := fs } := by
  have intact := traced.intact
  have removed := unlinkRemove_removed intact.isTree linked leaf removing
  refine traced.frame (intact.unlinkRemove linked leaf removing) traced.root rfl
    fun id names there below named => ?_
  obtain ⟨before, apart⟩ := (removed.index id).mp there
  obtain ⟨unlinked, unlinking, gone⟩ := bind_eq_ok.mp removing
  have relinked := unlinkEntry_relinked unlinking
  have same : fs.entries id = unlinked.entries id := by
    rw [remove_eq gone]
    exact Function.update_of_ne apart _ _
  have alike := relinked.alike id
  have fh : (fs.entries id).fh = (state.fs.entries id).fh := by rw [same, alike.fh]
  refine Or.inl ⟨before, removed.named there named, ⟨?_, rfl, Or.inr ⟨fh, rfl, rfl⟩⟩,
    fun some => ?_⟩
  · rw [same, alike.st]
  · have different : (state.fs.entries id).fh ≠ (unlinked.entries mdata).fh := by
      rw [(relinked.alike mdata).fh]
      exact fun equal => apart (intact.filesApart id mdata before linked equal (fh ▸ some))
    rw [(discard_files gone).1 _ (Or.inl different), relinked.mfiles]

theorem Traced.moveEntry {mdata mtarget : Id} {lname : Component} {fs : Fs Hash}
    (traced : Traced env file state) (legal : state.Legal (.moveEntry mdata mtarget lname))
    (free : state.LandsFree file (.moveEntry mdata mtarget lname))
    (moving : state.fs.moveEntry env mdata mtarget lname = .ok fs) :
    Traced env file { state with fs := fs } := by
  obtain ⟨linked, targetLinked, isDir, apart, all⟩ := legal
  have intact := traced.intact
  obtain ⟨source, sourceNamed, -⟩ := intact.hashes.named intact.isTree linked
  obtain ⟨above, targetNamed, -⟩ := intact.hashes.named intact.isTree targetLinked
  have moves := intact.moves linked targetLinked apart all sourceNamed targetNamed moving
  obtain ⟨fhs, files⟩ := intact.moveEntry_files linked targetLinked apart all moving
  have nextIntact := intact.moveEntry linked targetLinked isDir apart all moving
  refine ⟨nextIntact, traced.root, fun id names there below named => ?_, traced.numbered⟩
  have old := (moves.index id).mp there
  have kept : Kept state { state with fs := fs } id :=
    ⟨congrArg Stat.isReg (moves.st id), rfl, Or.inr ⟨fhs id, rfl, rfl⟩⟩
  by_cases climbs : Climbs state.fs.father mdata id
  · obtain ⟨rest, before, after, -, told⟩ := moves.inside id old climbs
    obtain rfl := after.unique nextIntact.rootFather named
    have follows := traced.follows id _ old below before
    refine ⟨?_, fun own isReg made => ?_, follows.opened.kept kept⟩
    · rwa [absolutePath, if_neg (by simp)]
    · exact free id source above rest own old (kept.isReg ▸ isReg) made sourceNamed targetNamed
        before
  · have before := intact.named_old nextIntact.isTree old (moves.outside id old climbs).1 named
    refine (traced.follows id names old below before).kept kept fun some => ?_
    rw [files id old below climbs (fhs id ▸ some)]

omit [DecidableEq Hash] in
theorem Traced.fileidGet {file_add fh : Fh} {mdata : Id} {path : Path} {type : FileType}
    {fs : Fs Hash} (traced : Traced env file state)
    (legal : state.Legal (.fileidGet file_add mdata path type))
    (finds : state.LandsFree file (.fileidGet file_add mdata path type))
    (result : state.fs.fileidGet (fun _ => file_add) mdata (some path) type = .ok (fh, fs)) :
    Traced env file (if (state.fs.entries mdata).fh ≠ 0 then { state with fs := fs }
      else { state with
        fs := fs
        sources := Function.update state.sources fh .init
        opened := Function.update state.opened fh fun _ => none }) := by
  obtain ⟨linked, notZero, unused⟩ := legal
  have intact := traced.intact
  have opened := fileidGet_opened linked result
  have nextIntact := intact.opened
    (fileidGet_linking intact.toLinking linked unused notZero result) opened
  have names_eq : forall {id names}, Named fs id names -> Named state.fs id names := fun named =>
    (Retouched.ofOpened opened).named_iff.mp named
  have st : forall id, (fs.entries id).st = (state.fs.entries id).st := fun id =>
    (congrArg Entry.st (opened.entries id)).trans rfl
  by_cases present : (state.fs.entries mdata).fh ≠ 0
  · rw [if_pos present]
    obtain ⟨entries, paths⟩ := fileidGet_again present result
    refine traced.frame nextIntact traced.root rfl fun id names there below named => Or.inl
      ⟨opened.index ▸ there, names_eq named, ⟨congrArg Stat.isReg (st id), rfl,
        Or.inr ⟨congrArg (fun entries => (entries id).fh) entries, rfl, rfl⟩⟩, fun _ => paths _⟩
  · rw [if_neg present]
    have closed := not_not.mp present
    obtain ⟨own, ownNamed, samePath⟩ := finds closed
    obtain ⟨rfl, here, others, mfile, told, mfiles⟩ := fileidGet_first closed result
    refine ⟨nextIntact, traced.root, fun id names there below named => ?_, fun other => ?_⟩
    · have before := names_eq named
      have follows := traced.follows id names (opened.index ▸ there) below before
      by_cases same : id = mdata
      · subst same
        refine ⟨fun _ => ⟨mfile, ?_, ?_⟩, fun other isReg made => ?_,
          fun other _ _ _ number less => ?_⟩
        · simp only [mfiles, here, Function.update_self]
        · rw [told, ← samePath, ownNamed.unique intact.rootFather before]
        · exact follows.placed other ((congrArg Stat.isReg (st id)).symm.trans isReg) made
        · simp only [here, Function.update_self] at less
          exact absurd less (Nat.not_lt_zero number)
      · have other : (state.fs.entries id).fh ≠ 0 -> (state.fs.entries id).fh ≠ fh := by
          rintro some rfl
          obtain ⟨held, there, -⟩ := follows.told some
          rw [unused] at there
          cases there
        have fhs : (fs.entries id).fh = (state.fs.entries id).fh := by rw [others id same]
        refine follows.kept ⟨congrArg Stat.isReg (st id), rfl, ?_⟩ fun some => ?_
        · by_cases none : (state.fs.entries id).fh = 0
          · exact Or.inl (fhs.trans none)
          · exact Or.inr ⟨fhs, Function.update_of_ne (other none) _ _,
              Function.update_of_ne (other none) _ _⟩
        · simp only [mfiles]
          rw [Function.update_of_ne (other (fhs ▸ some))]
    · by_cases same : other = fh
      · simp only [same, Function.update_self]
        exact Numbered.init
      · simp only [Function.update_of_ne same]
        exact traced.numbered other

omit [DecidableEq Hash] in
theorem Traced.fileRelease {fh : Fh} {mount : Mount Hash} (traced : Traced env file state)
    (result : state.toMount.fileRelease fh = .ok mount) :
    Traced env file { state with toMount := mount } := by
  have intact := traced.intact
  obtain ⟨opened, files⟩ := fileRelease_opened intact.toLinking result
  refine traced.frame (intact.opened (fileRelease_linking intact.toLinking result) opened)
    traced.root rfl fun id names there below named => ?_
  have old : id ∈ state.fs.index := opened.index ▸ there
  have isReg : (mount.fs.entries id).st.isReg = (state.fs.entries id).st.isReg :=
    (congrArg (Stat.isReg ∘ Entry.st) (opened.entries id)).trans rfl
  refine Or.inl ⟨old, (Retouched.ofOpened opened).named_iff.mp named, ⟨isReg, rfl, ?_⟩,
    fun some => ?_⟩
  · exact (files id).imp_right fun kept => ⟨kept.1, rfl, rfl⟩
  · obtain ⟨fhs, path⟩ := (files id).resolve_left some
    have present : (mount.fs.entries id).fh ≠ 0 := some
    exact path old (fhs ▸ present)

omit [DecidableEq Hash] in
theorem Traced.journaled {mount : Mount Hash} (traced : Traced env file state)
    (same : mount.fs = state.fs) : Traced env file { state with toMount := mount } := by
  obtain ⟨fs, journal⟩ := mount
  obtain rfl := same
  exact ⟨traced.intact, traced.root, fun id names there below named =>
    (traced.follows id names there below named).kept ⟨rfl, rfl, Or.inr ⟨rfl, rfl, rfl⟩⟩
      fun _ => rfl, traced.numbered⟩

omit [Inhabited Hash] [DecidableEq Hash] in
theorem sourceStep_other {fh other : Fh} {path : Path} {found : Option File}
    {event : Descriptors.Event} (different : other ≠ fh) :
    (state.sourceStep fh path found event).sources other = state.sources other ∧
      (state.sourceStep fh path found event).opened other = state.opened other := by
  unfold sourceStep
  simp only
  generalize (state.sources fh).step _ = after
  refine ⟨Function.update_of_ne different _ _, ?_⟩
  split
  · exact Function.update_of_ne different _ _
  · rfl

omit [Inhabited Hash] [DecidableEq Hash] in
/-- The files that have been opened stay as they are, and another one is what has been found. -/
theorem sourceStep_opened {fh : Fh} {path : Path} {found : Option File}
    {event : Descriptors.Event} {number : Nat}
    (less : number < ((state.sourceStep fh path found event).sources fh).opens) :
    number < (state.sources fh).opens ∧
        (state.sourceStep fh path found event).opened fh number = state.opened fh number ∨
      found.isSome = true ∧ (state.sourceStep fh path found event).opened fh number = found := by
  unfold sourceStep at less ⊢
  simp only [Function.update_self] at less ⊢
  cases found with
  | none =>
      simp only [Option.isSome_none, step_answered] at less ⊢
      rw [if_neg (Nat.lt_irrefl _)]
      exact Or.inl ⟨less, rfl⟩
  | some found =>
      rcases (step_opensOne (state.sources fh)
        (answered (some found).isSome (wasRenamed state.journal path) event)).grows with same | one
      · rw [same] at less ⊢
        rw [if_neg (Nat.lt_irrefl _)]
        exact Or.inl ⟨less, rfl⟩
      · rw [one] at less ⊢
        rw [if_pos (Nat.lt_succ_self _), Function.update_self]
        rcases Nat.lt_succ_iff_lt_or_eq.mp less with old | rfl
        · exact Or.inl ⟨old, Function.update_of_ne (Nat.ne_of_lt old) _ _⟩
        · exact Or.inr ⟨rfl, Function.update_self _ _ _⟩

omit [DecidableEq Hash] in
/-- What is opened for an entry is at its path. -/
theorem Traced.source {fh : Fh} {mfile : Mfile} {event : Descriptors.Event}
    (traced : Traced env file state) (held : state.fs.mfiles fh = some mfile) :
    Traced env file (state.sourceStep fh mfile.path (file mfile.path) event) := by
  refine ⟨traced.intact, traced.root, fun id names there below named => ?_, fun other => ?_⟩
  · have follows := traced.follows id names there below named
    by_cases same : (state.fs.entries id).fh = fh
    · refine ⟨follows.told, follows.placed, fun own isReg made some number less => ?_⟩
      subst same
      obtain ⟨other, there, path⟩ := follows.told some
      obtain rfl := Option.some.inj (held.symm.trans there)
      rcases sourceStep_opened less with ⟨old, kept⟩ | ⟨isSome, opened⟩
      · obtain ⟨found, before, real⟩ := follows.opened own isReg made some number old
        exact ⟨found, kept.trans before, real⟩
      · obtain ⟨found, isFound⟩ := Option.isSome_iff_exists.mp isSome
        refine ⟨found, opened.trans isFound, follows.placed own isReg made found ?_⟩
        rw [← path, isFound]
    · exact follows.kept ⟨rfl, rfl, Or.inr ⟨rfl, sourceStep_other same⟩⟩ fun _ => rfl
  · by_cases same : other = fh
    · rw [same, sourceStep]
      simp only [Function.update_self]
      exact (step_opensOne _ _).numbered (traced.numbered fh)
    · rw [(sourceStep_other same).1]
      exact traced.numbered other

end Sections

omit [DecidableEq Hash] in
theorem start_traced (env : Env Hash) (file : Path -> Option File) (st : Stat) :
    Traced env file (start env st) := by
  obtain ⟨isTree, noLinks⟩ := format_isTree env st
  refine ⟨⟨⟨isTree, noLinks, rfl, fun id linked present =>
    absurd (format_closed env st id linked) present, fun fh mfile opened => nomatch opened⟩,
    format_hashes env st, fun id linked below => absurd (List.mem_singleton.mp linked) below⟩, rfl,
    fun id names linked below => absurd (List.mem_singleton.mp linked) below,
    fun _ => Numbered.init⟩

/-- What one section preserves. -/
theorem step_traced {event : SourceEvent} (traced : Traced env file state)
    (legal : state.Legal event) (free : state.LandsFree file event)
    (result : state.step env file event = .ok next) : Traced env file next := by
  cases event with
  | getChild father =>
      simp only [step] at result
      split at result
      · next linked =>
          obtain ⟨⟨child, fs⟩, read, result⟩ := bind_eq_ok.mp result
          rw [metadata_eq_ok] at read
          obtain rfl := Except.ok.inj result
          exact traced.getChild linked read
      · exact Except.ok.inj result ▸ traced
  | vopsCreate father name mode size =>
      obtain rfl := Except.ok.inj result
      exact traced.vopsCreate legal.1 legal.2
  | moveEntry mdata mtarget lname =>
      obtain ⟨fs, moving, result⟩ := bind_eq_ok.mp result
      rw [metadata_eq_ok] at moving
      obtain rfl := Except.ok.inj result
      exact traced.moveEntry legal free moving
  | unlinkRemove mdata =>
      obtain ⟨fs, removing, result⟩ := bind_eq_ok.mp result
      rw [metadata_eq_ok] at removing
      obtain rfl := Except.ok.inj result
      exact traced.unlinkRemove legal.1 legal.2 removing
  | fileidGet file_add mdata path type =>
      obtain ⟨⟨fh, fs⟩, opened, result⟩ := bind_eq_ok.mp result
      rw [metadata_eq_ok] at opened
      have same := traced.fileidGet legal free opened
      simp only at result
      split at result
      · next present =>
          obtain rfl := Except.ok.inj result
          rwa [if_pos present] at same
      · next closed =>
          obtain rfl := Except.ok.inj result
          rwa [if_neg closed] at same
  | fileRelease fh =>
      obtain ⟨mount, released, result⟩ := bind_eq_ok.mp result
      obtain rfl := Except.ok.inj result
      exact traced.fileRelease released
  | journalAppend record =>
      obtain ⟨mount, append, result⟩ := bind_eq_ok.mp result
      obtain rfl := Except.ok.inj result
      exact traced.journaled (journalAppend_fs append)
  | source fh event =>
      simp only [step] at result
      split at result
      · cases result
      · next mfile held =>
          obtain rfl := Except.ok.inj result
          exact traced.source held

end Traced

/-! ## The sections of a call -/

section Calls

variable {Hash File : Type} [Inhabited Hash] [DecidableEq Hash] {env : Env Hash}
  {file : Path -> Option File} {fs middle next : Fs Hash}

/-- `mcachefs_metadata_rename_entry` moves nothing into a file. -/
theorem renameEntry_isDir {path target : Path} {mdata mtarget : Id} {lname : Component}
    (finds : RenameFinds env fs path target mdata mtarget lname middle)
    (result : fs.renameEntry env path target = .ok (0, next)) :
    (middle.entries mtarget).st.isDir = true := by
  obtain ⟨found, fetched, between, targetpath, lookup, present, fetch, absent, split, above,
    some⟩ := finds
  obtain ⟨both, again, result⟩ := bind_eq_ok.mp result
  obtain rfl := Except.ok.inj (lookup.symm.trans again)
  simp only [if_neg present] at result
  obtain ⟨state, again, result⟩ := bind_eq_ok.mp result
  obtain rfl := Except.ok.inj (fetch.symm.trans again)
  obtain ⟨both, again, result⟩ := bind_eq_ok.mp result
  obtain rfl := Except.ok.inj (absent.symm.trans again)
  simp only [ne_eq, not_true_eq_false, if_false] at result
  obtain ⟨both, again, result⟩ := bind_eq_ok.mp result
  obtain rfl := Except.ok.inj (split.symm.trans again)
  obtain ⟨both, again, result⟩ := bind_eq_ok.mp result
  obtain rfl := Except.ok.inj (above.symm.trans again)
  simp only [if_neg some] at result
  by_contra notDir
  rw [if_pos (Bool.eq_false_of_not_eq_true notDir)] at result
  exact absurd (Prod.mk.inj (Except.ok.inj result)).1 (by decide)

/-- These sections, each of which is legal, lead from the one to the other. -/
def Sections (env : Env Hash) (file : Path -> Option File) (mount : Mount Hash)
    (events : List SourceEvent) (after : Mount Hash) : Prop :=
  forall state : SourceFs Hash File, state.toMount = mount -> Exists fun last =>
    events.foldlM (step env file) state = .ok last ∧ last.toMount = after ∧
      EachStep (step env file) (fun state event => state.Legal event) state events

variable {mount between after : Mount Hash}

omit [DecidableEq Hash] in
theorem Sections.trans {events more : List SourceEvent}
    (one : Sections env file mount events between) (two : Sections env file between more after) :
    Sections env file mount (events ++ more) after := by
  intro state same
  obtain ⟨middle, first, reached, legal⟩ := one state same
  obtain ⟨last, second, ends, further⟩ := two middle reached
  refine ⟨last, ?_, ends, legal.append first further⟩
  rw [List.foldlM_append, first]
  exact second

omit [DecidableEq Hash] in
theorem Sections.one (event : SourceEvent)
    (legal : forall state : SourceFs Hash File, state.toMount = mount -> state.Legal event)
    (taken : forall state : SourceFs Hash File, state.toMount = mount -> Exists fun last =>
      state.step env file event = .ok last ∧ last.toMount = after) :
    Sections env file mount [event] after := by
  intro state same
  obtain ⟨last, result, ends⟩ := taken state same
  refine ⟨last, ?_, ends, legal state same, ?_⟩
  · rw [List.foldlM_cons, result]
    rfl
  · rw [result]
    trivial

omit [DecidableEq Hash] in
theorem populated_sections (file : Path -> Option File)
    (populated : Populated env mount.fs next) :
    Exists fun events => Sections env file mount events { mount with fs := next } := by
  induction populated with
  | refl => exact ⟨[], fun state same => ⟨state, rfl, same, trivial⟩⟩
  | @step middle next father child _ linked read inductionHypothesis =>
      obtain ⟨events, before⟩ := inductionHypothesis
      refine ⟨_, before.trans (.one (.getChild father) (fun _ _ => trivial) fun state same => ?_)⟩
      have fs : state.fs = middle := congrArg Mount.fs same
      have journal : state.journal = mount.journal := congrArg (fun mount => mount.journal) same
      refine ⟨{ state with fs := next, origin := state.originAfter env father next }, ?_, ?_⟩
      · rw [step, fs, if_pos linked, read]
        rfl
      · rw [← journal]

omit [DecidableEq Hash] in
/-- A section that puts another metadata file in the place of this one. -/
theorem Sections.metadata (event : SourceEvent)
    (legal : forall state : SourceFs Hash File, state.fs = mount.fs -> state.Legal event)
    (taken : forall state : SourceFs Hash File, state.fs = mount.fs ->
      state.step env file event = .ok { state with fs := next }) :
    Sections env file mount [event] { mount with fs := next } := by
  refine .one event (fun state same => legal state (congrArg Mount.fs same)) fun state same =>
    ⟨_, taken state (congrArg Mount.fs same), ?_⟩
  rw [← same]

theorem renameEntry_sections {path target : Path} {code : Int} (file : Path -> Option File)
    (intact : Intact env mount.fs) (legal : (TreeCall.renameEntry path target).Legal env mount.fs)
    (result : mount.fs.renameEntry env path target = .ok (code, next)) :
    Exists fun events => Sections env file mount events { mount with fs := next } := by
  by_cases failed : code = 0
  · subst failed
    rcases renameEntry_cases intact.isTree result with
      ⟨nonzero, -⟩ | ⟨mdata, mtarget, lname, middle, finds, moving⟩
    · exact absurd rfl nonzero
    · obtain ⟨populated, linked, targetLinked⟩ := finds.populated intact.isTree
      obtain ⟨all, -⟩ := finds.allRead intact.isTree fun id found lookup _ =>
        (intact.populated (findLocked_populated intact.isTree lookup).1).onlyDirectories id
      have isDir := renameEntry_isDir finds result
      have apart := legal mdata mtarget lname middle finds
      obtain ⟨events, before⟩ := populated_sections file populated
      refine ⟨_, before.trans (.metadata (.moveEntry mdata mtarget lname) ?_ ?_)⟩
      · rintro state rfl
        exact ⟨linked, targetLinked, isDir, apart, all⟩
      · rintro state rfl
        rw [step, moving]
        rfl
  · exact populated_sections file (renameEntry_refused intact.isTree result failed)

theorem rmdirUnlink_sections {path : Path} {isDir : Bool} {code : Int} (file : Path -> Option File)
    (intact : Intact env mount.fs)
    (result : mount.fs.rmdirUnlink env path isDir = .ok (code, next)) :
    Exists fun events => Sections env file mount events { mount with fs := next } := by
  obtain ⟨found, id, lookup, middle, populated, ⟨-, rfl⟩ | ⟨-, linked, removed, type⟩⟩ :=
    rmdirUnlink_cases intact.isTree intact.noLinks result
  · exact populated_sections file populated
  · have leaf : middle.first id = 0 := by
      cases isDir with
      | true => exact type
      | false =>
          obtain ⟨rfl, type⟩ := type
          by_contra some
          have directory := (intact.populated populated).onlyDirectories id id linked .here some
          rw [Stat.isReg_of_isDir directory, Stat.isLnk_of_isDir directory] at type
          exact type.elim (by decide) (by decide)
    obtain ⟨events, before⟩ := populated_sections file populated
    refine ⟨_, before.trans (.metadata (.unlinkRemove id) ?_ ?_)⟩
    · rintro state rfl
      exact ⟨linked, leaf⟩
    · rintro state rfl
      rw [step, removed]
      rfl

omit [DecidableEq Hash] in
/-- The end of a callback that succeeds. -/
theorem succeed_sections {record : JournalRecord} {res : Int} (file : Path -> Option File)
    (result : mount.succeed next record = .ok (res, after)) :
    Sections env file { mount with fs := next } [.journalAppend record] after := by
  obtain ⟨appended, append, result⟩ := bind_eq_ok.mp result
  obtain ⟨-, rfl⟩ := Prod.mk.inj (Except.ok.inj result)
  refine .one _ (fun _ _ => trivial) fun state same => ⟨{ state with toMount := appended }, ?_, rfl⟩
  rw [step, same, append]
  rfl

/-- `mcachefs_rename` reads directories, and moves one entry if it succeeds. -/
theorem rename_sections {path toPath : Path} {res : Int} (file : Path -> Option File)
    (intact : Intact env mount.fs)
    (legal : (TreeCall.renameEntry path toPath).Legal env mount.fs)
    (result : mount.rename env path toPath = .ok (res, after)) :
    Exists fun events => Sections env file mount events after := by
  obtain ⟨⟨code, fs⟩, renamed, result⟩ := bind_eq_ok.mp result
  obtain ⟨events, sections⟩ := renameEntry_sections file intact legal (metadata_eq_ok.mp renamed)
  simp only at result
  split at result
  · obtain ⟨-, rfl⟩ := Prod.mk.inj (Except.ok.inj result)
    exact ⟨events, sections⟩
  · exact ⟨_, sections.trans (succeed_sections file result)⟩

/-- `mcachefs_unlink` and `mcachefs_rmdir` read directories, and remove one entry if they
succeed. -/
theorem remove_sections {path : Path} {isDir : Bool} {res : Int} (file : Path -> Option File)
    (intact : Intact env mount.fs) (result : mount.remove env path isDir = .ok (res, after)) :
    Exists fun events => Sections env file mount events after := by
  obtain ⟨⟨code, fs⟩, removed, result⟩ := bind_eq_ok.mp result
  obtain ⟨events, sections⟩ := rmdirUnlink_sections file intact (metadata_eq_ok.mp removed)
  simp only at result
  split at result
  · obtain ⟨-, rfl⟩ := Prod.mk.inj (Except.ok.inj result)
    exact ⟨events, sections⟩
  · exact ⟨_, sections.trans (succeed_sections file result)⟩

end Calls

/-! ## A mount -/

/-- The virtual files, in the directory that is made for them. -/
def vopsSections (vopsDir : Id) : List SourceEvent :=
  vopsNames.map fun name => .vopsCreate vopsDir (name.take NAME_MAX) (S_IFREG ||| 0o600) (2 ^ 20)

/-- `mcachefs_metadata_populate_vops` after a format. -/
def mountSections (vopsDir : Id) : List SourceEvent :=
  [.getChild rootId, .vopsCreate rootId (vopsName.take (NAME_MAX + 1)) (S_IFDIR ||| 0o700) 0] ++
    vopsSections vopsDir

section Mounts

variable {Hash File : Type} [Inhabited Hash] [DecidableEq Hash] {env : Env Hash}
  {file : Path -> Option File} {condition : SourceFs Hash File -> SourceEvent -> Prop}

omit [DecidableEq Hash] in
/-- Files are made in a directory that stays. -/
theorem vopsCreate_steps {state : SourceFs Hash File} {father : Id} {names : List Component}
    {mode : UInt32} {size : Int} (isTree : IsTree state.fs)
    (linked : father ∈ state.fs.index) (directory : (state.fs.entries father).st.isDir = true)
    (creates : forall (state : SourceFs Hash File) name, father ∈ state.fs.index ->
      (state.fs.entries father).st.isDir = true ->
        condition state (.vopsCreate father name mode size)) :
    EachStep (step env file) condition state
      (names.map fun name => .vopsCreate father (name.take NAME_MAX) mode size) := by
  induction names generalizing state with
  | nil => trivial
  | cons name names inductionHypothesis =>
      obtain ⟨kids, free, tree⟩ := isTree
      have isNode := tree.mem_index.mp linked
      obtain ⟨new, rest, st, fs, result, -, added⟩ :=
        tree.vopsCreate env (name.take NAME_MAX) mode size isNode
      have taken : state.step env file (.vopsCreate father (name.take NAME_MAX) mode size) =
          .ok { state with fs := fs, origin := Function.update state.origin new none } := by
        rw [step, result]
      refine (eachStep_cons taken).mpr ⟨creates state _ linked directory, ?_⟩
      refine inductionHypothesis ⟨_, _, added.tree⟩
        (added.tree.mem_index.mpr ((added.nodes father).mpr (Or.inl isNode))) ?_
      simp only [added.above]
      exact directory

/-- What a run meets on its way to the first call after a mount. -/
theorem mount_steps {st : Stat} {vopsDir : Id} {one two mounted : SourceFs Hash File}
    {events : List SourceEvent} (reads : forall state father, condition state (.getChild father))
    (creates : forall (state : SourceFs Hash File) father name mode size,
      father ∈ state.fs.index -> (state.fs.entries father).st.isDir = true ->
        condition state (.vopsCreate father name mode size))
    (read : (start env st).step env file (.getChild rootId) = .ok one)
    (root : (one.fs.entries rootId).st.isDir = true)
    (made : one.step env file
      (.vopsCreate rootId (vopsName.take (NAME_MAX + 1)) (S_IFDIR ||| 0o700) 0) = .ok two)
    (directory : vopsDir ∈ two.fs.index ∧ (two.fs.entries vopsDir).st.isDir = true)
    (files : (vopsSections vopsDir).foldlM (step env file) two = .ok mounted)
    (later : EachStep (step env file) condition mounted events) :
    EachStep (step env file) condition (start env st) (mountSections vopsDir ++ events) := by
  have first := step_traced (start_traced env file st) (by trivial) (by trivial) read
  have rootLinked := first.intact.isTree.root
  have second := step_traced first (by exact ⟨rootLinked, root⟩) (by trivial) made
  refine (eachStep_cons read).mpr ⟨reads _ _, ?_⟩
  refine (eachStep_cons made).mpr ⟨creates _ _ _ _ _ rootLinked root, ?_⟩
  exact EachStep.append (vopsCreate_steps second.intact.isTree directory.1 directory.2
    fun state name => creates state _ name _ _) files later

omit [DecidableEq Hash] in
theorem mount_run {st : Stat} {vopsDir : Id} {one two mounted last : SourceFs Hash File}
    {events : List SourceEvent} (read : (start env st).step env file (.getChild rootId) = .ok one)
    (made : one.step env file
      (.vopsCreate rootId (vopsName.take (NAME_MAX + 1)) (S_IFDIR ||| 0o700) 0) = .ok two)
    (files : (vopsSections vopsDir).foldlM (step env file) two = .ok mounted)
    (later : events.foldlM (step env file) mounted = .ok last) :
    (mountSections vopsDir ++ events).foldlM (step env file) (start env st) = .ok last := by
  rw [mountSections, List.append_assoc, List.cons_append, List.cons_append, List.nil_append,
    List.foldlM_cons]
  refine bind_eq_ok.mpr ⟨one, read, bind_eq_ok.mpr ⟨two, made, ?_⟩⟩
  rw [List.foldlM_append]
  exact bind_eq_ok.mpr ⟨mounted, files, later⟩

end Mounts

section Directories

variable {Hash : Type} {fs : Fs Hash} {mdata : Id}

theorem not_climbs_root (rootFather : fs.father rootId = 0) (apart : mdata ≠ rootId) :
    ¬ Climbs fs.father mdata rootId := fun climbs =>
  (climbs.inv.resolve_left apart.symm).1 rootFather

theorem allRead_of_all (all : (fs.index.all fun id =>
    (fs.entries id).st.isDir = false ∨ (fs.entries id).child ≠ .unread) = true) :
    AllRead fs mdata := by
  intro id linked _ directory
  have either := of_decide_eq_true (List.all_eq_true.mp all id linked)
  exact either.resolve_left fun file => absurd (file.symm.trans directory) (by decide)

end Directories

/-! ## Runs -/

/-- In a run in which no rename brings a file of the source to the path of another one, a
descriptor of the source is always one of the file that the entry was made of. -/
theorem opens_own {Hash File : Type} [Inhabited Hash] [DecidableEq Hash] (env : Env Hash)
    (file : Path -> Option File) (st : Stat) (events : List SourceEvent)
    (conditions : EachStep (step env file)
      (fun state event => state.Legal event ∧ state.LandsFree file event) (start env st) events) :
    Throughout (step env file) (OpensOwn file) (fun _ => True) (start env st) events :=
  Throughout.ofInvariant (fun _ traced => traced.opensOwn)
    (fun _ _ _ traced holds result => step_traced traced holds.1 holds.2 result)
    (fun _ _ _ _ _ _ => trivial) (start_traced env file st) conditions

/-! ## A file that is moved and comes back -/

/-- An entry that can be moved within the root. -/
def Movable (fs : Fs UInt32) (mdata : Id) : Prop :=
  mdata ∈ fs.index ∧ mdata ≠ rootId ∧ rootId ∈ fs.index ∧
    (fs.entries rootId).st.isDir = true ∧ fs.father rootId = 0 ∧
    (fs.index.all fun id =>
      (fs.entries id).st.isDir = false ∨ (fs.entries id).child ≠ .unread) = true

instance (fs : Fs UInt32) (mdata : Id) : Decidable (Movable fs mdata) :=
  inferInstanceAs (Decidable (_ ∧ _))

theorem Movable.legal {File : Type} {state : SourceFs UInt32 File} {mdata : Id}
    {lname : Component} (movable : Movable state.fs mdata) :
    state.Legal (.moveEntry mdata rootId lname) := by
  obtain ⟨linked, apart, root, directory, rootFather, all⟩ := movable
  exact ⟨linked, root, directory, not_climbs_root rootFather apart, allRead_of_all all⟩

/-- The attributes of a regular file. -/
def fileStat : Stat := { Stat.zero with st_mode := S_IFREG }

/-- A mount of a source with the file `/d/x`. -/
def oneFile : Env UInt32 :=
  { mountedSource with
    source := fun _ names =>
      some (if names = [] then [(ascii "d", directoryStat)]
        else if names = [ascii "d"] then [(ascii "x", fileStat)] else []) }

/-- The files of that source are told by their paths. -/
def oneFileThere (path : Path) : Option Path :=
  if path = ascii "/d/x" then some path else none

/-- A lookup of `/d/x` and `open /d/x`. -/
def openedBelow : List SourceEvent :=
  [.getChild 2, .fileidGet 1 16 (ascii "/d/x") .file]

/-- `rename /d /e`, a read of the file, `rename /e /d`, and another one. -/
def movedAndBack : List SourceEvent :=
  [.moveEntry 2 rootId (ascii "e"), .journalAppend (emptyRecord .rename (ascii "/d") (ascii "/e")),
    .source 1 (.getfd .read none .opened),
    .moveEntry 2 rootId (ascii "d"), .journalAppend (emptyRecord .rename (ascii "/e") (ascii "/d")),
    .source 1 (.getfd .read none .opened)]

/-- The source has nothing that is called `/e` or is below it. -/
theorem oneFileThere_moved (rest : List Component) :
    oneFileThere (absolutePath (ascii "e" :: rest)) = none := by
  rw [absolutePath, if_neg (List.cons_ne_nil _ _)]
  refine if_neg fun same => ?_
  have front : (pathString (ascii "e" :: rest)).take 2 = ascii "/e" := rfl
  rw [same] at front
  exact absurd front (by decide)

/-- While the file is below `/e` its `open` fails, and afterwards it opens its own file. -/
theorem opens_own_movedAndBack : Exists fun last =>
    (mountSections 3 ++ (openedBelow ++ movedAndBack)).foldlM (step oneFile oneFileThere)
        (start oneFile directoryStat) = .ok last ∧
      (last.sources 1).opens = 1 ∧ 16 ∈ last.fs.index ∧ (last.fs.entries 16).fh = 1 ∧
      Throughout (step oneFile oneFileThere) (OpensOwn oneFileThere) (fun _ => True)
        (start oneFile directoryStat) (mountSections 3 ++ (openedBelow ++ movedAndBack)) := by
  have evaluated : (do
      let one ← (start oneFile directoryStat).step oneFile oneFileThere (.getChild rootId)
      let two ← one.step oneFile oneFileThere
        (.vopsCreate rootId (vopsName.take (NAME_MAX + 1)) (S_IFDIR ||| 0o700) 0)
      let mounted ← (vopsSections 3).foldlM (step oneFile oneFileThere) two
      let read ← mounted.step oneFile oneFileThere (.getChild 2)
      let opened ← read.step oneFile oneFileThere (.fileidGet 1 16 (ascii "/d/x") .file)
      let moved ← opened.step oneFile oneFileThere (.moveEntry 2 rootId (ascii "e"))
      let renamed ← moved.step oneFile oneFileThere
        (.journalAppend (emptyRecord .rename (ascii "/d") (ascii "/e")))
      let failed ← renamed.step oneFile oneFileThere (.source 1 (.getfd .read none .opened))
      let back ← failed.step oneFile oneFileThere (.moveEntry 2 rootId (ascii "d"))
      let returned ← back.step oneFile oneFileThere
        (.journalAppend (emptyRecord .rename (ascii "/e") (ascii "/d")))
      let last ← returned.step oneFile oneFileThere (.source 1 (.getfd .read none .opened))
      return [decide ((one.fs.entries rootId).st.isDir = true),
        decide (3 ∈ two.fs.index ∧ (two.fs.entries 3).st.isDir = true),
        decide (16 ∈ read.fs.index ∧ read.fs.mfiles 1 = none),
        decide (read.fs.father 16 = 2 ∧ read.fs.father 2 = rootId ∧
          (read.fs.entries 16).d_name = ascii "x" ∧ (read.fs.entries 2).d_name = ascii "d"),
        decide (Movable opened.fs 2), decide (Movable failed.fs 2),
        failed.fs.index.all fun id => (failed.fs.entries id).st.isReg = false ∨
          failed.origin id = none ∨ failed.origin id = some [ascii "d", ascii "x"],
        decide ((last.sources 1).opens = 1 ∧ 16 ∈ last.fs.index ∧ (last.fs.entries 16).fh = 1)] :
      Except Fault (List Bool)) = .ok (List.replicate 8 true) := by
    decide +kernel
  obtain ⟨one, first, later⟩ := bind_eq_ok.mp evaluated
  obtain ⟨two, second, later⟩ := bind_eq_ok.mp later
  obtain ⟨mounted, files, later⟩ := bind_eq_ok.mp later
  obtain ⟨read, reads, later⟩ := bind_eq_ok.mp later
  obtain ⟨opened, opens, later⟩ := bind_eq_ok.mp later
  obtain ⟨moved, moves, later⟩ := bind_eq_ok.mp later
  obtain ⟨renamed, appends, later⟩ := bind_eq_ok.mp later
  obtain ⟨failed, fails, later⟩ := bind_eq_ok.mp later
  obtain ⟨back, movesBack, later⟩ := bind_eq_ok.mp later
  obtain ⟨returned, rebuilds, later⟩ := bind_eq_ok.mp later
  obtain ⟨last, ends, later⟩ := bind_eq_ok.mp later
  simp only [pure, Except.pure, Except.ok.injEq, List.replicate, List.cons.injEq, and_true,
    decide_eq_true_eq] at later
  obtain ⟨root, directory, ⟨linked, unused⟩, ⟨father, above, name, higher⟩, goes, comes, made,
    result⟩ := later
  have rest : (openedBelow ++ movedAndBack).foldlM (step oneFile oneFileThere) mounted =
      .ok last :=
    bind_eq_ok.mpr ⟨read, reads, bind_eq_ok.mpr ⟨opened, opens, bind_eq_ok.mpr ⟨moved, moves,
      bind_eq_ok.mpr ⟨renamed, appends, bind_eq_ok.mpr ⟨failed, fails, bind_eq_ok.mpr ⟨back,
        movesBack, bind_eq_ok.mpr ⟨returned, rebuilds, bind_eq_ok.mpr ⟨last, ends, rfl⟩⟩⟩⟩⟩⟩⟩⟩
  refine ⟨last, mount_run first second files rest, result.1, result.2.1, result.2.2,
    opens_own oneFile oneFileThere directoryStat _ ?_⟩
  refine mount_steps (fun _ _ => ⟨trivial, trivial⟩)
    (fun _ _ _ _ _ linked isDir => ⟨⟨linked, isDir⟩, trivial⟩) first root second directory files ?_
  refine (eachStep_cons reads).mpr ⟨⟨trivial, trivial⟩, ?_⟩
  refine (eachStep_cons opens).mpr ⟨⟨⟨linked, by decide, unused⟩, fun _ =>
    ⟨[ascii "d", ascii "x"], ?_, by decide⟩⟩, ?_⟩
  · have directory : Named read.fs 2 [ascii "d"] := by
      rw [← higher]
      exact .child (by rw [above]; decide) (by rw [above]; exact .root)
    have below : Named read.fs 16 ([ascii "d"] ++ [(read.fs.entries 16).d_name]) :=
      .child (by rw [father]; decide) (by rw [father]; exact directory)
    rwa [name] at below
  refine (eachStep_cons moves).mpr ⟨⟨goes.legal, ?_⟩, ?_⟩
  · intro id names above rest own _ _ _ _ isRoot _ found there
    obtain rfl := isRoot.unique goes.2.2.2.2.1 .root
    have nothing : oneFileThere (absolutePath ([] ++ (ascii "e").take NAME_MAX :: rest)) = none :=
      oneFileThere_moved rest
    rw [nothing] at there
    cases there
  refine (eachStep_cons appends).mpr ⟨⟨trivial, trivial⟩, ?_⟩
  refine (eachStep_cons fails).mpr ⟨⟨trivial, trivial⟩, ?_⟩
  refine (eachStep_cons movesBack).mpr ⟨⟨comes.legal, ?_⟩, ?_⟩
  · intro id names above rest own linked isReg origin _ _ _ found there
    rcases of_decide_eq_true (List.all_eq_true.mp made id linked) with file | none | own
    · exact absurd (file.symm.trans isReg) (by decide)
    · cases none.symm.trans origin
    · obtain rfl := Option.some.inj (own.symm.trans origin)
      unfold oneFileThere at there
      split at there
      · next same =>
          rw [← Option.some.inj there, same]
          decide
      · cases there
  refine (eachStep_cons rebuilds).mpr ⟨⟨trivial, trivial⟩, ?_⟩
  exact (eachStep_cons ends).mpr ⟨⟨trivial, trivial⟩, trivial⟩

/-! ## A file that takes the place of another one -/

/-- A mount of a source with the files `/a` and `/b`. -/
def twoFiles : Env UInt32 :=
  { mountedSource with
    source := fun _ names =>
      some (if names = [] then [(ascii "a", fileStat), (ascii "b", fileStat)] else []) }

def twoFilesThere (path : Path) : Option Path :=
  if path = ascii "/a" ∨ path = ascii "/b" then some path else none

/-- `rename /a /c`, `rename /b /a`, and `/a` is opened and read. -/
def movedOnto : List SourceEvent :=
  [.moveEntry 2 rootId (ascii "c"), .journalAppend (emptyRecord .rename (ascii "/a") (ascii "/c")),
    .moveEntry 3 rootId (ascii "a"), .journalAppend (emptyRecord .rename (ascii "/b") (ascii "/a")),
    .fileidGet 1 3 (ascii "/a") .file, .source 1 (.getfd .read none .opened)]

/-- The file of the source `/b` is renamed to `/a`, and a read of `/a` gets the `/a` of the
source, although the journal has the rename.  The calls succeed, and the red-black tree takes
the new hashes. -/
theorem movedOnto_opens :
    EachStep (step twoFiles twoFilesThere) (fun state event => state.Legal event)
        (start twoFiles directoryStat) (mountSections 4 ++ movedOnto) ∧
      (Exists fun last => (mountSections 4 ++ movedOnto).foldlM (step twoFiles twoFilesThere)
        (start twoFiles directoryStat) = .ok last ∧ wasRenamed last.journal (ascii "/a") = true) ∧
      ¬ Throughout (step twoFiles twoFilesThere) (OpensOwn twoFilesThere) (fun _ => True)
        (start twoFiles directoryStat) (mountSections 4 ++ movedOnto) ∧
      (do
        let mounted ← metadata (TreeCall.run twoFiles (Fs.format twoFiles directoryStat)
          .populateVops)
        let away ← Mount.rename twoFiles ⟨mounted, []⟩ (ascii "/a") (ascii "/c")
        let onto ← away.2.rename twoFiles (ascii "/b") (ascii "/a")
        let opened ← onto.2.openFile twoFiles allSucceed (ascii "/a")
        let indexed := mounted.insertedIndex >>= fun store =>
          store.rekey 64 2 (twoFiles.hashing.doHash (ascii "/c")).toNat >>= fun store =>
            store.rekey 64 3 (twoFiles.hashing.doHash (ascii "/a")).toNat
        return ([away.1, onto.1, opened.1], (opened.2.fs.entries 3).fh, indexed.isOk) :
          Except Fault (List Int × Fh × Bool)) = .ok ([0, 0, 0], 1, true) := by
  have evaluated : (do
      let one ← (start twoFiles directoryStat).step twoFiles twoFilesThere (.getChild rootId)
      let two ← one.step twoFiles twoFilesThere
        (.vopsCreate rootId (vopsName.take (NAME_MAX + 1)) (S_IFDIR ||| 0o700) 0)
      let mounted ← (vopsSections 4).foldlM (step twoFiles twoFilesThere) two
      let away ← mounted.step twoFiles twoFilesThere (.moveEntry 2 rootId (ascii "c"))
      let left ← away.step twoFiles twoFilesThere
        (.journalAppend (emptyRecord .rename (ascii "/a") (ascii "/c")))
      let onto ← left.step twoFiles twoFilesThere (.moveEntry 3 rootId (ascii "a"))
      let renamed ← onto.step twoFiles twoFilesThere
        (.journalAppend (emptyRecord .rename (ascii "/b") (ascii "/a")))
      let opened ← renamed.step twoFiles twoFilesThere (.fileidGet 1 3 (ascii "/a") .file)
      let last ← opened.step twoFiles twoFilesThere (.source 1 (.getfd .read none .opened))
      return [decide ((one.fs.entries rootId).st.isDir = true),
        decide (4 ∈ two.fs.index ∧ (two.fs.entries 4).st.isDir = true),
        decide (Movable mounted.fs 2), decide (Movable left.fs 3),
        decide (3 ∈ renamed.fs.index ∧ renamed.fs.mfiles 1 = none),
        wasRenamed last.journal (ascii "/a"),
        decide (3 ∈ last.fs.index ∧ (last.fs.entries 3).st.isReg = true ∧
          last.origin 3 = some [ascii "b"] ∧ (last.fs.entries 3).fh = 1 ∧
          (last.sources 1).opens = 1 ∧ last.opened 1 0 = some (ascii "/a"))] :
      Except Fault (List Bool)) = .ok (List.replicate 7 true) := by
    decide +kernel
  obtain ⟨one, first, later⟩ := bind_eq_ok.mp evaluated
  obtain ⟨two, second, later⟩ := bind_eq_ok.mp later
  obtain ⟨mounted, files, later⟩ := bind_eq_ok.mp later
  obtain ⟨away, leaves, later⟩ := bind_eq_ok.mp later
  obtain ⟨left, appends, later⟩ := bind_eq_ok.mp later
  obtain ⟨onto, takes, later⟩ := bind_eq_ok.mp later
  obtain ⟨renamed, rebuilds, later⟩ := bind_eq_ok.mp later
  obtain ⟨opened, opens, later⟩ := bind_eq_ok.mp later
  obtain ⟨last, ends, later⟩ := bind_eq_ok.mp later
  simp only [pure, Except.pure, Except.ok.injEq, List.replicate, List.cons.injEq, and_true,
    decide_eq_true_eq] at later
  obtain ⟨root, directory, goes, comes, ⟨linked, unused⟩, journal, there, isReg, origin, fh,
    number, found⟩ := later
  have rest : movedOnto.foldlM (step twoFiles twoFilesThere) mounted = .ok last :=
    bind_eq_ok.mpr ⟨away, leaves, bind_eq_ok.mpr ⟨left, appends, bind_eq_ok.mpr ⟨onto, takes,
      bind_eq_ok.mpr ⟨renamed, rebuilds, bind_eq_ok.mpr ⟨opened, opens,
        bind_eq_ok.mpr ⟨last, ends, rfl⟩⟩⟩⟩⟩⟩
  have run := mount_run first second files rest
  refine ⟨?_, ⟨last, run, journal⟩, fun throughout => ?_, by decide +kernel⟩
  · refine mount_steps (fun _ _ => trivial) (fun _ _ _ _ _ linked isDir => ⟨linked, isDir⟩) first
      root second directory files ?_
    refine (eachStep_cons leaves).mpr ⟨goes.legal, ?_⟩
    refine (eachStep_cons appends).mpr ⟨trivial, ?_⟩
    refine (eachStep_cons takes).mpr ⟨comes.legal, ?_⟩
    refine (eachStep_cons rebuilds).mpr ⟨trivial, ?_⟩
    refine (eachStep_cons opens).mpr ⟨⟨linked, by decide, unused⟩, ?_⟩
    exact (eachStep_cons ends).mpr ⟨trivial, trivial⟩
  · obtain ⟨numbers, -⟩ := throughout.final run 3 _ there isReg origin (by rw [fh]; decide)
    rw [fh] at numbers
    obtain ⟨other, opened, own⟩ := numbers 0 (by rw [number]; decide)
    obtain rfl := Option.some.inj (found.symm.trans opened)
    exact absurd own (by decide)

end SourceFs

end Lowlevel
end Mcachefs
