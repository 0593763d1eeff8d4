import Mcachefs.Metadata.ShownNames

namespace Mcachefs
namespace Metadata

open Library Journal

/-!
# The names of a new metadata file

A metadata file that has just been formatted shows the names of the source.  The
directory of the virtual files is then made beside them, in a root that has been read,
and hides nothing: the root is read without that name.
-/

variable {Hash : Type} [Inhabited Hash] {env : Env Hash} {st : Stat} {strings : Path -> Prop}
  {space : Namespace Component UInt32} {fs next : Fs Hash} {father id : Id}
  {names : List Component} {name : Component}

/-! ## The source -/

omit [Inhabited Hash] in
/-- What the source has is below directories that it has. -/
theorem Env.names_closed (isDir : st.isDir = true) : (env.names st).Closed IsDirectory := by
  refine ⟨⟨fileKind st, rfl, isDirectory_fileKind.mpr isDir⟩, fun names name present => ?_⟩
  obtain ⟨kind, some⟩ := Option.ne_none_iff_exists'.mp present
  obtain ⟨here, inSource, -⟩ := Option.map_eq_some_iff.mp some
  rw [Env.below_concat] at inSource
  obtain ⟨above, place, lookup⟩ := Option.bind_eq_some_iff.mp inSource
  split at lookup
  · next directory =>
      refine ⟨fileKind above, ?_, isDirectory_fileKind.mpr directory⟩
      rw [Env.names, place, Option.map_some]
  · cases lookup

omit [Inhabited Hash] in
/-- The root is read without the name of the virtual directory. -/
theorem Env.below_virtual (virtual : VirtualNames names) : env.below [] st names = none := by
  cases names with
  | nil => cases virtual
  | cons first names =>
      obtain rfl : first = vopsName := Option.some.inj virtual
      rw [Env.below]
      split
      · rw [List.lookup_eq_none_iff.mpr, Option.bind_none]
        intro de member
        have visible := (List.mem_filter.mp member).2
        simp only [decide_eq_true_eq, true_and] at visible
        exact bne_iff_ne.mpr (Ne.symm visible.2)
      · rfl

/-- What agrees with the source shows its names. -/
theorem Mirrors.showing (mirrors : Mirrors env st fs) (noLinks : NoLinks fs)
    (quiet : QuietSource env st strings) (isDir : st.isDir = true) :
    Showing env st strings (env.names st) fs where
  sound := by
    refine ⟨mirrors.isTree, mirrors.hashes, mirrors.noTwins, noLinks, fun id linked below => ?_,
      fun id linked some => ?_⟩
    · obtain ⟨names, named, isRoot, -⟩ := mirrors.named linked
      have inSource := mirrors.there id names linked named
      rcases List.eq_nil_or_concat names with none | ⟨front, name, isConcat⟩
      · exact absurd (isRoot.mpr none) below
      · rw [List.concat_eq_append] at isConcat
        subst isConcat
        rw [named.concat_inv.2.2]
        rw [Env.below_concat] at inSource
        obtain ⟨above, -, lookup⟩ := Option.bind_eq_some_iff.mp inSource
        split at lookup
        · have member := (lookup_eq_some_iff (quiet.steady.listing_nodup front)).mp lookup
          have entry := (List.mem_filter.mp member).1
          cases answer : env.source 0 front with
          | none => simp [answer] at entry
          | some des =>
              rw [answer, Option.getD_some] at entry
              exact quiet.steady.components front des answer _ entry
        · cases lookup
    · obtain ⟨names, named, -⟩ := mirrors.named linked
      obtain ⟨childLinked, above⟩ := mirrors.isTree.first linked some
      have childBelow : fs.first id ≠ rootId := by
        intro isRoot
        rw [isRoot, mirrors.rootFather] at above
        exact mirrors.isTree.ne_zero linked above.symm
      have hasName : HasName fs id (fs.entries (fs.first id)).d_name :=
        mirrors.isTree.hasName_iff.mpr ⟨_, childLinked, childBelow, above, rfl⟩
      obtain ⟨here, inSource⟩ := mirrors.hasName_source linked named hasName
      rw [mirrors.below_child linked named] at inSource
      split at inSource
      · assumption
      · cases inSource
  within := fun id names linked named =>
    quiet.strings names _ (mirrors.there id names linked named)
  closed := Env.names_closed isDir
  real := fun names virtual => by rw [Env.names, Env.below_virtual virtual, Option.map_none]
  there := fun id names linked named _ => by
    rw [Env.names, mirrors.there id names linked named, Option.map_some]
  all := fun father names linked named known name present => by
    obtain ⟨kind, some⟩ := Option.ne_none_iff_exists'.mp present
    obtain ⟨here, inSource, -⟩ := Option.map_eq_some_iff.mp some
    exact mirrors.all father names linked named known name here inSource
  origin := fun _ _ _ _ _ _ _ _ => rfl

/-- What is open, and how often the source has been read, is nothing to the entries. -/
theorem Mirrors.withFiles (mirrors : Mirrors env st fs) (mfiles : Transfer.Fh -> Option Mfile)
    (reads : Nat) : Mirrors env st { fs with mfiles := mfiles, reads := reads } := by
  have same : Retouched fs { fs with mfiles := mfiles, reads := reads } :=
    ⟨fun _ => rfl, fun _ => rfl, fun _ _ => rfl, rfl, rfl, rfl⟩
  refine ⟨same.isTree mirrors.isTree, ⟨mirrors.hashes.rootHash, mirrors.hashes.rootName, mirrors.hashes.below⟩, mirrors.noTwins,
    fun id names linked named => mirrors.there id names linked (same.named_iff.mp named),
    fun father names linked named => mirrors.all father names linked (same.named_iff.mp named)⟩

/-- What agrees with the source has no virtual files. -/
theorem Mirrors.not_virtual (mirrors : Mirrors env st fs) (linked : id ∈ fs.index)
    (named : Named fs id names) : ¬ VirtualNames names := by
  intro virtual
  have inSource := mirrors.there id names linked named
  rw [Env.below_virtual virtual] at inSource
  cases inSource

/-! ## The virtual files -/

/-- A virtual file adds nothing to the names. -/
theorem Showing.added_virtual {kids : Id -> List Id} {free rest : List Id} {here : Stat}
    {child : Child} (shown : Showing env st strings space fs) (tree : Tree fs kids free)
    (linked : father ∈ fs.index) (named : Named fs father names)
    (isDir : (fs.entries father).st.isDir = true)
    (known : VirtualNames names ∨ (fs.entries father).child ≠ .unread)
    (absent : ¬ HasName fs father name) (component : IsComponent name)
    (virtual : VirtualNames (names ++ [name])) (string : strings (absolutePath (names ++ [name])))
    (leaf : child.id = 0) (added : Added env fs kids free father id name here child next rest) :
    Showing env st strings space next := by
  have isNode := tree.mem_index.mp linked
  have sound := shown.sound.added tree linked isDir absent component leaf added
  have newNamed := added.named_new tree isNode named
  have old_or : forall {other}, other ∈ next.index -> other ∈ fs.index ∨ other = id := fun there =>
    ((added.nodes _).mp (added.tree.mem_index.mp there)).imp_left tree.mem_index.mpr
  have back : forall {other own}, other ∈ fs.index -> Named next other own -> Named fs other own :=
    fun old => added.named_old shown.sound tree old
  have isNew : forall {own}, Named next id own -> own = names ++ [name] := fun there =>
    there.unique sound.rootFather newNamed
  have apart : forall {other own}, other ∈ next.index -> Named next other own -> ¬ VirtualNames own ->
      other ∈ fs.index ∧ Named fs other own := by
    intro other own there ownNamed real
    rcases old_or there with old | rfl
    · exact ⟨old, back old ownNamed⟩
    · exact absurd (isNew ownNamed ▸ virtual) real
  refine ⟨sound, fun other own there ownNamed => ?_, shown.closed, shown.real,
    fun other own there ownNamed real => ?_, fun other own there ownNamed ownKnown last present => ?_,
    fun other own there ownNamed real unread otherDir => ?_⟩
  · rcases old_or there with old | rfl
    · exact shown.within other own old (back old ownNamed)
    · rw [isNew ownNamed]
      exact string
  · obtain ⟨old, ownOld⟩ := apart there ownNamed real
    rw [shown.there other own old ownOld real]
    by_cases same : other = father
    · rw [same, added.above]
    · rw [added.kept other (tree.mem_index.mp old) same]
  · have real : ¬ VirtualNames own := fun ownVirtual => shown.not_virtual present ownVirtual.append
    obtain ⟨old, ownOld⟩ := apart there ownNamed real
    have knownOld : (fs.entries other).child ≠ .unread := by
      by_cases same : other = father
      · subst same
        obtain rfl := ownOld.unique shown.sound.rootFather named
        exact known.resolve_left real
      · rw [added.kept other (tree.mem_index.mp old) same] at ownKnown
        exact ownKnown
    obtain ⟨child, childLinked, childNamed⟩ := (shown.sound.hasName_iff old ownOld).mp
      (shown.all other own old ownOld knownOld last present)
    have childNode := tree.mem_index.mp childLinked
    exact (sound.hasName_iff there ownNamed).mpr
      ⟨child, added.tree.mem_index.mpr ((added.nodes child).mpr (Or.inl childNode)),
        added.named tree childNode childNamed⟩
  · obtain ⟨old, ownOld⟩ := apart there ownNamed real
    have same : other ≠ father := by
      rintro rfl
      rw [added.above] at unread
      exact Child.first_ne_unread id unread
    rw [added.kept other (tree.mem_index.mp old) same] at unread otherDir
    exact shown.origin other own old ownOld real unread otherDir

/-- The virtual files have different names, and nothing else is hashed like them. -/
structure VopsFiles (env : Env Hash) (strings : Path -> Prop) : Prop where
  some : env.vops_list ≠ []
  nodup : env.vops_list.Nodup
  components : forall name, name ∈ env.vops_list -> IsComponent name
  short : forall name, name ∈ env.vops_list -> name.length ≤ NAME_MAX
  directory : strings (absolutePath [vopsName])
  files : forall name, name ∈ env.vops_list -> strings (absolutePath [vopsName, name])

/-- The virtual directory, with the files that are still to be made. -/
structure VopsMade (env : Env Hash) (st : Stat) (strings : Path -> Prop)
    (space : Namespace Component UInt32) (father : Id) (left : List Component) (fs : Fs Hash) :
    Prop where
  showing : Showing env st strings space fs
  rootRead : (fs.entries rootId).child ≠ .unread
  linked : father ∈ fs.index
  named : Named fs father [vopsName]
  isDir : (fs.entries father).st.isDir = true
  only : forall id names, id ∈ fs.index -> Named fs id names -> VirtualNames names ->
    (fs.entries id).st.isDir = true -> id = father
  absent : forall name, name ∈ left -> ¬ HasName fs father name

variable [DecidableEq Hash]

omit [DecidableEq Hash] in
theorem VopsMade.createFile (made : VopsMade env st strings space father (name :: names) fs)
    (files : VopsFiles env strings) (member : name ∈ env.vops_list) (once : name ∉ names) :
    VopsMade env st strings space father names (Fs.vopsCreateFile env father fs name) ∧
      ((Fs.vopsCreateFile env father fs name).entries father).child ≠ .unread := by
  have isTree := made.showing.sound.isTree
  obtain ⟨kids, free, tree⟩ := isTree
  have isNode := tree.mem_index.mp made.linked
  obtain ⟨id, rest, here, next, result, mode, added⟩ :=
    tree.vopsCreate env (name.take NAME_MAX) (S_IFREG ||| 0o600) (2 ^ 20) isNode
  have file : Fs.vopsCreateFile env father fs name = next := congrArg Prod.snd result
  rw [List.take_of_length_le (files.short name member)] at added
  rw [file]
  have virtual : VirtualNames ([vopsName] ++ [name]) := rfl
  have showing := made.showing.added_virtual tree made.linked made.named made.isDir (Or.inl rfl)
    (made.absent name List.mem_cons_self) (files.components name member) virtual
    (files.files name member) rfl added
  have linked : father ∈ next.index := added.tree.mem_index.mpr ((added.nodes _).mpr (Or.inl isNode))
  have named := added.named tree isNode made.named
  have first : (next.entries father).child ≠ .unread := by
    rw [added.above]
    exact Child.first_ne_unread id
  refine ⟨⟨showing, ?_, linked, named, ?_, ?_, ?_⟩, first⟩
  · by_cases isRoot : rootId = father
    · exact isRoot ▸ first
    · rw [added.kept rootId tree.shape.root isRoot]
      exact made.rootRead
  · rw [added.above]
    exact made.isDir
  · intro other own there ownNamed ownVirtual otherDir
    rcases ((added.nodes _).mp (added.tree.mem_index.mp there)) with old | rfl
    · by_contra apart
      rw [added.kept other old apart] at otherDir
      have oldLinked := tree.mem_index.mpr old
      exact apart (made.only other own oldLinked
        (added.named_old made.showing.sound tree oldLinked ownNamed) ownVirtual otherDir)
    · rw [added.entry, Stat.isDir, mode] at otherDir
      exact absurd otherDir (by decide)
  · intro other otherMember hasName
    obtain ⟨child, childLinked, childNamed⟩ := (showing.sound.hasName_iff linked named).mp hasName
    rcases ((added.nodes _).mp (added.tree.mem_index.mp childLinked)) with old | rfl
    · have oldLinked := tree.mem_index.mpr old
      exact made.absent other (List.mem_cons_of_mem _ otherMember)
        ((made.showing.sound.hasName_iff made.linked made.named).mpr
          ⟨child, oldLinked, added.named_old made.showing.sound tree oldLinked childNamed⟩)
    · have same := childNamed.unique showing.sound.rootFather
        (added.named_new tree isNode made.named)
      obtain rfl : other = name := by simpa using same
      exact once otherMember

omit [DecidableEq Hash] in
/-- The loop of `mcachefs_metadata_populate_vops` over the virtual files. -/
theorem VopsMade.createFiles (made : VopsMade env st strings space father names fs)
    (files : VopsFiles env strings) (members : forall name, name ∈ names -> name ∈ env.vops_list)
    (nodup : names.Nodup) : VopsMade env st strings space father []
        (names.foldl (Fs.vopsCreateFile env father) fs) ∧
      (names ≠ [] ∨ (fs.entries father).child ≠ .unread ->
        ((names.foldl (Fs.vopsCreateFile env father) fs).entries father).child ≠ .unread) := by
  induction names generalizing fs with
  | nil => exact ⟨made, fun known => known.resolve_left (· rfl)⟩
  | cons name names inductionHypothesis =>
      obtain ⟨once, nodup⟩ := List.nodup_cons.mp nodup
      obtain ⟨after, first⟩ := made.createFile files (members name List.mem_cons_self) once
      obtain ⟨whole, known⟩ := inductionHypothesis after
        (fun other member => members other (List.mem_cons_of_mem _ member)) nodup
      exact ⟨whole, fun _ => known (Or.inr first)⟩

omit [DecidableEq Hash] in
/-- There is no virtual directory before it has been made. -/
theorem vopsRemovePrevious_nothing (mirrors : Mirrors env st fs) (steady : env.Steady st)
    (result : fs.vopsRemovePrevious env rootId = .ok next) : Populated env fs next := by
  obtain ⟨⟨child, middle⟩, read, result⟩ := bind_eq_ok.mp result
  obtain ⟨found, search, result⟩ := bind_eq_ok.mp result
  have populated : Populated env fs middle := .step .refl mirrors.isTree.root read
  have middleMirrors := mirrors.populated steady populated
  have isTree := mirrors.isTree
  obtain ⟨kids, free, tree⟩ := isTree
  obtain ⟨childEq, -⟩ := tree.getChild (tree.mem_index.mp mirrors.isTree.root) read
  rw [childEq] at search
  split at result
  · obtain rfl := Except.ok.inj result
    exact populated
  · next present =>
      obtain ⟨linked, below, above, spelled⟩ := (middleMirrors.isTree.findSibling
        middleMirrors.isTree.root search).resolve_left present
      have same : (middle.entries found).d_name = vopsName := by
        rw [strncmpEqual, decide_eq_true_eq] at spelled
        have letters := congrArg List.length spelled
        have known : (vopsName.take NAME_MAX).length = 9 := by decide
        rw [known, List.length_take] at letters
        have short : (middle.entries found).d_name.length ≤ NAME_MAX := by
          have limit : NAME_MAX = 255 := rfl
          omega
        rw [List.take_of_length_le short] at spelled
        exact spelled
      have named : Named middle found [vopsName] := by
        have child : Named middle found ([] ++ [(middle.entries found).d_name]) :=
          .child (by rw [above]; decide) (by rw [above]; exact .root)
        rwa [same] at child
      exact absurd rfl (middleMirrors.not_virtual linked named)

omit [DecidableEq Hash] in
/-- The virtual files are made in a metadata file that agrees with the source. -/
theorem Mirrors.populateVops_shows (start : Mirrors env st fs) (startLinks : NoLinks fs)
    (quiet : QuietSource env st strings) (files : VopsFiles env strings) (isDir : st.isDir = true)
    (result : fs.populateVops env = .ok next) : Shows env st strings (env.names st) next := by
  obtain ⟨⟨child, first⟩, read, result⟩ := bind_eq_ok.mp result
  obtain ⟨second, cleared, result⟩ := bind_eq_ok.mp result
  have ends : env.vops_list.foldl (Fs.vopsCreateFile env (second.vopsCreateDir env rootId).1)
      (second.vopsCreateDir env rootId).2 = next := Except.ok.inj result
  have firstRead : Populated env fs first := .step .refl start.isTree.root read
  have firstMirrors := start.populated quiet.steady firstRead
  have further := vopsRemovePrevious_nothing firstMirrors quiet.steady cleared
  have mirrors := firstMirrors.populated quiet.steady further
  have noLinks := (firstRead.trans further).noLinks start.isTree startLinks
  have showing := mirrors.showing noLinks quiet isDir
  have rootStat : (second.entries rootId).st = st := by
    have inSource := mirrors.there rootId [] mirrors.isTree.root .root
    exact (Option.some.inj inSource).symm
  have rootRead : (second.entries rootId).child ≠ .unread := by
    have known : (first.entries rootId).child ≠ .unread := by
      have before := start.showing startLinks quiet isDir
      refine before.read_known (fun id names linked named virtual =>
        absurd virtual (start.not_virtual linked named)) quiet start.isTree.root ?_ read
      rw [← Option.some.inj (start.there rootId [] start.isTree.root .root)]
      exact isDir
    rw [(further.stays firstMirrors.isTree firstMirrors.isTree.root).child known]
    exact known
  have isTree := mirrors.isTree
  obtain ⟨kids, free, tree⟩ := isTree
  have isNode := tree.mem_index.mp mirrors.isTree.root
  obtain ⟨id, rest, here, third, made, mode, added⟩ :=
    tree.vopsCreate env (vopsName.take (NAME_MAX + 1)) (S_IFDIR ||| 0o700) 0 isNode
  have whole : vopsName.take (NAME_MAX + 1) = vopsName := by decide
  have directory : second.vopsCreateDir env rootId = (id, third) := made
  rw [whole] at added
  have absent : ¬ HasName second rootId vopsName := by
    intro hasName
    obtain ⟨child, linked, named⟩ := (mirrors.hasName_iff mirrors.isTree.root .root).mp hasName
    exact mirrors.not_virtual linked named rfl
  have component : IsComponent vopsName := by decide
  have virtualDirectory : VirtualNames ([] ++ [vopsName]) := rfl
  have thirdShowing := showing.added_virtual tree mirrors.isTree.root .root
    (rootStat.symm ▸ isDir) (Or.inr rootRead) absent component virtualDirectory files.directory rfl
    added
  have linked : id ∈ third.index := added.tree.mem_index.mpr ((added.nodes id).mpr (Or.inr rfl))
  have named : Named third id [vopsName] := added.named_new tree isNode .root
  have before : VopsMade env st strings (env.names st) id env.vops_list third := by
    refine ⟨thirdShowing, ?_, linked, named, ?_, fun other own there ownNamed virtual _ => ?_,
      fun name _ hasName => ?_⟩
    · rw [added.above]
      exact Child.first_ne_unread id
    · rw [added.entry, Stat.isDir, mode]
      decide
    · rcases ((added.nodes _).mp (added.tree.mem_index.mp there)) with old | isNew
      · have oldLinked := tree.mem_index.mpr old
        exact absurd virtual (mirrors.not_virtual oldLinked
          (added.named_old showing.sound tree oldLinked ownNamed))
      · exact isNew
    · refine thirdShowing.sound.hasName_first linked hasName ?_
      rw [Fs.first, added.entry]
      rfl
  obtain ⟨last, filled⟩ := before.createFiles files (fun _ member => member) files.nodup
  rw [← ends, directory]
  refine ⟨last.showing, last.rootRead, fun other own there ownNamed virtual otherDir => ?_⟩
  rw [last.only other own there ownNamed virtual otherDir]
  exact filled (Or.inl files.some)

/-! ## Open files -/

omit [DecidableEq Hash] in
theorem Populated.mfiles (populated : Populated env fs next) (isTree : IsTree fs) :
    next.mfiles = fs.mfiles := by
  induction populated with
  | refl => rfl
  | step before linked read inductionHypothesis =>
      rw [← inductionHypothesis]
      obtain ⟨kids, free, tree⟩ := before.isTree isTree
      obtain ⟨-, same | ⟨-, -, -, _, _, _, -, -, rest, new, grown⟩⟩ :=
        tree.getChild (tree.mem_index.mp linked) read
      · rw [same]
      · exact grown.mfiles

omit [DecidableEq Hash] in
theorem vopsCreate_mfiles (name : Component) (mode : UInt32) (size : Int) :
    (fs.vopsCreate env father name mode size).2.mfiles = fs.mfiles := by
  unfold Fs.vopsCreate Fs.allocate
  simp only
  split <;> rfl

omit [DecidableEq Hash] in
theorem vopsCreateFiles_mfiles (names : List Component) :
    (names.foldl (Fs.vopsCreateFile env father) fs).mfiles = fs.mfiles := by
  induction names generalizing fs with
  | nil => rfl
  | cons name names inductionHypothesis =>
      rw [List.foldl_cons, inductionHypothesis, Fs.vopsCreateFile, vopsCreate_mfiles]

omit [DecidableEq Hash] in
/-- Making the virtual files leaves the open files alone. -/
theorem Mirrors.populateVops_mfiles (start : Mirrors env st fs) (steady : env.Steady st)
    (result : fs.populateVops env = .ok next) : next.mfiles = fs.mfiles := by
  obtain ⟨⟨child, first⟩, read, result⟩ := bind_eq_ok.mp result
  obtain ⟨second, cleared, result⟩ := bind_eq_ok.mp result
  have ends : env.vops_list.foldl (Fs.vopsCreateFile env (second.vopsCreateDir env rootId).1)
      (second.vopsCreateDir env rootId).2 = next := Except.ok.inj result
  have firstRead : Populated env fs first := .step .refl start.isTree.root read
  have further := vopsRemovePrevious_nothing (start.populated steady firstRead) steady cleared
  rw [← ends, vopsCreateFiles_mfiles, Fs.vopsCreateDir, vopsCreate_mfiles,
    (firstRead.trans further).mfiles start.isTree]

end Metadata
end Mcachefs
