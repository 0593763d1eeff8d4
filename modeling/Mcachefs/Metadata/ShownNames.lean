import Mcachefs.Journal.NamesReplay
import Mcachefs.Metadata.NamedEntries
import Mcachefs.Metadata.PathBuffers

namespace Mcachefs
namespace Metadata

open Library Journal

/-!
# The names that the metadata shows

`Shows` relates the entries to a namespace: what is linked is there, and a directory
that has been read has everything.  A directory that has not been read shows what the
source has at its place, and so the namespace must be as the source is there; nothing
that is made, removed or moved may come below it before it has been read.

Each operation of the metadata does to the namespace what the call of its name does
to the names of a file system.
-/

variable {Hash : Type}

/-- What the source has at a list of names. -/
def Env.names (env : Env Hash) (st : Stat) : Namespace Component UInt32 :=
  fun names => (env.below [] st names).map fileKind

/-- The names of the virtual directory and of what is in it. -/
def VirtualNames (names : List Component) : Prop := names.head? = some vopsName

instance (names : List Component) : Decidable (VirtualNames names) :=
  inferInstanceAs (Decidable (names.head? = some vopsName))

/-- A source that does not change, and whose paths the hash tells apart. -/
structure QuietSource (env : Env Hash) (st : Stat) (strings : Path -> Prop) : Prop where
  steady : env.Steady st
  apart : Apart env strings
  strings : forall names here, env.below [] st names = some here -> strings (absolutePath names)

/-- The directories of the virtual files are never read from the source. -/
def VirtualRead (fs : Fs Hash) : Prop :=
  forall id names, id ∈ fs.index -> Named fs id names -> VirtualNames names ->
    (fs.entries id).st.isDir = true -> (fs.entries id).child ≠ .unread

/-- The entries show a namespace, but for the virtual ones. -/
structure Showing [Inhabited Hash] (env : Env Hash) (st : Stat) (strings : Path -> Prop)
    (space : Namespace Component UInt32) (fs : Fs Hash) : Prop where
  sound : Sound env fs
  within : Within strings fs
  closed : space.Closed IsDirectory
  real : forall names, VirtualNames names -> space names = none
  there : forall id names, id ∈ fs.index -> Named fs id names -> ¬ VirtualNames names ->
    space names = some (fileKind (fs.entries id).st)
  all : forall father names, father ∈ fs.index -> Named fs father names ->
    (fs.entries father).child ≠ .unread -> forall name, space (names ++ [name]) ≠ none ->
      HasName fs father name
  origin : forall id names, id ∈ fs.index -> Named fs id names -> ¬ VirtualNames names ->
    (fs.entries id).child = .unread -> (fs.entries id).st.isDir = true ->
      forall rest, space (names ++ rest) = env.names st (names ++ rest)

/-- The same once the virtual files have been made. -/
structure Shows [Inhabited Hash] (env : Env Hash) (st : Stat) (strings : Path -> Prop)
    (space : Namespace Component UInt32) (fs : Fs Hash) : Prop
    extends Showing env st strings space fs where
  rootRead : (fs.entries rootId).child ≠ .unread
  virtualRead : VirtualRead fs

theorem isDirectory_fileKind {st : Stat} : IsDirectory (fileKind st) ↔ st.isDir = true := by
  unfold IsDirectory fileKind Stat.isDir
  rw [decide_eq_true_eq]

theorem VirtualNames.append {names rest : List Component} (virtual : VirtualNames names) :
    VirtualNames (names ++ rest) := by
  unfold VirtualNames at virtual ⊢
  cases names with
  | nil => cases virtual
  | cons name names => exact virtual

section Shows

variable [Inhabited Hash] {env : Env Hash} {st : Stat} {strings : Path -> Prop}
  {space : Namespace Component UInt32} {fs next : Fs Hash} {father id : Id}
  {names : List Component} {name : Component}

/-- A directory that has not been read is not virtual, and shows the source. -/
def ShowsUnread (env : Env Hash) (st : Stat) (space : Namespace Component UInt32) (fs : Fs Hash) :
    Prop :=
  forall id names, id ∈ fs.index -> Named fs id names -> (fs.entries id).child = .unread ->
    (fs.entries id).st.isDir = true -> ¬ VirtualNames names ∧
      forall rest, space (names ++ rest) = env.names st (names ++ rest)

omit [Inhabited Hash] in
theorem ShowsUnread.virtualRead (unread : ShowsUnread env st space fs) : VirtualRead fs :=
  fun id names linked named virtual isDir known => (unread id names linked named known isDir).1 virtual

namespace Showing

/-- What the namespace has is not virtual. -/
theorem not_virtual (shown : Showing env st strings space fs) (there : space names ≠ none) :
    ¬ VirtualNames names := fun virtual => there (shown.real names virtual)

theorem unread (shown : Showing env st strings space fs) (virtualRead : VirtualRead fs) :
    ShowsUnread env st space fs := fun id names linked named unread isDir =>
  have real : ¬ VirtualNames names := fun virtual => virtualRead id names linked named virtual isDir unread
  ⟨real, shown.origin id names linked named real unread isDir⟩

/-- A directory of the namespace is an entry that is one. -/
theorem hasDirectory (shown : Showing env st strings space fs) (linked : id ∈ fs.index)
    (named : Named fs id names) (real : ¬ VirtualNames names) :
    space.HasDirectory IsDirectory names ↔ (fs.entries id).st.isDir = true := by
  rw [← isDirectory_fileKind]
  constructor
  · rintro ⟨kind, here, isDirectory⟩
    rw [shown.there id names linked named real] at here
    exact Option.some.inj here ▸ isDirectory
  · exact fun isDirectory => ⟨_, shown.there id names linked named real, isDirectory⟩

/-- Only a directory that has been read is above an entry. -/
theorem read_above (shown : Showing env st strings space fs) (linked : id ∈ fs.index)
    (named : Named fs id names) {rest : List Component} (known : Known fs (names ++ rest))
    (some : rest ≠ []) : (fs.entries id).child ≠ .unread :=
  Sound.first_ne_unread (shown.sound.first_above linked named known some)

end Showing

theorem Shows.unread (shown : Shows env st strings space fs) : ShowsUnread env st space fs :=
  shown.toShowing.unread shown.virtualRead

theorem Shows.ofUnread (sound : Sound env fs) (within : Within strings fs)
    (closed : space.Closed IsDirectory) (real : forall names, VirtualNames names -> space names = none)
    (rootRead : (fs.entries rootId).child ≠ .unread)
    (there : forall id names, id ∈ fs.index -> Named fs id names -> ¬ VirtualNames names ->
      space names = some (fileKind (fs.entries id).st))
    (all : forall father names, father ∈ fs.index -> Named fs father names ->
      (fs.entries father).child ≠ .unread -> forall name, space (names ++ [name]) ≠ none ->
        HasName fs father name)
    (unread : ShowsUnread env st space fs) : Shows env st strings space fs where
  sound := sound
  within := within
  closed := closed
  real := real
  there := there
  all := all
  origin := fun id names linked named _ known isDir => (unread id names linked named known isDir).2
  rootRead := rootRead
  virtualRead := unread.virtualRead

/-! ## Reading a directory -/

variable [DecidableEq Hash]

omit [DecidableEq Hash] in
/-- An entry keeps its names when directories are read. -/
theorem Sound.named_old (sound : Sound env fs) (linked : id ∈ fs.index)
    (populated : Populated env fs next) (named : Named next id names) : Named fs id names := by
  obtain ⟨own, ownNamed, -⟩ := sound.named linked
  have nextTree := populated.isTree sound.isTree
  have rootFather : next.father rootId = 0 := (nextTree.father_eq_zero nextTree.root).mpr rfl
  rw [named.unique rootFather (ownNamed.populated sound.isTree linked populated)]
  exact ownNamed

omit [DecidableEq Hash] in
/-- A directory that has not been read is one of the source. -/
theorem Showing.inSource (shown : Showing env st strings space fs) (virtualRead : VirtualRead fs)
    (linked : father ∈ fs.index) (named : Named fs father names)
    (unread : (fs.entries father).child = .unread)
    (directory : (fs.entries father).st.isDir = true) :
    Exists fun here => env.below [] st names = some here ∧ here.isDir = true := by
  obtain ⟨real, same⟩ := shown.unread virtualRead father names linked named unread directory
  have origin := same []
  rw [List.append_nil, shown.there father names linked named real, Env.names] at origin
  obtain ⟨here, inSource, kind⟩ := Option.map_eq_some_iff.mp origin.symm
  refine ⟨here, inSource, ?_⟩
  rw [← isDirectory_fileKind, kind, isDirectory_fileKind]
  exact directory

omit [DecidableEq Hash] in
/-- What a directory shows that has not been read is what reading it enters. -/
theorem Showing.listing (shown : Showing env st strings space fs) (virtualRead : VirtualRead fs)
    (linked : father ∈ fs.index) (named : Named fs father names)
    (unread : (fs.entries father).child = .unread)
    (directory : (fs.entries father).st.isDir = true) (name : Component) (rest : List Component) :
    space (names ++ name :: rest) =
      (((env.listing names).lookup name).bind fun here =>
        env.below (names ++ [name]) here rest).map fileKind := by
  obtain ⟨-, same⟩ := shown.unread virtualRead father names linked named unread directory
  obtain ⟨here, inSource, isDir⟩ := shown.inSource virtualRead linked named unread directory
  rw [same, Env.names, ← List.singleton_append, ← List.append_assoc, Env.below_append,
    Env.below_concat, inSource, Option.bind_some, if_pos isDir, List.nil_append]

omit [DecidableEq Hash] in
theorem Showing.getChild {child : Id} (shown : Showing env st strings space fs)
    (virtualRead : VirtualRead fs) (quiet : QuietSource env st strings) (linked : father ∈ fs.index)
    (read : fs.getChild env father = .ok (child, next)) :
    Showing env st strings space next ∧ VirtualRead next := by
  have steady := quiet.steady
  have sound := shown.sound
  have nextTree := getChild_isTree sound.isTree linked read
  have populated : Populated env fs next := .step .refl linked read
  obtain ⟨names, named, isRoot, -⟩ := sound.named linked
  have stays : forall id, id ∈ fs.index -> Stays fs next id := fun id old =>
    populated.stays sound.isTree old
  have back : forall {id own}, id ∈ fs.index -> Named next id own -> Named fs id own :=
    fun old => sound.named_old old populated
  have twins := sound.noTwins.getChild sound.isTree steady.lists linked read
  have hashed := sound.hashes.getChild sound.isTree linked read
  have noLinks := populated.noLinks sound.isTree sound.noLinks
  suffices both : Sound env next ∧ (Within strings next ∧ (forall id names, id ∈ next.index ->
      Named next id names -> ¬ VirtualNames names -> space names = some (fileKind (next.entries id).st)) ∧
      forall father names, father ∈ next.index -> Named next father names ->
        (next.entries father).child ≠ .unread -> forall name, space (names ++ [name]) ≠ none ->
          HasName next father name) ∧ ShowsUnread env st space next by
    obtain ⟨nextSound, ⟨within, there, all⟩, unread⟩ := both
    exact ⟨⟨nextSound, within, shown.closed, shown.real, there, all,
      fun id names linked named _ known isDir => (unread id names linked named known isDir).2⟩,
      unread.virtualRead⟩
  have showsUnread := shown.unread virtualRead
  have isTree := sound.isTree
  obtain ⟨kids, free, tree⟩ := isTree
  have isNode := tree.mem_index.mp linked
  obtain ⟨-, same | ⟨unread, directory, -, way, top, des, climbed, answered, rest, new, grown⟩⟩ :=
    tree.getChild isNode read
  · have entries : next.entries = fs.entries := by rw [same]
    have index : next.index = fs.index := by rw [same]
    have first : next.first = fs.first := by funext id; rw [Fs.first, Fs.first, entries]
    refine ⟨⟨nextTree, hashed, twins, noLinks, ?_, ?_⟩, ⟨?_, ?_, ?_⟩, ?_⟩
    · rw [entries, index]
      exact sound.components
    · rw [entries, index, first]
      exact sound.directories
    · intro id own idLinked idNamed
      rw [index] at idLinked
      exact shown.within id own idLinked (back idLinked idNamed)
    · intro id own idLinked idNamed real
      rw [index] at idLinked
      rw [entries]
      exact shown.there id own idLinked (back idLinked idNamed) real
    · intro other own otherLinked otherNamed known name present
      rw [index] at otherLinked
      rw [entries] at known
      exact (shown.all other own otherLinked (back otherLinked otherNamed) known name
        present).populated sound.isTree populated
    · intro id own idLinked idNamed idUnread isDir
      rw [index] at idLinked
      rw [entries] at idUnread isDir
      exact showsUnread id own idLinked (back idLinked idNamed) idUnread isDir
  · obtain rfl : way = names := by
      rw [named.climb sound.rootFather] at climbed
      split at climbed
      · exact (Prod.mk.inj (Option.some.inj climbed)).1.symm
      · cases climbed
    have listed : forall id, id ∈ new ->
        (env.listing way).lookup (next.entries id).d_name = some (next.entries id).st := by
      intro id fresh
      have member := List.mem_map_of_mem (f := fun id =>
        ((next.entries id).d_name, (next.entries id).st)) fresh
      rw [grown.names, List.mem_reverse, steady.entered_eq answered isRoot] at member
      exact (lookup_eq_some_iff (steady.listing_nodup way)).mpr member
    have made : forall id, id ∈ new -> next.father id = father ∧
        (next.entries id).child = .unread ∧ id ≠ rootId := by
      intro id fresh
      obtain ⟨link, entry⟩ := grown.entries id fresh
      refine ⟨?_, ?_, fun isRoot => ?_⟩
      · rw [Fs.father, entry]
      · rw [entry]
      · exact grown.fresh rootId (isRoot ▸ fresh) tree.shape.root
    -- A new entry has the names of the directory and its own.
    have newNames : forall id own, id ∈ new -> Named next id own ->
        own = way ++ [(next.entries id).d_name] := by
      intro id own fresh idNamed
      obtain ⟨above, -, below⟩ := made id fresh
      cases idNamed with
      | root => exact absurd rfl below
      | child some higher =>
          rw [above] at higher
          rw [(back linked higher).unique sound.rootFather named]
    have newBelow : forall id own, id ∈ new -> Named next id own ->
        env.below [] st own = some (next.entries id).st ∧
          space own = some (fileKind (next.entries id).st) := by
      intro id own fresh idNamed
      have inSpace := shown.listing virtualRead linked named unread directory (next.entries id).d_name []
      rw [listed id fresh, Option.bind_some, Env.below, Option.map_some] at inSpace
      have origin := (showsUnread father way linked named unread directory).2
        [(next.entries id).d_name]
      rw [inSpace, Env.names] at origin
      rw [newNames id own fresh idNamed]
      obtain ⟨here, inSource, -⟩ := Option.map_eq_some_iff.mp origin.symm
      refine ⟨?_, inSpace⟩
      have exact := inSource
      rw [Env.below_concat] at inSource
      obtain ⟨above, -, lookup⟩ := Option.bind_eq_some_iff.mp inSource
      split at lookup
      · rw [listed id fresh] at lookup
        rw [exact, lookup]
      · cases lookup
    have old_or : forall {id}, id ∈ next.index -> id ∈ fs.index ∨ id ∈ new := fun there =>
      ((grown.nodes _).mp (grown.tree.mem_index.mp there)).imp_left tree.mem_index.mpr
    refine ⟨⟨nextTree, hashed, twins, noLinks, ?_, ?_⟩, ⟨?_, ?_, ?_⟩, ?_⟩
    · intro id idLinked below
      rcases old_or idLinked with old | fresh
      · rw [(stays id old).alike.d_name]
        exact sound.components id old below
      · obtain ⟨above, -, -⟩ := made id fresh
        have idNamed : Named next id (way ++ [(next.entries id).d_name]) :=
          .child (above.symm ▸ tree.some isNode)
            (above.symm ▸ named.populated sound.isTree linked populated)
        exact steady.below_components (newBelow id _ fresh idNamed).1 _ (by simp)
    · intro id idLinked some
      rcases old_or idLinked with old | fresh
      · rw [(stays id old).alike.st]
        rcases getChild_child sound.isTree linked read old with same | ⟨rfl, isDir⟩
        · exact sound.directories id old (by rwa [Fs.first, ← same])
        · exact isDir
      · rw [Fs.first, (made id fresh).2.1] at some
        exact absurd rfl some
    · intro id own idLinked idNamed
      rcases old_or idLinked with old | fresh
      · exact shown.within id own old (back old idNamed)
      · exact quiet.strings own _ (newBelow id own fresh idNamed).1
    · intro id own idLinked idNamed real
      rcases old_or idLinked with old | fresh
      · rw [(stays id old).alike.st]
        exact shown.there id own old (back old idNamed) real
      · exact (newBelow id own fresh idNamed).2
    · intro other own otherLinked otherNamed known name present
      rcases old_or otherLinked with old | fresh
      · by_cases isFather : other = father
        · subst isFather
          obtain rfl := (back linked otherNamed).unique sound.rootFather named
          rw [shown.listing virtualRead linked named unread directory name []] at present
          obtain ⟨kind, some⟩ := Option.ne_none_iff_exists'.mp present
          obtain ⟨_, found, -⟩ := Option.map_eq_some_iff.mp some
          obtain ⟨here, lookup, -⟩ := Option.bind_eq_some_iff.mp found
          rw [lookup_eq_some_iff (steady.listing_nodup _), ← steady.entered_eq answered isRoot,
            ← List.mem_reverse, ← grown.names] at lookup
          obtain ⟨id, fresh, both⟩ := List.mem_map.mp lookup
          obtain ⟨above, -, below⟩ := made id fresh
          exact nextTree.hasName_iff.mpr ⟨id,
            grown.tree.mem_index.mpr ((grown.nodes id).mpr (Or.inr fresh)), below, above,
            (Prod.mk.inj both).1⟩
        · rw [grown.kept other (tree.mem_index.mp old) isFather] at known
          exact (shown.all other own old (back old otherNamed) known name present).populated
            sound.isTree populated
      · exact absurd (made other fresh).2.1 known
    · intro id own idLinked idNamed idUnread isDir
      rcases old_or idLinked with old | fresh
      · have before := stays id old
        refine showsUnread id own old (back old idNamed) ?_ (before.alike.st ▸ isDir)
        by_contra known
        rw [before.child known] at idUnread
        exact known idUnread
      · have place := (newBelow id own fresh idNamed).2
        refine ⟨shown.not_virtual (by rw [place]; exact Option.some_ne_none _), fun rest => ?_⟩
        rw [newNames id own fresh idNamed, List.append_assoc]
        exact (showsUnread father way linked named unread directory).2 _

omit [DecidableEq Hash] in
/-- A directory that has been looked into has been read. -/
theorem Showing.read_known {child : Id} (shown : Showing env st strings space fs)
    (virtualRead : VirtualRead fs) (quiet : QuietSource env st strings) (linked : father ∈ fs.index)
    (directory : (fs.entries father).st.isDir = true)
    (read : fs.getChild env father = .ok (child, next)) : (next.entries father).child ≠ .unread := by
  by_cases unread : (fs.entries father).child = .unread
  · obtain ⟨names, named, -⟩ := shown.sound.named linked
    obtain ⟨here, inSource, isDir⟩ := shown.inSource virtualRead linked named unread directory
    refine getChild_answered directory (fun way top climbed => ?_) read
    rw [named.climb shown.sound.rootFather] at climbed
    split at climbed
    · obtain ⟨rfl, rfl⟩ := Prod.mk.inj (Option.some.inj climbed)
      rw [quiet.steady.same]
      exact quiet.steady.readable names here inSource isDir
    · cases climbed
  · rw [(getChild_stays shown.sound.isTree linked read linked).child unread]
    exact unread

omit [DecidableEq Hash] in
theorem Shows.getChild {child : Id} (shown : Shows env st strings space fs)
    (quiet : QuietSource env st strings) (linked : father ∈ fs.index)
    (read : fs.getChild env father = .ok (child, next)) : Shows env st strings space next := by
  obtain ⟨showing, virtualRead⟩ := shown.toShowing.getChild shown.virtualRead quiet linked read
  refine ⟨showing, ?_, virtualRead⟩
  rw [(getChild_stays shown.sound.isTree linked read shown.sound.isTree.root).child shown.rootRead]
  exact shown.rootRead

omit [DecidableEq Hash] in
theorem Shows.populated (shown : Shows env st strings space fs)
    (quiet : QuietSource env st strings) (populated : Populated env fs next) :
    Shows env st strings space next :=
  populated.keeps (fun _ _ _ _ holds => holds.getChild quiet) shown

omit [DecidableEq Hash] in
theorem Shows.readsAll (shown : Shows env st strings space fs) (quiet : QuietSource env st strings) :
    ReadsAll env fs := fun _ _ _ _ populated linked directory read =>
  have middleShown := shown.populated quiet populated
  middleShown.toShowing.read_known middleShown.virtualRead quiet linked directory read

/-! ## Lookups -/

/-- A directory that is known by its names. -/
def KnownDirectory (fs : Fs Hash) (names : List Component) : Prop :=
  Exists fun id => id ∈ fs.index ∧ Named fs id names ∧ (fs.entries id).st.isDir = true

omit [Inhabited Hash] [DecidableEq Hash] in
theorem KnownDirectory.known (directory : KnownDirectory fs names) : Known fs names := by
  obtain ⟨id, linked, named, -⟩ := directory
  exact ⟨id, linked, named⟩

omit [DecidableEq Hash] in
theorem KnownDirectory.populated (directory : KnownDirectory fs names) (isTree : IsTree fs)
    (populated : Populated env fs next) : KnownDirectory next names := by
  obtain ⟨id, linked, named, isDir⟩ := directory
  have stays := populated.stays isTree linked
  exact ⟨id, stays.linked, named.populated isTree linked populated, stays.alike.st ▸ isDir⟩

/-- What a lookup in a known directory finds: the entry, or nothing, and then the directory
has been read. -/
theorem Shows.findLocked {result : Id} (shown : Shows env st strings space fs)
    (quiet : QuietSource env st strings) (asks : Asks strings names name)
    (components : forall other, other ∈ names ++ [name] -> IsComponent other)
    (directory : KnownDirectory fs names)
    (lookup : fs.findLocked env (absolutePath (names ++ [name])) = .ok (result, next)) :
    Populated env fs next ∧
      (result ≠ 0 -> result ∈ next.index ∧ Named next result (names ++ [name])) ∧
      (result = 0 -> ¬ Known next (names ++ [name]) ∧ Exists fun father => father ∈ next.index ∧
        Named next father names ∧ (next.entries father).st.isDir = true ∧
        (next.entries father).child ≠ .unread) := by
  obtain ⟨populated, found, absent⟩ := shown.sound.findLocked_child quiet.apart shown.within asks
    components (fun father child next linked read =>
      ⟨(shown.getChild quiet linked read).sound, (shown.getChild quiet linked read).within⟩)
    shown.rootRead directory.known lookup
  refine ⟨populated, found, fun none => ?_⟩
  obtain ⟨unknown, father, child, linked, named, read⟩ := absent none
  obtain ⟨other, otherLinked, otherNamed, isDir⟩ := directory
  obtain rfl := shown.sound.id_unique otherLinked linked otherNamed named
  have stays := populated.stays shown.sound.isTree linked
  exact ⟨unknown, other, stays.linked, named.populated shown.sound.isTree linked populated,
    stays.alike.st ▸ isDir, shown.readsAll quiet fs other child next .refl linked isDir read⟩

omit [DecidableEq Hash] in
/-- A directory that has been read and has no child of a name shows nothing there. -/
theorem Shows.vacant (shown : Shows env st strings space fs) (linked : father ∈ fs.index)
    (named : Named fs father names) (known : (fs.entries father).child ≠ .unread)
    (absent : ¬ Known fs (names ++ [name])) : space (names ++ [name]) = none := by
  by_contra present
  exact absent ((shown.sound.hasName_iff linked named).mp
    (shown.all father names linked named known name present))

/-! ## Making -/

section Added

variable {kids : Id -> List Id} {free rest : List Id} {here : Stat} {child : Child}

omit [DecidableEq Hash] in
theorem Added.named_old (sound : Sound env fs) (tree : Tree fs kids free)
    (added : Added env fs kids free father id name here child next rest) {old : Id}
    {own : List Component} (linked : old ∈ fs.index) (named : Named next old own) :
    Named fs old own := by
  obtain ⟨names, ownNamed, -⟩ := sound.named linked
  have nextTree : IsTree next := ⟨_, _, added.tree⟩
  have rootFather : next.father rootId = 0 := (nextTree.father_eq_zero nextTree.root).mpr rfl
  rw [named.unique rootFather (added.named tree (tree.mem_index.mp linked) ownNamed)]
  exact ownNamed

omit [DecidableEq Hash] in
theorem Sound.added (sound : Sound env fs) (tree : Tree fs kids free) (linked : father ∈ fs.index)
    (isDir : (fs.entries father).st.isDir = true) (absent : ¬ HasName fs father name)
    (component : IsComponent name) (leaf : child.id = 0)
    (added : Added env fs kids free father id name here child next rest) : Sound env next := by
  have isNode := tree.mem_index.mp linked
  have old_or : forall {other}, other ∈ next.index -> other ∈ fs.index ∨ other = id := fun there =>
    ((added.nodes _).mp (added.tree.mem_index.mp there)).imp_left tree.mem_index.mpr
  refine ⟨⟨_, _, added.tree⟩, sound.hashes.added tree isNode added,
    sound.noTwins.added tree added absent, fun other there => ?_, fun other there below => ?_,
    fun other there some => ?_⟩
  · rcases old_or there with old | rfl
    · by_cases same : other = father
      · rw [same, added.above]
        exact sound.noLinks father linked
      · rw [added.kept other (tree.mem_index.mp old) same]
        exact sound.noLinks other old
    · rw [added.entry]
  · rcases old_or there with old | rfl
    · rw [(added.placed (tree.mem_index.mp old)).2]
      exact sound.components other old below
    · rw [added.entry]
      exact component
  · rcases old_or there with old | rfl
    · by_cases same : other = father
      · rw [same, added.above]
        exact isDir
      · rw [Fs.first, added.kept other (tree.mem_index.mp old) same] at some
        rw [added.kept other (tree.mem_index.mp old) same]
        exact sound.directories other old some
    · rw [Fs.first, added.entry] at some
      exact absurd leaf some

omit [DecidableEq Hash] in
/-- A new entry in a directory that has been read is something new in the namespace. -/
theorem Shows.added (shown : Shows env st strings space fs) (tree : Tree fs kids free)
    (linked : father ∈ fs.index) (named : Named fs father names)
    (isDir : (fs.entries father).st.isDir = true) (known : (fs.entries father).child ≠ .unread)
    (absent : ¬ Known fs (names ++ [name])) (component : IsComponent name)
    (real : ¬ VirtualNames (names ++ [name])) (string : strings (absolutePath (names ++ [name])))
    (leaf : child.id = 0) (read : here.isDir = true -> child ≠ .unread)
    (added : Added env fs kids free father id name here child next rest) :
    space.CanEnter IsDirectory (names ++ [name]) ∧
      Shows env st strings (space.enter (names ++ [name]) (fileKind here)) next := by
  have isNode := tree.mem_index.mp linked
  have missing := shown.vacant linked named known absent
  have realAbove : ¬ VirtualNames names := fun virtual => real virtual.append
  have can : space.CanEnter IsDirectory (names ++ [name]) :=
    ⟨missing, names, name, rfl, (shown.hasDirectory linked named realAbove).mpr isDir⟩
  have noName : ¬ HasName fs father name := fun hasName =>
    absent ((shown.sound.hasName_iff linked named).mp hasName)
  have sound := shown.sound.added tree linked isDir noName component leaf added
  have newNamed := added.named_new tree isNode named
  have newLinked : id ∈ next.index := added.tree.mem_index.mpr ((added.nodes id).mpr (Or.inr rfl))
  have old_or : forall {other}, other ∈ next.index -> other ∈ fs.index ∨ other = id := fun there =>
    ((added.nodes _).mp (added.tree.mem_index.mp there)).imp_left tree.mem_index.mpr
  have back : forall {other own}, other ∈ fs.index -> Named next other own -> Named fs other own :=
    fun old => added.named_old shown.sound tree old
  have isNew : forall {own}, Named next id own -> own = names ++ [name] := fun there =>
    there.unique sound.rootFather newNamed
  have stOld : forall {other}, other ∈ fs.index -> (next.entries other).st = (fs.entries other).st := by
    intro other old
    by_cases same : other = father
    · rw [same, added.above]
    · rw [added.kept other (tree.mem_index.mp old) same]
  have childOld : forall {other}, other ∈ fs.index -> other ≠ father ->
      (next.entries other).child = (fs.entries other).child := by
    intro other old apart
    rw [added.kept other (tree.mem_index.mp old) apart]
  have childFather : (next.entries father).child ≠ .unread := by
    rw [added.above]
    exact Child.first_ne_unread id
  have apartOld : forall {other own}, other ∈ fs.index -> Named fs other own ->
      own ≠ names ++ [name] := by
    rintro other own old ownNamed rfl
    exact absent ⟨other, old, ownNamed⟩
  refine ⟨can, .ofUnread sound ?_ (shown.closed.enter can _) ?_ ?_ ?_ ?_ ?_⟩
  · intro other own there ownNamed
    rcases old_or there with old | rfl
    · exact shown.within other own old (back old ownNamed)
    · rw [isNew ownNamed]
      exact string
  · intro own virtual
    rw [Namespace.enter_other]
    · exact shown.real own virtual
    · rintro rfl
      exact real virtual
  · by_cases isRoot : rootId = father
    · rw [isRoot]
      exact childFather
    · rw [childOld shown.sound.isTree.root isRoot]
      exact shown.rootRead
  · intro other own there ownNamed ownReal
    rcases old_or there with old | rfl
    · rw [Namespace.enter_other (apartOld old (back old ownNamed)), stOld old]
      exact shown.there other own old (back old ownNamed) ownReal
    · rw [isNew ownNamed, Namespace.enter_self, added.entry]
  · intro other own there ownNamed ownKnown last present
    rw [sound.hasName_iff there ownNamed]
    by_cases isNewPath : own ++ [last] = names ++ [name]
    · rw [isNewPath]
      exact ⟨id, newLinked, newNamed⟩
    · rw [Namespace.enter_other isNewPath] at present
      rcases old_or there with old | rfl
      · have ownOld := back old ownNamed
        have knownOld : (fs.entries other).child ≠ .unread := by
          by_cases same : other = father
          · exact same ▸ known
          · rw [← childOld old same]
            exact ownKnown
        obtain ⟨child, childLinked, childNamed⟩ := (shown.sound.hasName_iff old ownOld).mp
          (shown.all other own old ownOld knownOld last present)
        have childNode := tree.mem_index.mp childLinked
        exact ⟨child, added.tree.mem_index.mpr ((added.nodes child).mpr (Or.inl childNode)),
          added.named tree childNode childNamed⟩
      · rw [isNew ownNamed] at present
        exact absurd (shown.closed.below_none missing _) present
  · intro other own there ownNamed unread otherDir
    rcases old_or there with old | rfl
    · have apart : other ≠ father := by
        rintro rfl
        exact childFather unread
      rw [childOld old apart] at unread
      rw [stOld old] at otherDir
      have ownOld := back old ownNamed
      obtain ⟨ownReal, same⟩ := shown.unread other own old ownOld unread otherDir
      refine ⟨ownReal, fun more => ?_⟩
      rw [← same more, Namespace.enter_other]
      intro whole
      -- The directory would be above the new entry, and so it would have been read.
      rcases List.prefix_concat_iff.mp (whole ▸ List.prefix_append own more :
        own <+: names ++ [name]) with isPath | ⟨between, rfl⟩
      · exact apartOld old ownOld isPath
      · by_cases none : between = []
        · subst none
          rw [List.append_nil] at named
          exact apart (shown.sound.id_unique old linked ownOld named)
        · exact shown.read_above old ownOld ⟨father, linked, named⟩ none unread
    · rw [added.entry] at unread otherDir
      exact absurd unread (read otherDir)

end Added

/-- The last slash of a path is before its last name. -/
theorem splitPath_absolutePath (noSlash : slash ∉ name) :
    splitPath (absolutePath (names ++ [name])) = .ok (absolutePath names, name) := by
  have whole : absolutePath (names ++ [name]) = pathString names ++ slash :: name := by
    rw [pathString_split, List.append_nil]
  rw [whole, splitPath, lastSlash_append _ noSlash]
  simp only [Except.ok.injEq, Prod.mk.injEq]
  constructor
  · by_cases none : names = []
    · subst none
      rfl
    · have letters : 1 ≤ (pathString names).length := by
        cases names with
        | nil => exact absurd rfl none
        | cons first names => simp [pathString]
      rw [Nat.max_eq_left letters, List.take_left, absolutePath, if_neg none]
  · rw [← List.drop_drop, List.drop_left]
    rfl

/-- `mcachefs_metadata_make_entry` in a known directory. -/
theorem Shows.makeEntry {context : Context} {mode : UInt32} {rdev : UInt64}
    (shown : Shows env st strings space fs) (quiet : QuietSource env st strings)
    (asks : Asks strings names name)
    (components : forall other, other ∈ names ++ [name] -> IsComponent other)
    (short : name.length ≤ NAME_MAX) (real : ¬ VirtualNames (names ++ [name]))
    (directory : KnownDirectory fs names)
    (result : fs.makeEntry env context (absolutePath (names ++ [name])) mode rdev = .ok (0, next)) :
    space.CanEnter IsDirectory (names ++ [name]) ∧
      Shows env st strings (space.enter (names ++ [name]) (mode &&& S_IFMT)) next := by
  obtain ⟨⟨mdata, found⟩, lookup, result⟩ := bind_eq_ok.mp result
  obtain ⟨populated, -, absent⟩ := shown.findLocked quiet asks components directory lookup
  simp only at result
  split at result
  · cases result
  · next none =>
      obtain ⟨unknown, father, linked, named, isDir, known⟩ := absent (not_not.mp none)
      have foundShown := shown.populated quiet populated
      have component := components name (by simp)
      obtain ⟨⟨dpath, lname⟩, split, result⟩ := bind_eq_ok.mp result
      rw [splitPath_absolutePath component.noSlash] at split
      obtain ⟨rfl, rfl⟩ := Prod.mk.inj (Except.ok.inj split)
      obtain ⟨⟨other, above⟩, lookupAbove, result⟩ := bind_eq_ok.mp result
      obtain ⟨rfl, otherLinked, otherNamed⟩ := foundShown.sound.findLocked_known quiet.apart
        foundShown.within asks.above
        (fun name member => components name (List.mem_append_left _ member))
        ⟨father, linked, named⟩ lookupAbove
      obtain rfl := foundShown.sound.id_unique linked otherLinked named otherNamed
      simp only [if_neg (foundShown.sound.isTree.ne_zero linked)] at result
      rw [Fs.readChildren, if_neg known] at result
      obtain ⟨-, rfl⟩ := Prod.mk.inj (Except.ok.inj result)
      have isTree := foundShown.sound.isTree
      obtain ⟨kids, free, tree⟩ := isTree
      obtain ⟨id, rest, added⟩ := tree.makeChild env context name mode rdev (tree.mem_index.mp linked)
      rw [List.take_of_length_le short] at added
      refine foundShown.added tree linked named isDir known unknown component real asks.path ?_ ?_ added
      · split <;> rfl
      · intro isDir
        rw [if_pos isDir]
        exact Child.empty_ne_unread

/-! ## Attributes and open files -/

/-- Nothing has changed but attributes other than the kind, and the open files. -/
structure Retouched (fs next : Fs Hash) : Prop where
  entries : forall id, next.entries id =
    { fs.entries id with st := (next.entries id).st, fh := (next.entries id).fh }
  kind : forall id, fileKind (next.entries id).st = fileKind (fs.entries id).st
  unlinked : forall id, id ∉ fs.index -> next.entries id = fs.entries id
  alloced_nb : next.alloced_nb = fs.alloced_nb
  first_free : next.first_free = fs.first_free
  index : next.index = fs.index

namespace Retouched

omit [Inhabited Hash] [DecidableEq Hash] in
theorem ofOpened (opened : Opened fs next) : Retouched fs next where
  entries := fun id => by rw [opened.entries id]
  kind := fun id => by rw [opened.entries id]
  unlinked := opened.unlinked
  alloced_nb := opened.alloced_nb
  first_free := opened.first_free
  index := opened.index

omit [Inhabited Hash] [DecidableEq Hash] in
/-- An entry is given other attributes. -/
theorem setStat (linked : id ∈ fs.index) (change : Entry Hash -> Stat)
    (kind : fileKind (change (fs.entries id)) = fileKind (fs.entries id).st) :
    Retouched fs (fs.modify id fun entry => { entry with st := change entry }) where
  entries := fun other => by
    by_cases same : other = id
    · rw [same, modify_self]
    · rw [modify_other same]
  kind := fun other => by
    by_cases same : other = id
    · rw [same, modify_self]
      exact kind
    · rw [modify_other same]
  unlinked := fun other away => by
    have apart : other ≠ id := by
      rintro rfl
      exact away linked
    rw [modify_other apart]
  alloced_nb := rfl
  first_free := rfl
  index := rfl

section Tree

variable (retouched : Retouched fs next)

include retouched

omit [Inhabited Hash] [DecidableEq Hash] in
theorem father_eq : next.father = fs.father :=
  funext fun id => (congrArg Entry.father (retouched.entries id)).trans rfl

omit [Inhabited Hash] [DecidableEq Hash] in
theorem child (id : Id) : (next.entries id).child = (fs.entries id).child :=
  (congrArg Entry.child (retouched.entries id)).trans rfl

omit [Inhabited Hash] [DecidableEq Hash] in
theorem d_name (id : Id) : (next.entries id).d_name = (fs.entries id).d_name :=
  (congrArg Entry.d_name (retouched.entries id)).trans rfl

omit [Inhabited Hash] [DecidableEq Hash] in
theorem hash (id : Id) : (next.entries id).hash = (fs.entries id).hash :=
  (congrArg Entry.hash (retouched.entries id)).trans rfl

omit [Inhabited Hash] [DecidableEq Hash] in
theorem isDir (id : Id) : (next.entries id).st.isDir = (fs.entries id).st.isDir := by
  rw [Bool.eq_iff_iff, ← isDirectory_fileKind, ← isDirectory_fileKind, retouched.kind]

omit [DecidableEq Hash] in
theorem isTree (isTree : IsTree fs) : IsTree next := by
  obtain ⟨kids, free, tree⟩ := isTree
  refine ⟨kids, free, tree.congr retouched.alloced_nb retouched.first_free (.of_eq retouched.index)
    (fun id _ => ⟨congrFun retouched.father_eq id, ?_, congrArg Child.id (retouched.child id)⟩)
    fun id member => retouched.unlinked id fun linked => (tree.mem_index.mp linked).2.2 member⟩
  exact (congrArg Entry.next (retouched.entries id)).trans rfl

omit [Inhabited Hash] [DecidableEq Hash] in
theorem named_iff : Named next id names ↔ Named fs id names := by
  constructor
  · intro named
    induction named with
    | root => exact .root
    | child present _ inductionHypothesis =>
        rw [retouched.father_eq] at present inductionHypothesis
        rw [retouched.d_name]
        exact .child present inductionHypothesis
  · intro named
    induction named with
    | root => exact .root
    | @child id names present _ inductionHypothesis =>
        rw [← retouched.father_eq] at present inductionHypothesis
        rw [← retouched.d_name]
        exact .child present inductionHypothesis

omit [Inhabited Hash] [DecidableEq Hash] in
theorem hashes (hashes : Hashes env fs) : Hashes env next := by
  have father := retouched.father_eq
  refine ⟨?_, ?_, fun id linked below => ?_⟩
  · rw [retouched.hash]
    exact hashes.rootHash
  · rw [retouched.d_name]
    exact hashes.rootName
  · exact (hashes.below id (retouched.index ▸ linked) below).congr (retouched.hash id)
      (retouched.d_name id) (congrFun father id) (retouched.hash _) (congrFun father _)

omit [DecidableEq Hash] in
theorem sound (sound : Sound env fs) : Sound env next := by
  have isTree := retouched.isTree sound.isTree
  have father := retouched.father_eq
  refine ⟨isTree, retouched.hashes sound.hashes, ?_, fun id linked => ?_,
    fun id linked below => ?_, fun id linked some => ?_⟩
  · exact sound.noTwins.of_placed sound.isTree isTree fun id linked =>
      ⟨retouched.index ▸ linked, congrFun father id, retouched.d_name id⟩
  · exact (congrArg Entry.hardlink (retouched.entries id)).trans
      (sound.noLinks id (retouched.index ▸ linked))
  · rw [retouched.d_name]
    exact sound.components id (retouched.index ▸ linked) below
  · rw [retouched.isDir]
    refine sound.directories id (retouched.index ▸ linked) ?_
    rwa [Fs.first, ← retouched.child]

end Tree

end Retouched

omit [DecidableEq Hash] in
theorem Shows.retouched (shown : Shows env st strings space fs) (retouched : Retouched fs next) :
    Shows env st strings space next := by
  have old : forall {id}, id ∈ next.index -> id ∈ fs.index := fun linked => retouched.index ▸ linked
  have sound := retouched.sound shown.sound
  refine .ofUnread sound ?_ shown.closed shown.real ?_ ?_ ?_ ?_
  · exact fun id names linked named =>
      shown.within id names (old linked) (retouched.named_iff.mp named)
  · rw [retouched.child]
    exact shown.rootRead
  · intro id names linked named real
    rw [retouched.kind]
    exact shown.there id names (old linked) (retouched.named_iff.mp named) real
  · intro father names linked named known name present
    rw [retouched.child] at known
    obtain ⟨child, childLinked, childNamed⟩ := (shown.sound.hasName_iff (old linked)
      (retouched.named_iff.mp named)).mp (shown.all father names (old linked)
        (retouched.named_iff.mp named) known name present)
    exact (sound.hasName_iff linked named).mpr
      ⟨child, retouched.index ▸ childLinked, retouched.named_iff.mpr childNamed⟩
  · intro id names linked named unread isDir
    rw [retouched.child] at unread
    rw [retouched.isDir] at isDir
    exact shown.unread id names (old linked) (retouched.named_iff.mp named) unread isDir

end Shows

end Metadata
end Mcachefs
