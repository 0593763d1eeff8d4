import Mcachefs.Lowlevel.NamesRuns

namespace Mcachefs
namespace Lowlevel

open Library Metadata Journal

/-!
# An apply of the journal makes the names that are shown

Once every directory has been read, the entries are all the names of a mount, and an
apply of the journal makes just those of the source as it was.  The metadata keeps
`NAME_MAX` bytes of a name, where the journal has the path as the kernel gave it; there
the two come apart.
-/

section Presented

variable {Hash : Type}

/-- Every directory has been read. -/
def EveryRead (fs : Fs Hash) : Prop :=
  forall id, id ∈ fs.index -> (fs.entries id).st.isDir = true -> (fs.entries id).child ≠ .unread

/-- The metadata has an entry of this kind at these names. -/
def Presents (fs : Fs Hash) (names : List Component) (kind : UInt32) : Prop :=
  Exists fun id => id ∈ fs.index ∧ Named fs id names ∧ fileKind (fs.entries id).st = kind

variable [Inhabited Hash] {env : Env Hash} {st : Stat} {strings : Path -> Prop}
  {space : Namespace Component UInt32} {fs : Fs Hash} {names : List Component} {kind : UInt32}

theorem showing_presents {id : Metadata.Id} (shown : Shows env st strings space fs)
    (linked : id ∈ fs.index) (named : Named fs id names) (present : space names = some kind) :
    Presents fs names kind := by
  have real := shown.not_virtual (present ▸ Option.some_ne_none kind)
  have there := shown.there id names linked named real
  exact ⟨id, linked, named, Option.some.inj (there.symm.trans present)⟩

/-- With every directory read, the entries show the whole namespace. -/
theorem shows_presents (shown : Shows env st strings space fs) (every : EveryRead fs)
    (present : space names = some kind) : Presents fs names kind := by
  induction names using List.reverseRecOn generalizing kind with
  | nil => exact showing_presents shown shown.sound.isTree.root .root present
  | append_singleton names name inductionHypothesis =>
      have some : space (names ++ [name]) ≠ none := present ▸ Option.some_ne_none kind
      obtain ⟨above, there, directory⟩ := shown.closed.above names name some
      obtain ⟨father, linked, named, rfl⟩ := inductionHypothesis there
      have read := every father linked (isDirectory_fileKind.mp directory)
      obtain ⟨id, childLinked, childNamed⟩ := (shown.sound.hasName_iff linked named).mp
        (shown.all father names linked named read name some)
      exact showing_presents shown childLinked childNamed present

theorem presents_iff (shown : Shows env st strings space fs) (every : EveryRead fs) :
    space names = some kind ↔ ¬ VirtualNames names ∧ Presents fs names kind := by
  constructor
  · intro present
    exact ⟨shown.not_virtual (present ▸ Option.some_ne_none kind),
      shows_presents shown every present⟩
  · rintro ⟨real, id, linked, named, rfl⟩
    exact shown.there id names linked named real

end Presented

section Runs

variable {Hash : Type} [DecidableEq Hash] [Inhabited Hash] (env : Env Hash)

/-- A path that the kernel may ask for. -/
def Asked (strings : Path -> Prop) (fs : Fs Hash) (path : Path) : Prop :=
  Exists fun names => Exists fun name => Placed strings fs path names name

/-- The calls that change names, as the kernel makes them, with lookups between them.  The
hash tells the strings apart, and the cache takes the symbolic links. -/
def Called (strings : Path -> Prop) (mount : Mount Hash) : NamesEvent Hash -> Prop
  | .call (.symlink _ toPath) answers =>
      Asked strings mount.fs toPath ∧ answers.createpath.value = 0 ∧ answers.symlink = none
  | .call (.mknod path _ _) _ | .call (.mkdir path _) _ | .call (.unlink path) _
  | .call (.rmdir path) _ => Asked strings mount.fs path
  | .call (.rename path toPath) _ =>
      Exists fun front => Exists fun last => Exists fun above => Exists fun name =>
        Placed strings mount.fs path front last ∧ Placed strings mount.fs toPath above name ∧
          ¬ front ++ [last] <+: above ++ [name] ∧
          StringsMove env strings mount.fs (front ++ [last]) (above ++ [name])
  | .call _ _ => False
  | .getattr _ | .readdir _ _ | .readlink _ _ => True

/-- The name that a path ends in has its place in `d_name`. -/
def FitsName (path : Path) : Prop :=
  forall name, (pathNames path).getLast? = some name -> name.length ≤ NAME_MAX

/-- The name that is made is kept whole, and the mode is one of what the call makes. -/
def Fits : NamesEvent Hash -> Prop
  | .call (.symlink _ toPath) _ | .call (.rename _ toPath) _ => FitsName toPath
  | .call (.mknod path mode _) _ =>
      FitsName path ∧ mode &&& S_IFMT ≠ 0 ∧ mode &&& S_IFMT ≠ S_IFDIR
  | .call (.mkdir path mode) _ => FitsName path ∧ (mode ||| S_IFDIR) &&& S_IFMT = S_IFDIR
  | _ => True

/-- An apply of the journal to the source as it was is refused nothing, and makes the names
that the mount shows once every directory has been read. -/
def Replays (st : Stat) (mount : Mount Hash) : Prop :=
  Exists fun space =>
    SourceNames.replay mount.journal ⟨env.names st, 0⟩ = .ok ⟨space, 0⟩ ∧
    forall full, Populated env mount.fs full -> EveryRead full -> forall names kind,
      space names = some kind ↔ ¬ VirtualNames names ∧ Presents full names kind

variable {env} {st : Stat} {strings : Path -> Prop} {mount : Mount Hash}
  {event : NamesEvent Hash} {fs : Fs Hash} {path : Path} {names : List Component} {name : Component}

omit [DecidableEq Hash] [Inhabited Hash] in
theorem Placed.short (placed : Placed strings fs path names name) (fits : FitsName path) :
    name.length ≤ NAME_MAX := by
  refine fits name ?_
  rw [placed.spelled, pathNames_absolutePath placed.components]
  exact List.getLast?_concat

omit [DecidableEq Hash] [Inhabited Hash] in
theorem Asked.free (asked : Asked strings fs path) (fits : FitsName path) :
    Free strings fs path := by
  obtain ⟨names, name, placed⟩ := asked
  exact ⟨names, name, placed, placed.short fits⟩

omit [DecidableEq Hash] in
theorem Called.foreseen (called : Called env strings mount event) (fits : Fits event) :
    Foreseen env st strings mount event := by
  cases event with
  | getattr path => trivial
  | readdir filler path => trivial
  | readlink linkAnswers path => trivial
  | call callback answers =>
      cases callback with
      | symlink path toPath =>
          obtain ⟨asked, created, linked⟩ := called
          exact ⟨asked.free fits, created, linked⟩
      | mknod path mode rdev => exact ⟨Asked.free called fits.1, fits.2⟩
      | mkdir path mode => exact ⟨Asked.free called fits.1, fits.2⟩
      | unlink path => exact called
      | rmdir path => exact called
      | rename path toPath =>
          obtain ⟨front, last, above, name, placed, target, apart, string⟩ := called
          exact ⟨front, last, above, name, placed, target, target.short fits, apart, string⟩
      | link fromPath toPath => exact called.elim
      | chmod path mode => exact called.elim
      | chown path uid gid => exact called.elim
      | truncate path size => exact called.elim
      | utime path buf => exact called.elim
      | openFile path => exact called.elim
      | write fh size offset => exact called.elim
      | release fh isWrite => exact called.elim

omit [DecidableEq Hash] in
theorem Told.replays (told : Told env st strings mount) (quiet : QuietSource env st strings) :
    Replays env st mount := by
  obtain ⟨space, shown, replayed⟩ := told
  exact ⟨space, replayed, fun full populated every names kind =>
    presents_iff (shown.populated quiet populated) every⟩

/-- Whatever names the kernel makes, moves and removes on a mount whose metadata is new, and
whatever directories are read between the calls: an apply of the journal is refused nothing
and makes the names that the mount shows. -/
theorem journal_replays (quiet : QuietSource env st strings) (files : VopsFiles env strings)
    (isDir : st.isDir = true) (start : (Fs.format env st).populateVops env = .ok fs)
    (events : List (NamesEvent Hash))
    (suits : EachStep (namesStep env) (fun mount event => Called env strings mount event ∧ Fits event)
      ⟨fs, []⟩ events) :
    Throughout (namesStep env) (Replays env st) (fun _ => True) ⟨fs, []⟩ events := by
  have told : Told env st strings ⟨fs, []⟩ :=
    ⟨_, mirrors_format.populateVops_shows (format_isTree env st).2 quiet files isDir start, rfl⟩
  exact Throughout.ofInvariant (fun _ told => Told.replays told quiet)
    (fun _ _ _ told suits result =>
      namesStep_told quiet files isDir told (suits.1.foreseen suits.2) result)
    (fun _ _ _ _ _ _ => trivial) told suits

end Runs

/-! ## Runs -/

/-- The journal of the run of the four calls is replayed as its names. -/
theorem journal_replays_smallRun : Exists fun fs =>
    (Fs.format smallSource directoryStat).populateVops smallSource = .ok fs ∧
      Throughout (namesStep smallSource) (Replays smallSource directoryStat) (fun _ => True)
        ⟨fs, []⟩ smallRun := by
  obtain ⟨fs, one, two, three, four, start, ⟨first, second, third, fourth⟩, made, filed, placed,
    target, string⟩ := smallRun_calls
  have fits : forall path name, (pathNames path).getLast? = some name -> name.length ≤ NAME_MAX ->
      FitsName path := by
    intro path name last short other same
    rw [last] at same
    exact Option.some.inj same ▸ short
  refine ⟨fs, start, journal_replays smallSource_quiet smallSource_files (by decide) start
    smallRun ?_⟩
  refine (eachStep_cons first).mpr ⟨?_, (eachStep_cons second).mpr ⟨?_,
    (eachStep_cons third).mpr ⟨?_, (eachStep_cons fourth).mpr ⟨⟨trivial, trivial⟩, trivial⟩⟩⟩⟩
  · exact ⟨⟨[], ascii "e", made⟩, fits _ (ascii "e") (by decide) (by decide), by decide⟩
  · exact ⟨⟨[ascii "e"], ascii "f", filed⟩, fits _ (ascii "f") (by decide) (by decide),
      by decide, by decide⟩
  · exact ⟨⟨[ascii "e"], ascii "f", [], ascii "f", placed, target, by decide, string⟩,
      fits _ (ascii "f") (by decide) (by decide)⟩

/-- A name of one byte more than `NAME_MAX`. -/
def longName : Component := List.replicate (NAME_MAX + 1) 97

/-- The strings that are hashed when a directory gets that name. -/
def longStrings : List Path :=
  ["/", "/.mcachefs", "/.mcachefs/action", "/d"].map ascii ++
    [slash :: longName, slash :: slash :: longName]

/-- The directory of the long name is made, and every directory is read. -/
theorem longName_states : Exists fun fs => Exists fun one => Exists fun child => Exists fun full =>
    (Fs.format smallSource directoryStat).populateVops smallSource = .ok fs ∧
      namesStep smallSource ⟨fs, []⟩ (.call (.mkdir (slash :: longName) 0o755) allSucceed) = .ok one ∧
      one.fs.getChild smallSource 2 = .ok (child, full) ∧
      rootId ∈ fs.index ∧ (fs.entries rootId).st.isDir = true ∧ 2 ∈ one.fs.index ∧
      one.journal = [{ emptyRecord .mkdir (slash :: longName) [] with mode := 0o755 }] ∧
      EveryRead full ∧ forall id, id ∈ full.index -> (full.entries id).d_name ≠ longName := by
  have evaluated : (do
      let fs ← metadata ((Fs.format smallSource directoryStat).populateVops smallSource)
      let one ← namesStep smallSource ⟨fs, []⟩ (.call (.mkdir (slash :: longName) 0o755) allSucceed)
      let read ← metadata (one.fs.getChild smallSource 2)
      return decide (rootId ∈ fs.index ∧ (fs.entries rootId).st.isDir = true ∧ 2 ∈ one.fs.index ∧
        one.journal = [{ emptyRecord .mkdir (slash :: longName) [] with mode := 0o755 }] ∧
        (forall id, id ∈ read.2.index -> (read.2.entries id).st.isDir = true ->
          (read.2.entries id).child ≠ .unread) ∧
        forall id, id ∈ read.2.index -> (read.2.entries id).d_name ≠ longName) : Except Fault Bool) =
      .ok true := by decide +kernel
  obtain ⟨fs, start, later⟩ := bind_eq_ok.mp evaluated
  obtain ⟨one, made, later⟩ := bind_eq_ok.mp later
  obtain ⟨⟨child, full⟩, read, later⟩ := bind_eq_ok.mp later
  simp only [pure, Except.pure, Except.ok.injEq, decide_eq_true_eq] at later
  exact ⟨fs, one, child, full, metadata_eq_ok.mp start, made, metadata_eq_ok.mp read, later⟩

/-- The entry of that directory has a shorter name, and an apply makes the one of the long
name. -/
theorem journal_replays_longName : Exists fun fs =>
    QuietSource smallSource directoryStat (· ∈ longStrings) ∧
      VopsFiles smallSource (· ∈ longStrings) ∧ directoryStat.isDir = true ∧
      (Fs.format smallSource directoryStat).populateVops smallSource = .ok fs ∧
      EachStep (namesStep smallSource) (Called smallSource (· ∈ longStrings)) ⟨fs, []⟩
        [.call (.mkdir (slash :: longName) 0o755) allSucceed] ∧
      ¬ Throughout (namesStep smallSource) (Replays smallSource directoryStat) (fun _ => True)
        ⟨fs, []⟩ [.call (.mkdir (slash :: longName) 0o755) allSucceed] := by
  obtain ⟨fs, one, child, full, start, made, read, root, rootDir, linked, journal, every, cut⟩ :=
    longName_states
  have apart : forall one, one ∈ longStrings -> forall two, two ∈ longStrings ->
      smallSource.hashing.doHash one = smallSource.hashing.doHash two -> one = two := by
    decide +kernel
  refine ⟨fs, ⟨smallSource_steady, fun one two oneMember twoMember =>
      apart one oneMember two twoMember, fun names here there => ?_⟩,
    ⟨by decide, by decide, by decide, by decide, by decide, by decide⟩, by decide, start,
    (eachStep_cons made).mpr ⟨⟨[], longName, ?_⟩, trivial⟩, fun throughout => ?_⟩
  · rcases smallSource_below there with rfl | rfl <;> decide
  · exact ⟨by decide +kernel, ⟨by decide, by decide +kernel, by decide +kernel⟩, by decide +kernel,
      ⟨rootId, root, .root, rootDir⟩, by decide +kernel⟩
  · obtain ⟨-, later⟩ := throughout
    rw [made] at later
    obtain ⟨space, replayed, shown_iff⟩ := later
    have names : pathNames (slash :: longName) = [longName] := by decide +kernel
    have entered : space [longName] = some S_IFDIR := by
      rw [journal] at replayed
      have applied := Except.ok.inj replayed
      change SourceNames.make (slash :: longName) S_IFDIR _ = _ at applied
      rw [SourceNames.make, names, SourceNames.call] at applied
      split at applied
      · obtain ⟨rfl, -⟩ := SourceNames.mk.inj applied
        exact Namespace.enter_self
      · exact absurd (SourceNames.mk.inj applied).2 (Nat.succ_ne_zero 0)
    obtain ⟨-, id, there, named, -⟩ :=
      (shown_iff full (.step .refl linked read) every [longName] S_IFDIR).mp entered
    have cutName : (full.entries id).d_name = longName := by
      rw [← List.nil_append [longName]] at named
      exact named.concat_inv.2.2
    exact cut id there cutName

end Lowlevel
end Mcachefs
