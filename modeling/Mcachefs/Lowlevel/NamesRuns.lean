import Mcachefs.Library.Runs
import Mcachefs.Lowlevel.DirectoryListing
import Mcachefs.Lowlevel.LinkedFiles
import Mcachefs.Metadata.ShownMoves

namespace Mcachefs
namespace Lowlevel

open Library Metadata Journal
open Transfer (Fh)

/-!
# The journal tells what the mount shows

A call on a mounted name changes the metadata at once, and the journal gets a record of
it; an apply makes the calls again on the source.  Both speak of the same names: whatever
calls a mount has answered, an apply of its journal to the source as it was is refused
nothing and makes the names that the mount shows.
-/

/-- A call of the kernel. -/
inductive NamesEvent (Hash : Type)
  | call (callback : Callback) (answers : Answers Hash)
  | getattr (path : Path)
  | readdir (filler : Filler) (path : Path)
  | readlink (answers : LinkAnswers) (path : Path)

section Runs

variable {Hash : Type} [DecidableEq Hash] [Inhabited Hash] (env : Env Hash)

/-- What a call of the kernel makes of the mount. -/
def namesStep (mount : Mount Hash) : NamesEvent Hash -> Except Fault (Mount Hash)
  | .call callback answers => Prod.snd <$> callback.run env mount answers
  | .getattr path => Prod.snd <$> mount.getattr env path
  | .readdir filler path => Prod.snd <$> mount.readdir env filler path
  | .readlink answers path => Prod.snd <$> mount.readlink env answers path

/-- The path is a name in a directory that the kernel has looked up, and is none of the
virtual files. -/
structure Placed (strings : Path -> Prop) (fs : Fs Hash) (path : Path) (names : List Component)
    (name : Component) : Prop where
  spelled : path = absolutePath (names ++ [name])
  asks : Asks strings names name
  components : forall other, other ∈ names ++ [name] -> IsComponent other
  directory : KnownDirectory fs names
  real : ¬ VirtualNames (names ++ [name])

/-- A place where something may be made. -/
def Free (strings : Path -> Prop) (fs : Fs Hash) (path : Path) : Prop :=
  Exists fun names => Exists fun name => Placed strings fs path names name ∧
    name.length ≤ NAME_MAX

omit [DecidableEq Hash] [Inhabited Hash] in
/-- An open file of the cache still has its entry, or has lost it. -/
def Held (fs : Fs Hash) (fh : Fh) : Prop :=
  forall mfile, fs.mfiles fh = some mfile -> mfile.type ≠ .vops ->
    mfile.metadata_id = 0 ∨ mfile.metadata_id ∈ fs.index

/-- The file of the action asks for nothing, or to make the metadata again from the source as
it is. -/
def QuietAction (st : Stat) : VopsAction -> Prop
  | .none | .cleanupCache | .applyJournal false _ | .fillCacheMeta _ _ => True
  | .flushMetadata root => root = st
  | .applyJournal true _ => False

/-- What the kernel keeps to, and what the file systems below have to answer: a symbolic
link is made in the cache as well.  No hard links are made. -/
def Foreseen (st : Stat) (strings : Path -> Prop) (mount : Mount Hash) : NamesEvent Hash -> Prop
  | .call (.symlink _ toPath) answers =>
      Free strings mount.fs toPath ∧ answers.createpath.value = 0 ∧ answers.symlink = none
  | .call (.mknod path mode _) _ =>
      Free strings mount.fs path ∧ mode &&& S_IFMT ≠ 0 ∧ mode &&& S_IFMT ≠ S_IFDIR
  | .call (.mkdir path mode) _ =>
      Free strings mount.fs path ∧ (mode ||| S_IFDIR) &&& S_IFMT = S_IFDIR
  | .call (.unlink path) _ | .call (.rmdir path) _ =>
      Exists fun names => Exists fun name => Placed strings mount.fs path names name
  | .call (.rename path toPath) _ =>
      Exists fun front => Exists fun last => Exists fun above => Exists fun name =>
        Placed strings mount.fs path front last ∧ Placed strings mount.fs toPath above name ∧
          name.length ≤ NAME_MAX ∧ ¬ front ++ [last] <+: above ++ [name] ∧
          StringsMove env strings mount.fs (front ++ [last]) (above ++ [name])
  | .call (.link _ _) _ => False
  | .call (.write fh _ _) _ => Held mount.fs fh
  | .call (.release fh _) answers => Held mount.fs fh ∧ QuietAction st answers.action
  | _ => True

/-- The mount shows what an apply of its journal makes of the source, and the apply is
refused nothing. -/
def Told (st : Stat) (strings : Path -> Prop) (mount : Mount Hash) : Prop :=
  Exists fun space => Shows env st strings space mount.fs ∧
    SourceNames.replay mount.journal ⟨env.names st, 0⟩ = .ok ⟨space, 0⟩

variable {env} {st : Stat} {strings : Path -> Prop} {space : Namespace Component UInt32}
  {mount next : Mount Hash} {answers : Answers Hash} {res : Int} {path toPath : Path} {fs : Fs Hash}

omit [DecidableEq Hash] in
theorem succeed_told (op : JournalOp) {record : JournalRecord}
    {after : Namespace Component UInt32} (shown : Shows env st strings after fs)
    (replayed : SourceNames.replay mount.journal ⟨env.names st, 0⟩ = .ok ⟨space, 0⟩)
    (known : record.op = op.code) (update : op ≠ .fsync)
    (applied : applyEntry SourceNames.applyCalls record.item ⟨space, 0⟩ = .ok ⟨after, 0⟩)
    (result : mount.succeed fs record = .ok (res, next)) : Told env st strings next := by
  obtain ⟨last, appended, result⟩ := bind_eq_ok.mp result
  obtain ⟨-, rfl⟩ := Prod.mk.inj (Except.ok.inj result)
  unfold Mount.journalAppend at appended
  cases records : appendRecords mount.journal record with
  | none =>
      simp only [records] at appended
      cases appended
  | some records' =>
      simp only [records] at appended
      obtain rfl := Except.ok.inj appended
      refine ⟨after, shown, ?_⟩
      rw [SourceNames.replay_append records replayed]
      exact SourceNames.replay_one known update applied

omit [DecidableEq Hash] in
theorem applied_attribute {op : JournalOp} {record : JournalRecord} (known : record.op = op.code)
    (touches : op = .chmod ∨ op = .chown ∨ op = .truncate ∨ op = .utime)
    (source : SourceNames) : applyEntry SourceNames.applyCalls record.item source = .ok source := by
  have code : record.item.entry.op = op.code := known
  rcases touches with rfl | rfl | rfl | rfl
  all_goals
    simp only [applyEntry, code, JournalOp.ofCode_code]
    rfl

omit [DecidableEq Hash] in
/-- A record of a write is no update. -/
theorem append_written {written : Path} (told : Told env st strings mount)
    (appended : mount.journalAppend (emptyRecord .fsync written []) = .ok next) :
    Told env st strings next ∧ next.fs = mount.fs := by
  obtain ⟨space, shown, replayed⟩ := told
  unfold Mount.journalAppend at appended
  cases records : appendRecords mount.journal (emptyRecord .fsync written []) with
  | none =>
      simp only [records] at appended
      cases appended
  | some records' =>
      simp only [records] at appended
      obtain rfl := Except.ok.inj appended
      refine ⟨⟨space, shown, ?_⟩, rfl⟩
      rw [SourceNames.replay_append records replayed]
      rfl

/-! ## Calls that keep the names -/

omit [DecidableEq Hash] in
theorem Told.populated (told : Told env st strings mount) (quiet : QuietSource env st strings)
    (populated : Populated env mount.fs next.fs) (journal : next.journal = mount.journal) :
    Told env st strings next := by
  obtain ⟨space, shown, replayed⟩ := told
  exact ⟨space, shown.populated quiet populated, journal ▸ replayed⟩

omit [DecidableEq Hash] in
theorem Told.retouched (told : Told env st strings mount) (retouched : Retouched mount.fs next.fs)
    (journal : next.journal = mount.journal) : Told env st strings next := by
  obtain ⟨space, shown, replayed⟩ := told
  exact ⟨space, shown.retouched retouched, journal ▸ replayed⟩

omit [DecidableEq Hash] in
theorem Told.isTree (told : Told env st strings mount) : IsTree mount.fs := by
  obtain ⟨space, shown, -⟩ := told
  exact shown.sound.isTree

omit [DecidableEq Hash] in
theorem Told.noLinks (told : Told env st strings mount) : NoLinks mount.fs := by
  obtain ⟨space, shown, -⟩ := told
  exact shown.sound.noLinks

/-- A lookup reads directories, and finds an entry that is linked. -/
theorem Told.lookup {mdata : Metadata.Id} (told : Told env st strings mount)
    (quiet : QuietSource env st strings) (lookup : mount.fs.findLocked env path = .ok (mdata, fs)) :
    Told env st strings { mount with fs := fs } ∧ (mdata ≠ 0 -> mdata ∈ fs.index) := by
  obtain ⟨populated, known⟩ := findLocked_populated told.isTree lookup
  exact ⟨told.populated quiet populated rfl, known⟩

omit [DecidableEq Hash] in
/-- Other attributes of the same kind, told to the other names of the file. -/
theorem Told.setStat {mdata : Metadata.Id} (told : Told env st strings mount)
    (linked : mdata ∈ mount.fs.index) (change : Entry Hash -> Stat)
    (kind : fileKind (change (mount.fs.entries mdata)) = fileKind (mount.fs.entries mdata).st)
    (notified : Mount.notifyUpdate env mdata
      (mount.fs.modify mdata fun entry => { entry with st := change entry }) = .ok fs) :
    Told env st strings { mount with fs := fs } := by
  have changed : Told env st strings
      { mount with fs := mount.fs.modify mdata fun entry => { entry with st := change entry } } :=
    told.retouched (.setStat linked change kind) rfl
  rw [notifyUpdate_eq (changed.noLinks mdata linked) notified]
  exact changed

omit [DecidableEq Hash] in
/-- An attribute is changed and the journal told. -/
theorem Told.records {op : JournalOp} {record : JournalRecord}
    (told : Told env st strings { mount with fs := fs }) (known : record.op = op.code)
    (touches : op = .chmod ∨ op = .chown ∨ op = .truncate ∨ op = .utime)
    (result : mount.succeed fs record = .ok (res, next)) : Told env st strings next := by
  obtain ⟨space, shown, replayed⟩ := told
  refine succeed_told _ shown replayed known ?_ (applied_attribute known touches _) result
  rintro rfl
  simp at touches

theorem chmod_told {mode : UInt32} (told : Told env st strings mount)
    (quiet : QuietSource env st strings) (result : mount.chmod env path mode = .ok (res, next)) :
    Told env st strings next := by
  obtain ⟨⟨mdata, found⟩, lookup, result⟩ := bind_eq_ok.mp result
  rw [metadata_eq_ok] at lookup
  obtain ⟨later, known⟩ := told.lookup quiet lookup
  simp only at result
  split at result
  · obtain ⟨-, rfl⟩ := Prod.mk.inj (Except.ok.inj result)
    exact later
  · next present =>
      obtain ⟨fs, notified, result⟩ := bind_eq_ok.mp result
      have changed := later.setStat (known present) (fun entry => chmodStat mode entry.st)
        (chmodMode_type _ _) notified
      exact changed.records rfl (Or.inl rfl) result

theorem chown_told {uid gid : UInt32} (told : Told env st strings mount)
    (quiet : QuietSource env st strings)
    (result : mount.chown env path uid gid = .ok (res, next)) : Told env st strings next := by
  unfold Mount.chown at result
  split at result
  · obtain ⟨-, rfl⟩ := Prod.mk.inj (Except.ok.inj result)
    exact told
  · obtain ⟨⟨mdata, found⟩, lookup, result⟩ := bind_eq_ok.mp result
    rw [metadata_eq_ok] at lookup
    obtain ⟨later, known⟩ := told.lookup quiet lookup
    simp only at result
    split at result
    · obtain ⟨-, rfl⟩ := Prod.mk.inj (Except.ok.inj result)
      exact later
    · next present =>
        obtain ⟨fs, notified, result⟩ := bind_eq_ok.mp result
        have changed := later.setStat (known present)
          (fun _ => chownStat uid gid (found.entries mdata).st) rfl notified
        exact changed.records rfl (Or.inr (Or.inl rfl)) result

theorem truncate_told {size : Int64} (told : Told env st strings mount)
    (quiet : QuietSource env st strings)
    (result : mount.truncate env path size = .ok (res, next)) : Told env st strings next := by
  obtain ⟨⟨mdata, found⟩, lookup, result⟩ := bind_eq_ok.mp result
  rw [metadata_eq_ok] at lookup
  obtain ⟨later, known⟩ := told.lookup quiet lookup
  simp only at result
  split at result
  · obtain ⟨-, rfl⟩ := Prod.mk.inj (Except.ok.inj result)
    exact later
  · next present =>
      have changed : Told env st strings { mount with fs := found.modify mdata fun entry =>
          { entry with st := truncateStat size.toInt entry.st } } :=
        later.retouched
          (.setStat (known present) (fun entry => truncateStat size.toInt entry.st) rfl) rfl
      split at result
      · cases result
      · split at result
        · obtain ⟨-, rfl⟩ := Prod.mk.inj (Except.ok.inj result)
          exact changed
        · split at result
          · obtain ⟨-, rfl⟩ := Prod.mk.inj (Except.ok.inj result)
            exact changed
          · exact changed.records rfl (Or.inr (Or.inr (Or.inl rfl))) result

theorem utime_told {buf : Utimbuf} (told : Told env st strings mount)
    (quiet : QuietSource env st strings) (result : mount.utime env path buf = .ok (res, next)) :
    Told env st strings next := by
  obtain ⟨⟨mdata, found⟩, lookup, result⟩ := bind_eq_ok.mp result
  rw [metadata_eq_ok] at lookup
  obtain ⟨later, known⟩ := told.lookup quiet lookup
  simp only at result
  split at result
  · obtain ⟨-, rfl⟩ := Prod.mk.inj (Except.ok.inj result)
    exact later
  · next present =>
      have changed : Told env st strings { mount with fs := found.modify mdata fun entry =>
          { entry with st := utimeStat buf.actime.toInt64.toInt buf.modtime.toInt64.toInt entry.st } } :=
        later.retouched (.setStat (known present) (fun entry =>
          utimeStat buf.actime.toInt64.toInt buf.modtime.toInt64.toInt entry.st) rfl) rfl
      exact changed.records rfl (Or.inr (Or.inr (Or.inr rfl))) result

/-! ## Files -/

omit [DecidableEq Hash] in
theorem Told.setFile (told : Told env st strings mount) (fh : Fh) (mfile : Option Mfile) :
    Told env st strings (mount.setFile fh mfile) :=
  told.retouched ⟨fun _ => rfl, fun _ => rfl, fun _ _ => rfl, rfl, rfl, rfl⟩ rfl

omit [DecidableEq Hash] in
theorem openMfile_told {fh : Fh} (told : Told env st strings mount)
    (result : mount.openMfile answers fh = .ok (res, next)) : Told env st strings next := by
  unfold Mount.openMfile at result
  have either : next = mount ∨ Exists fun mfile => next = mount.setFile fh mfile := by
    grind
  rcases either with rfl | ⟨mfile, rfl⟩
  · exact told
  · exact told.setFile fh mfile

theorem openFile_told (told : Told env st strings mount) (quiet : QuietSource env st strings)
    (result : mount.openFile env answers path = .ok (res, next)) : Told env st strings next := by
  obtain ⟨⟨mdata, found⟩, lookup, result⟩ := bind_eq_ok.mp result
  rw [metadata_eq_ok] at lookup
  obtain ⟨later, known⟩ := told.lookup quiet lookup
  simp only at result
  split at result
  · obtain ⟨-, rfl⟩ := Prod.mk.inj (Except.ok.inj result)
    exact later
  · next present =>
      split at result
      · obtain ⟨-, rfl⟩ := Prod.mk.inj (Except.ok.inj result)
        exact later
      · obtain ⟨⟨fh, fs⟩, opened, result⟩ := bind_eq_ok.mp result
        rw [metadata_eq_ok] at opened
        have retouched := Retouched.ofOpened (fileidGet_opened (known present) opened)
        have last : Told env st strings { mount with fs := fs } := later.retouched retouched rfl
        exact openMfile_told last result

theorem updateMetadata_told {fh : Fh} {mfile : Mfile} {size : Int} {modified : Bool}
    (told : Told env st strings mount) (quiet : QuietSource env st strings)
    (held : mfile.metadata_id = 0 ∨ mfile.metadata_id ∈ mount.fs.index)
    (result : mount.updateMetadata env answers fh mfile size modified = .ok next) :
    Told env st strings next := by
  obtain ⟨⟨mdata, found⟩, got, result⟩ := bind_eq_ok.mp result
  have later : Told env st strings found ∧ (mdata ≠ 0 -> mdata ∈ found.fs.index) := by
    unfold Mount.getMetadata at got
    split at got
    · next linked =>
        obtain ⟨rfl, rfl⟩ := Prod.mk.inj (Except.ok.inj got)
        exact ⟨told, fun _ => held.resolve_left linked⟩
    · obtain ⟨⟨id, fs⟩, lookup, got⟩ := bind_eq_ok.mp got
      rw [metadata_eq_ok] at lookup
      obtain ⟨later, known⟩ := told.lookup quiet lookup
      simp only at got
      split at got
      · obtain ⟨rfl, rfl⟩ := Prod.mk.inj (Except.ok.inj got)
        exact ⟨later, fun some => absurd rfl some⟩
      · obtain ⟨rfl, rfl⟩ := Prod.mk.inj (Except.ok.inj got)
        exact ⟨later.setFile _ _, known⟩
  simp only at result
  split at result
  · exact Except.ok.inj result ▸ later.1
  · next present =>
      obtain ⟨fs, notified, result⟩ := bind_eq_ok.mp result
      obtain rfl := Except.ok.inj result
      exact later.1.setStat (later.2 present)
        (fun entry => updateStat answers.context.now size modified entry.st) rfl notified

theorem write_told {fh : Fh} {size offset : Nat} (told : Told env st strings mount)
    (quiet : QuietSource env st strings) (held : Held mount.fs fh)
    (result : mount.write env answers fh size offset = .ok (res, next)) :
    Told env st strings next := by
  unfold Mount.write at result
  split at result
  · exact (Prod.mk.inj (Except.ok.inj result)).2 ▸ told
  · split at result
    · exact (Prod.mk.inj (Except.ok.inj result)).2 ▸ told
    · split at result
      · cases result
      · next mfile opened =>
          split at result
          · exact (Prod.mk.inj (Except.ok.inj result)).2 ▸ told
          · next file =>
            unfold Mount.writeFile at result
            split at result
            · exact (Prod.mk.inj (Except.ok.inj result)).2 ▸ told
            · obtain ⟨middle, appended, result⟩ := bind_eq_ok.mp result
              obtain ⟨last, updated, result⟩ := bind_eq_ok.mp result
              obtain ⟨-, rfl⟩ := Prod.mk.inj (Except.ok.inj result)
              have dirty := told.setFile fh (some { mfile with dirty := true })
              have both : Told env st strings middle ∧ middle.fs =
                  (mount.setFile fh (some { mfile with dirty := true })).fs := by
                split at appended
                · obtain rfl := Except.ok.inj appended
                  exact ⟨dirty, rfl⟩
                · exact append_written dirty appended
              refine updateMetadata_told both.1 quiet ?_ updated
              rw [both.2]
              refine held mfile opened ?_
              rw [file]
              exact (nomatch ·)
          · exact (Prod.mk.inj (Except.ok.inj result)).2 ▸ told

theorem findEntry_linked {mountpoint : Path} {mdata : Metadata.Id} (isTree : IsTree fs)
    (found : fs.findEntry env mountpoint path = .ok mdata) (present : mdata ≠ 0) :
    mdata ∈ fs.index := by
  have either : forall (rest : Path) (hash : Hash) (size : Nat),
      (if size = 0 then .ok rootId else fs.findHash rest hash size) = .ok mdata ->
        mdata ∈ fs.index := by
    intro rest hash size found
    split at found
    · exact Except.ok.inj found ▸ isTree.root
    · exact ((findHash_mem found).resolve_left present).1
  exact either _ _ _ found

omit [DecidableEq Hash] [Inhabited Hash] in
theorem fileidGet_held {file_add : Fs Hash -> Fh} {mdata : Metadata.Id} {mypath : Option Path}
    {type : FileType} {opened fh : Fh} {last : Fs Hash} (linked : mdata ∈ fs.index)
    (held : Held fs fh) (result : fs.fileidGet file_add mdata mypath type = .ok (opened, last)) :
    Held last fh := by
  have index := (fileidGet_opened linked result).index
  intro mfile found kind
  rw [index]
  unfold Fs.fileidGet at result
  simp only at result
  split at result
  · split at result
    · cases result
    · next other before =>
        split at result
        · cases result
        · split at result
          · cases result
          · obtain ⟨-, rfl⟩ := Prod.mk.inj (Except.ok.inj result)
            simp only at found
            by_cases same : fh = (fs.entries mdata).fh
            · rw [same, Function.update_self] at found
              obtain rfl := Option.some.inj found
              exact held other (same ▸ before) kind
            · rw [Function.update_of_ne same] at found
              exact held mfile found kind
  · obtain ⟨whole, -, result⟩ := bind_eq_ok.mp result
    obtain ⟨-, rfl⟩ := Prod.mk.inj (Except.ok.inj result)
    simp only at found
    by_cases same : fh = file_add fs
    · rw [same, Function.update_self] at found
      obtain rfl := Option.some.inj found
      exact Or.inr linked
    · rw [Function.update_of_ne same] at found
      exact held mfile found kind

/-- What a virtual file may ask for keeps the names; the open file still has its entry. -/
theorem callAction_told {fh : Fh} {action : VopsAction} (told : Told env st strings mount)
    (quiet : QuietSource env st strings) (files : VopsFiles env strings) (isDir : st.isDir = true)
    (asks : QuietAction st action) (held : Held mount.fs fh)
    (result : mount.callAction env answers action = .ok next) :
    Told env st strings next ∧ Held next.fs fh := by
  cases action with
  | none => exact Except.ok.inj result ▸ ⟨told, held⟩
  | cleanupCache => exact Except.ok.inj result ▸ ⟨told, held⟩
  | applyJournal taken inCache =>
      cases taken with
      | true => exact asks.elim
      | false => exact Except.ok.inj result ▸ ⟨told, held⟩
  | flushMetadata root =>
      obtain rfl : root = st := asks
      simp only [Mount.callAction] at result
      split at result
      · exact Except.ok.inj result ▸ ⟨told, held⟩
      · next applied =>
          obtain ⟨fs, populated, result⟩ := bind_eq_ok.mp result
          rw [metadata_eq_ok] at populated
          obtain rfl := Except.ok.inj result
          have start : Mirrors env root (Fs.format env root) := mirrors_format
          have links := (format_isTree env root).2
          generalize Fs.format env root = fresh at start links populated
          have mirrors := start.withFiles (fun fh => (mount.fs.mfiles fh).map Mount.clearMetadataId)
            mount.fs.reads
          refine ⟨⟨env.names root, mirrors.populateVops_shows links quiet files isDir populated, ?_⟩,
            ?_⟩
          · rw [not_not.mp applied]
            rfl
          · intro mfile opened kind
            rw [mirrors.populateVops_mfiles quiet.steady populated] at opened
            obtain ⟨old, -, rfl⟩ := Option.map_eq_some_iff.mp opened
            unfold Mount.clearMetadataId at kind ⊢
            split
            · next vops => exact absurd vops (by rwa [if_pos vops] at kind)
            · exact Or.inl rfl
  | fillCacheMeta mountpoint cache_prefix =>
      cases cache_prefix with
      | none => exact Except.ok.inj result ▸ ⟨told, held⟩
      | some wanted =>
          obtain ⟨mdata, found, result⟩ := bind_eq_ok.mp result
          rw [metadata_eq_ok] at found
          split at result
          · exact Except.ok.inj result ▸ ⟨told, held⟩
          · next present =>
              obtain ⟨fs, scheduled, result⟩ := bind_eq_ok.mp result
              rw [metadata_eq_ok] at scheduled
              obtain rfl := Except.ok.inj result
              have linked := findEntry_linked told.isTree found present
              refine ⟨told.retouched (.ofOpened (scheduleFillEntry_opened linked scheduled)) rfl, ?_⟩
              obtain ⟨opened, got⟩ := map_snd_eq_ok.mp scheduled
              exact fileidGet_held linked held got

omit [DecidableEq Hash] in
theorem fileRelease_told {fh : Fh} (told : Told env st strings mount) (held : Held mount.fs fh)
    (result : mount.fileRelease fh = .ok next) : Told env st strings next := by
  unfold Mount.fileRelease at result
  split at result
  · cases result
  · next mfile found =>
      split at result
      · cases result
      · split at result
        · next last =>
            obtain rfl := Except.ok.inj result
            have closed : Told env st strings { mount with
                fs := if mfile.metadata_id = 0 then mount.fs
                  else mount.fs.modify mfile.metadata_id fun entry => { entry with fh := 0 } } := by
              split
              · exact told
              · next some =>
                  have linked := (held mfile found last.2).resolve_left some
                  refine told.retouched (.ofOpened ⟨fun id => ?_, fun id away => ?_, rfl, rfl, rfl,
                    rfl⟩) rfl
                  · by_cases same : id = mfile.metadata_id
                    · rw [same, modify_self]
                    · rw [modify_other same]
                  · have apart : id ≠ mfile.metadata_id := by
                      rintro rfl
                      exact away linked
                    rw [modify_other apart]
            exact closed.setFile fh none
        · obtain rfl := Except.ok.inj result
          exact told.setFile _ _

theorem release_told {fh : Fh} {isWrite : Bool} (told : Told env st strings mount)
    (quiet : QuietSource env st strings) (files : VopsFiles env strings) (isDir : st.isDir = true)
    (held : Held mount.fs fh) (asks : QuietAction st answers.action)
    (result : mount.release env answers fh isWrite = .ok (res, next)) :
    Told env st strings next := by
  unfold Mount.release at result
  split at result
  · exact (Prod.mk.inj (Except.ok.inj result)).2 ▸ told
  · split at result
    · cases result
    · obtain ⟨middle, acted, result⟩ := bind_eq_ok.mp result
      obtain ⟨last, released, result⟩ := bind_eq_ok.mp result
      obtain ⟨-, rfl⟩ := Prod.mk.inj (Except.ok.inj result)
      have both : Told env st strings middle ∧ Held middle.fs fh := by
        split at acted
        · exact callAction_told told quiet files isDir asks held acted
        · exact Except.ok.inj acted ▸ ⟨told, held⟩
      exact fileRelease_told both.1 both.2 released

/-! ## Calls that change the names -/

/-- The record of a call that can be made on the source. -/
theorem make_applied {names : List Component} {path : Path} {kind : UInt32}
    (spelled : pathNames path = names) (can : space.CanEnter IsDirectory names) :
    SourceNames.make path kind ⟨space, 0⟩ = ⟨space.enter names kind, 0⟩ := by
  rw [SourceNames.make, spelled]
  exact SourceNames.call_can can

/-- `mcachefs_metadata_make_entry` of a call of the kernel: nothing has been made, or the
namespace has something new. -/
theorem Told.makeEntry {mode : UInt32} {rdev : UInt64} (told : Told env st strings mount)
    (quiet : QuietSource env st strings) (free : Free strings mount.fs path)
    (result : mount.fs.makeEntry env answers.context path mode rdev = .ok (res, fs)) :
    res ≠ 0 ∧ Told env st strings { mount with fs := fs } ∨
      res = 0 ∧ Exists fun space => Exists fun names =>
        SourceNames.replay mount.journal ⟨env.names st, 0⟩ = .ok ⟨space, 0⟩ ∧
        pathNames path = names ∧ space.CanEnter IsDirectory names ∧
        Shows env st strings (space.enter names (mode &&& S_IFMT)) fs := by
  rcases makeEntry_cases told.isTree result with ⟨rfl, populated⟩ | ⟨rfl, -⟩
  · exact Or.inl ⟨by decide, told.populated quiet populated rfl⟩
  · obtain ⟨names, name, placed, short⟩ := free
    obtain ⟨space, shown, replayed⟩ := told
    have spelled := placed.spelled
    subst spelled
    obtain ⟨can, after⟩ := shown.makeEntry quiet placed.asks placed.components short placed.real
      placed.directory result
    exact Or.inr ⟨rfl, space, names ++ [name], replayed, pathNames_absolutePath placed.components,
      can, after⟩

theorem symlink_told (told : Told env st strings mount) (quiet : QuietSource env st strings)
    (free : Free strings mount.fs toPath) (created : answers.createpath.value = 0)
    (linked : answers.symlink = none)
    (result : mount.symlink env answers path toPath = .ok (res, next)) :
    Told env st strings next := by
  obtain ⟨⟨code, fs⟩, made, result⟩ := bind_eq_ok.mp result
  rw [metadata_eq_ok] at made
  simp only at result
  rcases told.makeEntry quiet free made with ⟨failed, same⟩ |
    ⟨rfl, space, names, replayed, spelled, can, after⟩
  · rw [if_pos failed] at result
    obtain ⟨-, rfl⟩ := Prod.mk.inj (Except.ok.inj result)
    exact same
  · simp only [ne_eq, not_true_eq_false, if_false, created, linked] at result
    have kind : (S_IFLNK ||| 0o777) &&& S_IFMT = S_IFLNK := by decide
    rw [kind] at after
    refine succeed_told .symlink after replayed rfl (by decide) ?_ result
    exact congrArg Except.ok (make_applied spelled can)

theorem mknod_told {mode : UInt32} {rdev : UInt64} (told : Told env st strings mount)
    (quiet : QuietSource env st strings) (free : Free strings mount.fs path)
    (kind : mode &&& S_IFMT ≠ 0) (file : mode &&& S_IFMT ≠ S_IFDIR)
    (result : mount.mknod env answers path mode rdev = .ok (res, next)) :
    Told env st strings next := by
  obtain ⟨⟨code, fs⟩, made, result⟩ := bind_eq_ok.mp result
  rw [metadata_eq_ok] at made
  simp only at result
  rcases told.makeEntry quiet free made with ⟨failed, same⟩ |
    ⟨rfl, space, names, replayed, spelled, can, after⟩
  · rw [if_pos failed] at result
    obtain ⟨-, rfl⟩ := Prod.mk.inj (Except.ok.inj result)
    exact same
  · simp only [ne_eq, not_true_eq_false, if_false] at result
    obtain ⟨⟨zero, last⟩, succeeded, result⟩ := bind_eq_ok.mp result
    have same : next = last := by
      simp only at result
      split at result <;> exact (Prod.mk.inj (Except.ok.inj result)).2.symm
    rw [same]
    refine succeed_told .mknod after replayed rfl (by decide) ?_ succeeded
    have applied : SourceNames.applyCalls.mknod path mode rdev ⟨space, 0⟩ =
        ⟨space.enter names (mode &&& S_IFMT), 0⟩ := by
      simp only [SourceNames.applyCalls, if_neg file, nodeKind, if_neg kind]
      exact make_applied spelled can
    exact congrArg Except.ok applied

theorem mkdir_told {mode : UInt32} (told : Told env st strings mount)
    (quiet : QuietSource env st strings) (free : Free strings mount.fs path)
    (kind : (mode ||| S_IFDIR) &&& S_IFMT = S_IFDIR)
    (result : mount.mkdir env answers path mode = .ok (res, next)) : Told env st strings next := by
  obtain ⟨⟨code, fs⟩, made, result⟩ := bind_eq_ok.mp result
  rw [metadata_eq_ok] at made
  simp only at result
  rcases told.makeEntry quiet free made with ⟨failed, same⟩ |
    ⟨rfl, space, names, replayed, spelled, can, after⟩
  · rw [if_pos failed] at result
    obtain ⟨-, rfl⟩ := Prod.mk.inj (Except.ok.inj result)
    exact same
  · simp only [ne_eq, not_true_eq_false, if_false] at result
    rw [kind] at after
    refine succeed_told .mkdir after replayed rfl (by decide) ?_ result
    exact congrArg Except.ok (make_applied spelled can)

theorem remove_told {isDir : Bool} (told : Told env st strings mount)
    (quiet : QuietSource env st strings) {names : List Component} {name : Component}
    (placed : Placed strings mount.fs path names name)
    (result : mount.remove env path isDir = .ok (res, next)) : Told env st strings next := by
  obtain ⟨⟨code, fs⟩, removed, result⟩ := bind_eq_ok.mp result
  rw [metadata_eq_ok] at removed
  simp only at result
  by_cases failed : code = 0
  · subst failed
    simp only [ne_eq, not_true_eq_false, if_false] at result
    obtain ⟨space, shown, replayed⟩ := told
    have spelled := placed.spelled
    subst spelled
    have names_eq := pathNames_absolutePath placed.components
    obtain ⟨can, after⟩ := shown.rmdirUnlink quiet placed.asks placed.components placed.real
      placed.directory removed
    cases isDir with
    | true =>
        refine succeed_told .rmdir after replayed rfl (by decide) ?_ result
        refine congrArg Except.ok ?_
        simp only [JournalRecord.item, emptyRecord, SourceNames.applyCalls, names_eq]
        exact SourceNames.call_can can
    | false =>
        refine succeed_told .unlink after replayed rfl (by decide) ?_ result
        refine congrArg Except.ok ?_
        simp only [JournalRecord.item, emptyRecord, SourceNames.applyCalls, names_eq]
        exact SourceNames.call_can can
  · rw [if_pos failed] at result
    obtain ⟨-, rfl⟩ := Prod.mk.inj (Except.ok.inj result)
    obtain ⟨found, id, -, middle, populated, ⟨-, rfl⟩ | ⟨zero, -⟩⟩ :=
      rmdirUnlink_cases told.isTree told.noLinks removed
    · exact told.populated quiet populated rfl
    · exact absurd zero failed

theorem rename_told (told : Told env st strings mount) (quiet : QuietSource env st strings)
    {front above : List Component} {last name : Component}
    (placed : Placed strings mount.fs path front last)
    (target : Placed strings mount.fs toPath above name) (short : name.length ≤ NAME_MAX)
    (apart : ¬ front ++ [last] <+: above ++ [name])
    (string : StringsMove env strings mount.fs (front ++ [last]) (above ++ [name]))
    (result : mount.rename env path toPath = .ok (res, next)) : Told env st strings next := by
  obtain ⟨⟨code, fs⟩, renamed, result⟩ := bind_eq_ok.mp result
  rw [metadata_eq_ok] at renamed
  simp only at result
  by_cases failed : code = 0
  · subst failed
    simp only [ne_eq, not_true_eq_false, if_false] at result
    obtain ⟨space, shown, replayed⟩ := told
    have spelled := placed.spelled
    have targetSpelled := target.spelled
    subst spelled targetSpelled
    have names_eq := pathNames_absolutePath placed.components
    have target_eq := pathNames_absolutePath target.components
    obtain ⟨can, after⟩ := shown.renameEntry quiet placed.asks target.asks placed.components
      target.components short placed.real target.real placed.directory target.directory apart string
      renamed
    refine succeed_told .rename after replayed rfl (by decide) ?_ result
    refine congrArg Except.ok ?_
    simp only [JournalRecord.item, emptyRecord, SourceNames.applyCalls, names_eq, target_eq]
    exact SourceNames.call_can can
  · rw [if_pos failed] at result
    obtain ⟨-, rfl⟩ := Prod.mk.inj (Except.ok.inj result)
    exact told.populated quiet (renameEntry_refused told.isTree renamed failed) rfl

/-! ## Runs -/

/-- What one call of the kernel keeps. -/
theorem namesStep_told {event : NamesEvent Hash} (quiet : QuietSource env st strings)
    (files : VopsFiles env strings) (isDir : st.isDir = true) (told : Told env st strings mount)
    (foreseen : Foreseen env st strings mount event)
    (result : namesStep env mount event = .ok next) : Told env st strings next := by
  cases event with
  | getattr path =>
      obtain ⟨value, got⟩ := map_snd_eq_ok.mp result
      obtain ⟨populated, journal⟩ := getattr_populated told.isTree got
      exact told.populated quiet populated journal
  | readdir filler path =>
      obtain ⟨value, got⟩ := map_snd_eq_ok.mp result
      obtain ⟨populated, journal⟩ := readdir_populated told.isTree got
      exact told.populated quiet populated journal
  | readlink linkAnswers path =>
      obtain ⟨value, got⟩ := map_snd_eq_ok.mp result
      obtain ⟨populated, journal⟩ := readlink_populated told.isTree got
      exact told.populated quiet populated journal
  | call callback answers =>
      obtain ⟨code, ran⟩ := map_snd_eq_ok.mp result
      cases callback with
      | symlink path toPath =>
          obtain ⟨free, created, linked⟩ := foreseen
          exact symlink_told told quiet free created linked ran
      | mknod path mode rdev =>
          obtain ⟨free, kind, file⟩ := foreseen
          exact mknod_told told quiet free kind file ran
      | mkdir path mode =>
          obtain ⟨free, kind⟩ := foreseen
          exact mkdir_told told quiet free kind ran
      | unlink path =>
          obtain ⟨names, name, placed⟩ := foreseen
          exact remove_told told quiet placed ran
      | rmdir path =>
          obtain ⟨names, name, placed⟩ := foreseen
          exact remove_told told quiet placed ran
      | rename path toPath =>
          obtain ⟨front, last, above, name, placed, target, short, apart, string⟩ := foreseen
          exact rename_told told quiet placed target short apart string ran
      | link fromPath toPath => exact foreseen.elim
      | chmod path mode => exact chmod_told told quiet ran
      | chown path uid gid => exact chown_told told quiet ran
      | truncate path size => exact truncate_told told quiet ran
      | utime path buf => exact utime_told told quiet ran
      | openFile path => exact openFile_told told quiet ran
      | write fh size offset => exact write_told told quiet foreseen ran
      | release fh isWrite =>
          exact release_told told quiet files isDir foreseen.1 foreseen.2 ran

end Runs

/-! ## A run -/

/-- A source with the directory `/d`, and one virtual file. -/
def smallSource : Env UInt32 :=
  { emptySource with
    source := fun _ names =>
      if names = [] then some [(ascii "d", directoryStat)]
      else if names = [ascii "d"] then some [] else none
    vops_list := [ascii "action"] }

/-- The strings that are hashed in the run. -/
def smallStrings : List Path :=
  ["/", "/.mcachefs", "/.mcachefs/action", "/d", "/e", "//e", "/e/f", "/f", "//f"].map ascii

/-- `mkdir /e`, `mknod /e/f`, `mv /e/f /f` and `ls /`. -/
def smallRun : List (NamesEvent UInt32) :=
  [.call (.mkdir (ascii "/e") 0o755) allSucceed,
    .call (.mknod (ascii "/e/f") (S_IFREG ||| 0o644) 0) allSucceed,
    .call (.rename (ascii "/e/f") (ascii "/f")) allSucceed,
    .readdir (fun _ _ => 0) (ascii "/")]

theorem smallSource_below {names : List Component} {here : Stat}
    (there : smallSource.below [] directoryStat names = some here) :
    names = [] ∨ names = [ascii "d"] := by
  have root : smallSource.listing [] = [(ascii "d", directoryStat)] := by decide
  have directory : smallSource.listing [ascii "d"] = [] := by decide
  induction names using List.reverseRecOn generalizing here with
  | nil => exact Or.inl rfl
  | append_singleton names last inductionHypothesis =>
      rw [Env.below_concat] at there
      obtain ⟨above, aboveThere, listed⟩ := Option.bind_eq_some_iff.mp there
      split at listed
      · rcases inductionHypothesis aboveThere with rfl | rfl
        · obtain ⟨rfl, -⟩ := lookup_one (root ▸ listed)
          exact Or.inr rfl
        · rw [directory] at listed
          cases listed
      · cases listed

theorem smallSource_steady : smallSource.Steady directoryStat := by
  have answers : forall names des, smallSource.source 0 names = some des ->
      des = [(ascii "d", directoryStat)] ∨ des = [] := by
    intro names des answered
    simp only [smallSource] at answered
    split at answered
    · exact Or.inl (Option.some.inj answered).symm
    · split at answered
      · exact Or.inr (Option.some.inj answered).symm
      · cases answered
  refine ⟨fun _ _ => rfl, fun names here there directory => ?_, fun reads names des answered => ?_,
    fun names des answered => ?_, fun names des answered => ?_⟩
  · rcases smallSource_below there with rfl | rfl
    · exact ⟨_, rfl⟩
    · exact ⟨_, rfl⟩
  · rcases answers names des answered with rfl | rfl <;> decide
  · rcases answers names des answered with rfl | rfl <;> decide
  · rcases answers names des answered with rfl | rfl <;> decide

theorem smallSource_quiet : QuietSource smallSource directoryStat (· ∈ smallStrings) := by
  refine ⟨smallSource_steady, ?_, fun names here there => ?_⟩
  · have apart : forall one, one ∈ smallStrings -> forall two, two ∈ smallStrings ->
        smallSource.hashing.doHash one = smallSource.hashing.doHash two -> one = two := by
      decide +kernel
    exact fun one two oneMember twoMember => apart one oneMember two twoMember
  · rcases smallSource_below there with rfl | rfl <;> decide

theorem smallSource_files : VopsFiles smallSource (· ∈ smallStrings) := by
  refine ⟨by decide, by decide, by decide, by decide, by decide, by decide⟩

/-- The states of the run. -/
theorem smallRun_states : Exists fun fs => Exists fun one => Exists fun two => Exists fun three =>
    Exists fun four =>
      (Fs.format smallSource directoryStat).populateVops smallSource = .ok fs ∧
      (namesStep smallSource ⟨fs, []⟩ (.call (.mkdir (ascii "/e") 0o755) allSucceed) = .ok one ∧
        namesStep smallSource one (.call (.mknod (ascii "/e/f") (S_IFREG ||| 0o644) 0) allSucceed) =
          .ok two ∧
        namesStep smallSource two (.call (.rename (ascii "/e/f") (ascii "/f")) allSucceed) =
          .ok three ∧
        namesStep smallSource three (.readdir (fun _ _ => 0) (ascii "/")) = .ok four) ∧
      rootId ∈ fs.index ∧ (fs.entries rootId).st.isDir = true ∧
      (5 ∈ one.fs.index ∧ one.fs.father 5 = rootId ∧ (one.fs.entries 5).d_name = ascii "e" ∧
        (one.fs.entries 5).st.isDir = true) ∧
      (rootId ∈ two.fs.index ∧ (two.fs.entries rootId).st.isDir = true) ∧
      (5 ∈ two.fs.index ∧ two.fs.father 5 = rootId ∧ (two.fs.entries 5).d_name = ascii "e" ∧
        (two.fs.entries 5).st.isDir = true) ∧
      6 ∈ two.fs.index ∧ two.fs.father 6 = 5 ∧ (two.fs.entries 6).d_name = ascii "f" ∧
        (two.fs.entries 6).st.isDir = false := by
  have evaluated : (do
      let fs ← metadata ((Fs.format smallSource directoryStat).populateVops smallSource)
      let one ← namesStep smallSource ⟨fs, []⟩ (.call (.mkdir (ascii "/e") 0o755) allSucceed)
      let two ← namesStep smallSource one
        (.call (.mknod (ascii "/e/f") (S_IFREG ||| 0o644) 0) allSucceed)
      let three ← namesStep smallSource two (.call (.rename (ascii "/e/f") (ascii "/f")) allSucceed)
      let four ← namesStep smallSource three (.readdir (fun _ _ => 0) (ascii "/"))
      return decide (rootId ∈ four.fs.index ∧ rootId ∈ fs.index ∧
        (fs.entries rootId).st.isDir = true ∧
        (5 ∈ one.fs.index ∧ one.fs.father 5 = rootId ∧ (one.fs.entries 5).d_name = ascii "e" ∧
          (one.fs.entries 5).st.isDir = true) ∧
        (rootId ∈ two.fs.index ∧ (two.fs.entries rootId).st.isDir = true) ∧
        (5 ∈ two.fs.index ∧ two.fs.father 5 = rootId ∧ (two.fs.entries 5).d_name = ascii "e" ∧
          (two.fs.entries 5).st.isDir = true) ∧
        6 ∈ two.fs.index ∧ two.fs.father 6 = 5 ∧ (two.fs.entries 6).d_name = ascii "f" ∧
          (two.fs.entries 6).st.isDir = false) : Except Fault Bool) = .ok true := by decide +kernel
  obtain ⟨fs, start, later⟩ := bind_eq_ok.mp evaluated
  obtain ⟨one, first, later⟩ := bind_eq_ok.mp later
  obtain ⟨two, second, later⟩ := bind_eq_ok.mp later
  obtain ⟨three, third, later⟩ := bind_eq_ok.mp later
  obtain ⟨four, fourth, later⟩ := bind_eq_ok.mp later
  simp only [pure, Except.pure, Except.ok.injEq, decide_eq_true_eq] at later
  exact ⟨fs, one, two, three, four, metadata_eq_ok.mp start, ⟨first, second, third, fourth⟩, later.2⟩

/-- What the calls of the run are made for. -/
theorem smallRun_calls : Exists fun fs => Exists fun one => Exists fun two => Exists fun three =>
    Exists fun four =>
      (Fs.format smallSource directoryStat).populateVops smallSource = .ok fs ∧
      (namesStep smallSource ⟨fs, []⟩ (.call (.mkdir (ascii "/e") 0o755) allSucceed) = .ok one ∧
        namesStep smallSource one (.call (.mknod (ascii "/e/f") (S_IFREG ||| 0o644) 0) allSucceed) =
          .ok two ∧
        namesStep smallSource two (.call (.rename (ascii "/e/f") (ascii "/f")) allSucceed) =
          .ok three ∧
        namesStep smallSource three (.readdir (fun _ _ => 0) (ascii "/")) = .ok four) ∧
      Placed (· ∈ smallStrings) fs (ascii "/e") [] (ascii "e") ∧
      Placed (· ∈ smallStrings) one.fs (ascii "/e/f") [ascii "e"] (ascii "f") ∧
      Placed (· ∈ smallStrings) two.fs (ascii "/e/f") [ascii "e"] (ascii "f") ∧
      Placed (· ∈ smallStrings) two.fs (ascii "/f") [] (ascii "f") ∧
      StringsMove smallSource (· ∈ smallStrings) two.fs [ascii "e", ascii "f"] [ascii "f"] := by
  obtain ⟨fs, one, two, three, four, start, steps, root, rootDir,
    ⟨oneE, oneAbove, oneName, oneDir⟩, ⟨twoRoot, twoRootDir⟩, ⟨twoE, twoAbove, twoName, twoDir⟩,
    twoF, fAbove, fName, fFile⟩ := smallRun_states
  have named {state : Fs UInt32} {id father : Metadata.Id} {names : List Component}
      {name : Component} (above : state.father id = father) (some : father ≠ 0)
      (spelled : (state.entries id).d_name = name) (upper : Named state father names) :
      Named state id (names ++ [name]) := by
    subst above spelled
    exact .child some upper
  have oneNamed : Named one.fs 5 [ascii "e"] := named oneAbove (by decide) oneName .root
  have twoNamed : Named two.fs 5 [ascii "e"] := named twoAbove (by decide) twoName .root
  have fNamed : Named two.fs 6 [ascii "e", ascii "f"] := named fAbove (by decide) fName twoNamed
  have made : Placed (· ∈ smallStrings) fs (ascii "/e") [] (ascii "e") :=
    ⟨by decide, ⟨by decide, by decide, by decide⟩, by decide, ⟨rootId, root, .root, rootDir⟩,
      by decide⟩
  have filed : Placed (· ∈ smallStrings) one.fs (ascii "/e/f") [ascii "e"] (ascii "f") :=
    ⟨by decide, ⟨by decide, by decide, by decide⟩, by decide, ⟨5, oneE, oneNamed, oneDir⟩,
      by decide⟩
  have told : Told smallSource directoryStat (· ∈ smallStrings) ⟨fs, []⟩ :=
    ⟨_, mirrors_format.populateVops_shows (format_isTree _ _).2 smallSource_quiet smallSource_files
      (by decide) start, rfl⟩
  have madeForeseen : Foreseen smallSource directoryStat (· ∈ smallStrings) ⟨fs, []⟩
      (.call (.mkdir (ascii "/e") 0o755) allSucceed) :=
    ⟨⟨[], ascii "e", made, by decide⟩, by decide⟩
  have filedForeseen : Foreseen smallSource directoryStat (· ∈ smallStrings) one
      (.call (.mknod (ascii "/e/f") (S_IFREG ||| 0o644) 0) allSucceed) :=
    ⟨⟨[ascii "e"], ascii "f", filed, by decide⟩, by decide, by decide⟩
  have second := namesStep_told smallSource_quiet smallSource_files (by decide)
    (namesStep_told smallSource_quiet smallSource_files (by decide) told madeForeseen steps.1)
    filedForeseen steps.2.1
  obtain ⟨space, shown, -⟩ := second
  exact ⟨fs, one, two, three, four, start, steps, made, filed,
    ⟨by decide, ⟨by decide, by decide, by decide⟩, by decide, ⟨5, twoE, twoNamed, twoDir⟩,
      by decide⟩,
    ⟨by decide, ⟨by decide, by decide, by decide⟩, by decide, ⟨rootId, twoRoot, .root, twoRootDir⟩,
      by decide⟩,
    shown.stringsMove_file smallSource_quiet twoF fNamed (by rw [fFile]; decide) (by decide)⟩

end Lowlevel
end Mcachefs
