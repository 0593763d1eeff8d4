import Mcachefs.Lowlevel.Lookups
import Mcachefs.Metadata.PairedFiles

namespace Mcachefs
namespace Lowlevel

open Library Metadata
open Transfer (Fh)

/-!
# The link between open files and entries

`mcachefs_fileid_get` sets both sides of the link between an open file and its
entry, and an unlink, a release and a flush clear both.  `mcachefs_file_get_metadata`
has a repair path for an open file that has lost its entry: it looks the path up
again and sets one side only.  That entry may belong to another open file, or gets
a second one when it is opened.
-/

/-- The functions that read or write the link. -/
inductive LinkEvent
  /-- `mcachefs_fileid_get` of an entry of the tree. -/
  | fileidGet (mdata : Id) (path : Option Path) (type : FileType)
  /-- `mcachefs_file_update_metadata`, which is not called for virtual files. -/
  | updateMetadata (fh : Fh) (size : Int) (modified : Bool)
  | fileRelease (fh : Fh)
  | tree (call : TreeCall)
  /-- `mcachefs_metadata_flush`, with the attributes of the root of the source. -/
  | flush (st : Stat)

section Runs

variable {Hash : Type} [DecidableEq Hash] [Inhabited Hash] (env : Env Hash)

def LinkEvent.run (mount : Mount Hash) (answers : Answers Hash) :
    LinkEvent -> Except Fault (Mount Hash)
  | .fileidGet mdata path type =>
      if mdata ∈ mount.fs.index then do
        let (_, fs) ← metadata (mount.fs.fileidGet answers.file_add mdata path type)
        .ok { mount with fs := fs }
      else .ok mount
  | .updateMetadata fh size modified =>
      match mount.fs.mfiles fh with
      | none => .error .deleted
      | some mfile =>
          if mfile.type = .vops then .ok mount
          else mount.updateMetadata env answers fh mfile size modified
  | .fileRelease fh => mount.fileRelease fh
  | .tree call => do
      let fs ← metadata (call.run env mount.fs)
      .ok { mount with fs := fs }
  | .flush st => mount.callAction env answers (.flushMetadata st)

def linkStep (mount : Mount Hash) (event : LinkEvent × Answers Hash) : Except Fault (Mount Hash) :=
  event.1.run env mount event.2

/-- What memory allocation and the kernel promise: the place of a new open file is
not in use, a directory is not moved into itself, and only directories have
children. -/
def Promised (mount : Mount Hash) : LinkEvent × Answers Hash -> Prop
  | (.fileidGet _ _ _, answers) =>
      mount.fs.mfiles (answers.file_add mount.fs) = none ∧ answers.file_add mount.fs ≠ 0
  | (.tree call, _) => call.Legal env mount.fs ∧ call.Leaf env mount.fs
  | _ => True

/-- No update goes through an open file without an entry while its path has one. -/
def NotRepaired (mount : Mount Hash) : LinkEvent × Answers Hash -> Prop
  | (.updateMetadata fh _ _, _) =>
      forall mfile, mount.fs.mfiles fh = some mfile -> mfile.type ≠ .vops ->
        mfile.metadata_id = 0 -> Absent env mount.fs mfile.path
  | _ => True

/-- An open file has the id of an entry exactly if the entry has its handle, and no
id of an entry that is gone. -/
def Bijective (mount : Mount Hash) : Prop :=
  forall fh mfile, mount.fs.mfiles fh = some mfile -> mfile.type ≠ .vops ->
    (mfile.metadata_id = 0 ∨ mfile.metadata_id ∈ mount.fs.index) ∧
      forall id, id ∈ mount.fs.index ->
        (mfile.metadata_id = id ↔ (mount.fs.entries id).fh = fh)

/-- An update only gets at the entry that has the open file it goes through. -/
def UpdatesOwn (mount : Mount Hash) : LinkEvent × Answers Hash -> Prop
  | (.updateMetadata fh _ _, _) =>
      forall mfile id next, mount.fs.mfiles fh = some mfile -> mfile.type ≠ .vops ->
        mount.getMetadata env fh mfile = .ok (id, next) -> id ≠ 0 ->
          (mount.fs.entries id).fh = fh
  | _ => True

/-! ## The invariant -/

/-- The tree, without hard links, and the pairing. -/
structure Linking (fs : Fs Hash) : Prop where
  isTree : IsTree fs
  noLinks : NoLinks fs
  paired : Paired fs

variable {env} {fs next : Fs Hash}

omit [DecidableEq Hash] in
theorem Linking.bijective {mount : Mount Hash} (linking : Linking mount.fs) : Bijective mount := by
  intro fh mfile opened type
  refine ⟨?_, fun id linked => ?_⟩
  · by_cases none : mfile.metadata_id = 0
    · exact Or.inl none
    · exact Or.inr (linking.paired.entry fh mfile opened type none).1
  · exact linking.paired.eq_iff linked (linking.isTree.ne_zero linked) opened type

omit [DecidableEq Hash] in
theorem Linking.populated (linking : Linking fs) (populated : Populated env fs next) :
    Linking next :=
  ⟨populated.isTree linking.isTree, populated.noLinks linking.isTree linking.noLinks,
    populated.paired linking.isTree linking.paired⟩

omit [DecidableEq Hash] in
/-- Attributes and open files are no part of the tree. -/
theorem Linking.ofAlike (linking : Linking fs)
    (entries : forall id, (next.entries id).father = (fs.entries id).father ∧
      (next.entries id).child = (fs.entries id).child ∧
      (next.entries id).next = (fs.entries id).next ∧
      (next.entries id).hardlink = (fs.entries id).hardlink)
    (unlinked : forall id, id ∉ fs.index -> next.entries id = fs.entries id)
    (alloced_nb : next.alloced_nb = fs.alloced_nb) (first_free : next.first_free = fs.first_free)
    (index : next.index = fs.index) (paired : Paired next) : Linking next := by
  refine ⟨?_, fun id linked => ?_, paired⟩
  · obtain ⟨kids, free, tree⟩ := linking.isTree
    refine ⟨kids, free, tree.congr alloced_nb first_free (.of_eq index) (fun id _ => ?_)
      fun id member => unlinked id fun linked => (tree.mem_index.mp linked).2.2 member⟩
    obtain ⟨father, child, link, -⟩ := entries id
    exact ⟨father, link, congrArg Child.id child⟩
  · rw [(entries id).2.2.2]
    exact linking.noLinks id (index ▸ linked)

/-! ## The steps -/

omit [DecidableEq Hash] in
theorem fileidGet_linking {file_add : Fs Hash -> Fh} {mdata : Id} {path : Option Path}
    {type : FileType} {fh : Fh} (linking : Linking fs) (linked : mdata ∈ fs.index)
    (fresh : fs.mfiles (file_add fs) = none) (some : file_add fs ≠ 0)
    (result : fs.fileidGet file_add mdata path type = .ok (fh, next)) : Linking next := by
  have opened := fileidGet_opened linked result
  refine linking.ofAlike (fun id => ⟨congrFun opened.father id, opened.child id,
    congrFun opened.next_eq id, (congrArg Entry.hardlink (opened.entries id)).trans rfl⟩)
    opened.unlinked opened.alloced_nb opened.first_free opened.index ?_
  have paired := linking.paired
  unfold Fs.fileidGet at result
  simp only at result
  split at result
  · split at result
    · cases result
    · next mfile held =>
        split at result
        · cases result
        · split at result
          · cases result
          · obtain ⟨-, rfl⟩ := Prod.mk.inj (Except.ok.inj result)
            have same : filed { mfile with use := mfile.use + 1 } = filed mfile := rfl
            exact paired.transfer (fun _ => Iff.rfl) (fun _ _ => rfl) (.set held same rfl)
  · next closed =>
      have none : (fs.entries mdata).fh = 0 := not_not.mp closed
      obtain ⟨mypath, -, result⟩ := bind_eq_ok.mp result
      obtain ⟨-, rfl⟩ := Prod.mk.inj (Except.ok.inj result)
      refine paired.connect linked none fresh some rfl rfl rfl ?_ fun other different => ?_
      · rw [modify_self]
      · rw [modify_other different]

omit [DecidableEq Hash] in
theorem fileRelease_linking {mount after : Mount Hash} {fh : Fh} (linking : Linking mount.fs)
    (result : mount.fileRelease fh = .ok after) : Linking after.fs := by
  have paired := linking.paired
  unfold Mount.fileRelease at result
  split at result
  · cases result
  · next mfile held =>
      split at result
      · cases result
      · split at result
        · next last =>
            obtain rfl := Except.ok.inj result
            by_cases unlinked : mfile.metadata_id = 0
            · simp only [unlinked, if_true]
              refine linking.ofAlike (fun _ => ⟨rfl, rfl, rfl, rfl⟩) (fun _ _ => rfl) rfl rfl rfl
                (paired.disconnect held last.2 rfl rfl (Or.inr unlinked) (fun _ _ => rfl)
                  fun _ => linking.isTree.ne_zero)
            · simp only [unlinked, if_false]
              have inside := (paired.entry fh mfile held last.2 unlinked).1
              refine linking.ofAlike (fun id => ?_) (fun id away => ?_) rfl rfl rfl
                (paired.disconnect held last.2 rfl rfl (Or.inl ?_) (fun id different => ?_)
                  fun _ => linking.isTree.ne_zero)
              · by_cases same : id = mfile.metadata_id
                · rw [same, Mount.setFile, modify_self]
                  exact ⟨rfl, rfl, rfl, rfl⟩
                · rw [Mount.setFile, modify_other same]
                  exact ⟨rfl, rfl, rfl, rfl⟩
              · have apart : id ≠ mfile.metadata_id := by
                  rintro rfl
                  exact away inside
                rw [Mount.setFile, modify_other apart]
              · rw [Mount.setFile, modify_self]
              · rw [Mount.setFile, modify_other different]
        · obtain rfl := Except.ok.inj result
          have same : filed { mfile with use := mfile.use - 1 } = filed mfile := rfl
          exact linking.ofAlike (fun _ => ⟨rfl, rfl, rfl, rfl⟩) (fun _ _ => rfl) rfl rfl rfl
            (paired.transfer (fun _ => Iff.rfl) (fun _ _ => rfl) (.set held same rfl))

omit [DecidableEq Hash] in
/-- Attributes of one entry. -/
theorem Linking.setStat (linking : Linking fs) {id : Id} (linked : id ∈ fs.index)
    (change : Entry Hash -> Stat) :
    Linking (fs.modify id fun entry => { entry with st := change entry }) := by
  refine linking.ofAlike (fun other => ?_) (fun other away => ?_) rfl rfl rfl
    (linking.paired.transfer (fun _ => Iff.rfl) (fun other _ => ?_) (.refl _))
  · by_cases same : other = id
    · rw [same, modify_self]
      exact ⟨rfl, rfl, rfl, rfl⟩
    · rw [modify_other same]
      exact ⟨rfl, rfl, rfl, rfl⟩
  · have apart : other ≠ id := by
      rintro rfl
      exact away linked
    exact modify_other apart
  · by_cases same : other = id
    · rw [same, modify_self]
    · rw [modify_other same]

omit [DecidableEq Hash] [Inhabited Hash] in
/-- There are no other names to tell of a change. -/
theorem notifyUpdate_eq {mdata : Id} (noLinks : (fs.entries mdata).hardlink = 0)
    (result : Mount.notifyUpdate env mdata fs = .ok next) : next = fs := by
  unfold Mount.notifyUpdate at result
  simp only [noLinks, if_true] at result
  split at result
  · exact (Except.ok.inj result).symm
  · cases result

theorem updateMetadata_linking {mount after : Mount Hash} {answers : Answers Hash} {fh : Fh}
    {mfile : Mfile} {size : Int} {modified : Bool} (linking : Linking mount.fs)
    (opened : mount.fs.mfiles fh = some mfile) (type : mfile.type ≠ .vops)
    (absent : mfile.metadata_id = 0 -> Absent env mount.fs mfile.path)
    (result : mount.updateMetadata env answers fh mfile size modified = .ok after) :
    Linking after.fs := by
  obtain ⟨⟨mdata, found⟩, got, result⟩ := bind_eq_ok.mp result
  unfold Mount.getMetadata at got
  by_cases unlinked : mfile.metadata_id = 0
  · simp only [unlinked, ne_eq, not_true_eq_false, if_false] at got
    obtain ⟨⟨id, populated⟩, look, got⟩ := bind_eq_ok.mp got
    rw [metadata_eq_ok] at look
    obtain rfl := absent unlinked id populated look
    simp only [if_true] at got
    obtain ⟨rfl, rfl⟩ := Prod.mk.inj (Except.ok.inj got)
    simp only [if_true] at result
    obtain rfl := Except.ok.inj result
    exact linking.populated (findLocked_populated linking.isTree look).1
  · simp only [unlinked, ne_eq, not_false_eq_true, if_true] at got
    obtain ⟨rfl, rfl⟩ := Prod.mk.inj (Except.ok.inj got)
    simp only [unlinked, if_false] at result
    obtain ⟨fs, notified, result⟩ := bind_eq_ok.mp result
    obtain rfl := Except.ok.inj result
    have linked := (linking.paired.entry fh mfile opened type unlinked).1
    have changed := linking.setStat linked fun entry =>
      updateStat answers.context.now size modified entry.st
    have same := notifyUpdate_eq (changed.noLinks mfile.metadata_id linked) notified
    rw [same]
    exact changed

theorem tree_linking {call : TreeCall} (linking : Linking fs) (legal : call.Legal env fs)
    (leaf : call.Leaf env fs) (result : call.run env fs = .ok next) : Linking next := by
  obtain ⟨isTree, noLinks⟩ := TreeCall.run_isTree linking.isTree linking.noLinks legal leaf result
  exact ⟨isTree, noLinks,
    TreeCall.run_paired linking.isTree linking.noLinks legal result linking.paired⟩

omit [DecidableEq Hash] in
/-- Open files that have no entries. -/
theorem Linking.ofClosed (isTree : IsTree fs) (noLinks : NoLinks fs)
    (closed : forall id, id ∈ fs.index -> (fs.entries id).fh = 0) (mfiles : Fh -> Option Mfile)
    (reads : Nat) (noFile : mfiles 0 = none)
    (cleared : forall fh mfile, mfiles fh = some mfile -> mfile.type ≠ .vops ->
      mfile.metadata_id = 0) : Linking { fs with mfiles := mfiles, reads := reads } := by
  obtain ⟨kids, free, tree⟩ := isTree
  refine ⟨⟨kids, free, tree.congr rfl rfl (.refl _) (fun _ _ => ⟨rfl, rfl, rfl⟩) fun _ _ => rfl⟩,
    noLinks, noFile, fun id linked present => absurd (closed id linked) present,
    fun fh mfile opened type some => absurd (cleared fh mfile opened type) some⟩

omit [DecidableEq Hash] in
theorem format_closed (env : Env Hash) (st : Stat) :
    forall id, id ∈ (Fs.format env st).index -> ((Fs.format env st).entries id).fh = 0 := by
  intro id linked
  have inside : id ∈ [rootId] := linked
  rw [List.mem_singleton.mp inside, Shape.format_root]
  rfl

theorem flush_linking {mount after : Mount Hash} {answers : Answers Hash} {st : Stat}
    (linking : Linking mount.fs)
    (result : mount.callAction env answers (.flushMetadata st) = .ok after) :
    Linking after.fs := by
  unfold Mount.callAction at result
  simp only at result
  split at result
  · exact Except.ok.inj result ▸ linking
  · obtain ⟨fs, populated, result⟩ := bind_eq_ok.mp result
    rw [metadata_eq_ok] at populated
    obtain rfl := Except.ok.inj result
    have cleared : forall fh mfile,
        (mount.fs.mfiles fh).map Mount.clearMetadataId = some mfile -> mfile.type ≠ .vops ->
          mfile.metadata_id = 0 := by
      intro fh mfile opened type
      obtain ⟨old, -, rfl⟩ := Option.map_eq_some_iff.mp opened
      unfold Mount.clearMetadataId at type ⊢
      split
      · next vops =>
          rw [if_pos vops] at type
          exact absurd vops type
      · rfl
    obtain ⟨isTree, noLinks⟩ := format_isTree env st
    have formatted := Linking.ofClosed isTree noLinks (format_closed env st)
      (fun fh => (mount.fs.mfiles fh).map Mount.clearMetadataId) mount.fs.reads
      (by rw [linking.paired.noFile, Option.map_none]) cleared
    have changed := populateVops_changed formatted.isTree populated
    exact ⟨changed.isTree formatted.isTree, changed.noLinks formatted.isTree formatted.noLinks,
      populateVops_paired formatted.isTree populated formatted.paired⟩

/-- What one step keeps. -/
theorem linkStep_linking {mount after : Mount Hash} {event : LinkEvent × Answers Hash}
    (linking : Linking mount.fs) (promised : Promised env mount event)
    (notRepaired : NotRepaired env mount event)
    (result : linkStep env mount event = .ok after) : Linking after.fs := by
  obtain ⟨event, answers⟩ := event
  unfold linkStep at result
  cases event with
  | fileidGet mdata path type =>
      simp only [LinkEvent.run] at result
      split at result
      · next linked =>
          obtain ⟨⟨fh, fs⟩, opened, result⟩ := bind_eq_ok.mp result
          rw [metadata_eq_ok] at opened
          obtain rfl := Except.ok.inj result
          exact fileidGet_linking linking linked promised.1 promised.2 opened
      · exact Except.ok.inj result ▸ linking
  | updateMetadata fh size modified =>
      simp only [LinkEvent.run] at result
      split at result
      · cases result
      · next mfile opened =>
          split at result
          · exact Except.ok.inj result ▸ linking
          · next type =>
              exact updateMetadata_linking linking opened type (notRepaired mfile opened type) result
  | fileRelease fh => exact fileRelease_linking linking result
  | tree call =>
      obtain ⟨fs, ran, result⟩ := bind_eq_ok.mp result
      rw [metadata_eq_ok] at ran
      obtain rfl := Except.ok.inj result
      exact tree_linking linking promised.1 promised.2 ran
  | flush st =>
      have flushed : mount.callAction env answers (.flushMetadata st) = .ok after := result
      exact flush_linking linking flushed

/-- An update without a repair gets at the entry of its open file. -/
theorem Linking.updatesOwn {mount : Mount Hash} {event : LinkEvent × Answers Hash}
    (linking : Linking mount.fs) (notRepaired : NotRepaired env mount event) :
    UpdatesOwn env mount event := by
  obtain ⟨event, answers⟩ := event
  cases event with
  | updateMetadata fh size modified =>
      intro mfile id next opened type got present
      unfold Mount.getMetadata at got
      by_cases unlinked : mfile.metadata_id = 0
      · simp only [unlinked, ne_eq, not_true_eq_false, if_false] at got
        obtain ⟨⟨found, populated⟩, look, got⟩ := bind_eq_ok.mp got
        rw [metadata_eq_ok] at look
        obtain rfl := notRepaired mfile opened type unlinked found populated look
        simp only [if_true] at got
        exact absurd (Prod.mk.inj (Except.ok.inj got)).1.symm present
      · simp only [unlinked, ne_eq, not_false_eq_true, if_true] at got
        obtain ⟨rfl, -⟩ := Prod.mk.inj (Except.ok.inj got)
        exact (linking.paired.entry fh mfile opened type unlinked).2
  | _ => trivial

/-- Without repairs the link is a bijection in every state of a run, and each
update gets at the entry of its own open file. -/
theorem link_bijective (env : Env Hash) (st : Stat) (events : List (LinkEvent × Answers Hash))
    (conditions : EachStep (linkStep env)
      (fun mount event => Promised env mount event ∧ NotRepaired env mount event)
      ⟨Fs.format env st, []⟩ events) :
    Throughout (linkStep env) Bijective (fun _ => True) ⟨Fs.format env st, []⟩ events ∧
      EachStep (linkStep env) (UpdatesOwn env) ⟨Fs.format env st, []⟩ events := by
  obtain ⟨isTree, noLinks⟩ := format_isTree env st
  have noFiles : (Fs.format env st).mfiles = fun _ => none := rfl
  have start : Linking (Fs.format env st) := by
    refine ⟨isTree, noLinks, congrFun noFiles 0,
      fun id linked present => absurd (format_closed env st id linked) present,
      fun fh mfile opened => ?_⟩
    rw [noFiles] at opened
    cases opened
  have preserved : forall (mount : Mount Hash) (event : LinkEvent × Answers Hash)
      (after : Mount Hash), Linking mount.fs ->
      Promised env mount event ∧ NotRepaired env mount event ->
      linkStep env mount event = .ok after -> Linking after.fs :=
    fun _ _ _ linking holds result => linkStep_linking linking holds.1 holds.2 result
  exact ⟨Throughout.ofInvariant (fun _ linking => linking.bijective) preserved
      (fun _ _ _ _ _ _ => trivial) start conditions,
    EachStep.ofInvariant preserved (fun _ _ linking holds => linking.updatesOwn holds.2) start
      conditions⟩

end Runs

/-- `mknod /f`. -/
def makeFile : LinkEvent × Answers UInt32 :=
  (.tree (.makeEntry ⟨0, 0, 0⟩ (ascii "/f") (S_IFREG ||| 0o644) 0), allSucceed)

/-- Open the file that has just been made. -/
def openFile (fh : Fh) : LinkEvent × Answers UInt32 :=
  (.fileidGet 2 (some (ascii "/f")) .file, { allSucceed with file_add := fun _ => fh })

/-- A file that is opened, written and closed. -/
def openedOnce : List (LinkEvent × Answers UInt32) :=
  [makeFile, openFile 1, (.updateMetadata 1 5 true, allSucceed), (.fileRelease 1, allSucceed)]

theorem link_bijective_openedOnce :
    Throughout (linkStep emptySource) Bijective (fun _ => True)
        ⟨Fs.format emptySource directoryStat, []⟩ openedOnce ∧
      EachStep (linkStep emptySource) (UpdatesOwn emptySource)
        ⟨Fs.format emptySource directoryStat, []⟩ openedOnce := by
  have evaluated : (do
      let one ← linkStep emptySource ⟨Fs.format emptySource directoryStat, []⟩ makeFile
      let two ← linkStep emptySource one (openFile 1)
      return (one.fs.mfiles 1, (two.fs.mfiles 1).map Mfile.metadata_id) :
        Except Fault (Option Mfile × Option Id)) = .ok (none, some 2) := by decide +kernel
  obtain ⟨one, make, later⟩ := bind_eq_ok.mp evaluated
  obtain ⟨two, opened, last⟩ := bind_eq_ok.mp later
  simp only [pure, Except.pure, Except.ok.injEq, Prod.mk.injEq] at last
  obtain ⟨fresh, link⟩ := last
  refine link_bijective emptySource directoryStat _ ⟨⟨⟨trivial, trivial⟩, trivial⟩, ?_⟩
  rw [make]
  refine ⟨⟨⟨fresh, Nat.one_ne_zero⟩, trivial⟩, ?_⟩
  rw [opened]
  refine ⟨⟨trivial, fun mfile held _ unlinked => ?_⟩, ?_⟩
  · rw [held, Option.map_some, unlinked] at link
    cases link
  · split
    · refine ⟨⟨trivial, trivial⟩, ?_⟩
      split <;> trivial
    · trivial

/-- The file is unlinked while it is open, and another one is made and opened under
its name before the first one is written. -/
def openedTwice : List (LinkEvent × Answers UInt32) :=
  [makeFile, openFile 1, (.tree (.rmdirUnlink (ascii "/f") false), allSucceed), makeFile,
    openFile 2, (.updateMetadata 1 5 true, allSucceed)]

/-- The states of that run. -/
theorem openedTwice_states : Exists fun one => Exists fun two => Exists fun three =>
    Exists fun four => Exists fun five => Exists fun six =>
      (linkStep emptySource ⟨Fs.format emptySource directoryStat, []⟩ makeFile = .ok one ∧
        linkStep emptySource one (openFile 1) = .ok two ∧
        linkStep emptySource two (.tree (.rmdirUnlink (ascii "/f") false), allSucceed) = .ok three ∧
        linkStep emptySource three makeFile = .ok four ∧
        linkStep emptySource four (openFile 2) = .ok five ∧
        linkStep emptySource five (.updateMetadata 1 5 true, allSucceed) = .ok six) ∧
      one.fs.mfiles 1 = none ∧ four.fs.mfiles 2 = none ∧
      (Exists fun looked => two.fs.findLocked emptySource (ascii "/f") = .ok looked ∧
        looked.2.first looked.1 = 0) ∧
      (Exists fun old => Exists fun next => five.fs.mfiles 1 = some old ∧ old.type = .file ∧
        five.getMetadata emptySource 1 old = .ok (2, next)) ∧
      (five.fs.entries 2).fh = 2 ∧ (six.fs.mfiles 1).map filed = some (2, .file) ∧
      2 ∈ six.fs.index ∧ (six.fs.entries 2).fh = 2 := by
  have evaluated : (do
      let one ← linkStep emptySource ⟨Fs.format emptySource directoryStat, []⟩ makeFile
      let two ← linkStep emptySource one (openFile 1)
      let three ← linkStep emptySource two (.tree (.rmdirUnlink (ascii "/f") false), allSucceed)
      let four ← linkStep emptySource three makeFile
      let five ← linkStep emptySource four (openFile 2)
      let six ← linkStep emptySource five (.updateMetadata 1 5 true, allSucceed)
      let looked ← metadata (two.fs.findLocked emptySource (ascii "/f"))
      let old ← (five.fs.mfiles 1).elim (Except.error Fault.deleted) Except.ok
      let got ← five.getMetadata emptySource 1 old
      return decide (one.fs.mfiles 1 = none ∧ four.fs.mfiles 2 = none ∧
        looked.2.first looked.1 = 0 ∧ old.type = .file ∧ got.1 = 2 ∧ (five.fs.entries 2).fh = 2 ∧
        (six.fs.mfiles 1).map filed = some (2, .file) ∧ 2 ∈ six.fs.index ∧
        (six.fs.entries 2).fh = 2) : Except Fault Bool) = .ok true := by decide +kernel
  obtain ⟨one, first, later⟩ := bind_eq_ok.mp evaluated
  obtain ⟨two, second, later⟩ := bind_eq_ok.mp later
  obtain ⟨three, third, later⟩ := bind_eq_ok.mp later
  obtain ⟨four, fourth, later⟩ := bind_eq_ok.mp later
  obtain ⟨five, fifth, later⟩ := bind_eq_ok.mp later
  obtain ⟨six, sixth, later⟩ := bind_eq_ok.mp later
  obtain ⟨looked, look, later⟩ := bind_eq_ok.mp later
  obtain ⟨old, held, later⟩ := bind_eq_ok.mp later
  obtain ⟨⟨id, next⟩, get, later⟩ := bind_eq_ok.mp later
  simp only [pure, Except.pure, Except.ok.injEq, decide_eq_true_eq] at later
  obtain ⟨freshOne, freshTwo, leaf, type, rfl, rest⟩ := later
  refine ⟨one, two, three, four, five, six, ⟨first, second, third, fourth, fifth, sixth⟩, freshOne,
    freshTwo, ⟨looked, metadata_eq_ok.mp look, leaf⟩, ⟨old, next, ?_, type, get⟩, rest⟩
  cases file : five.fs.mfiles 1 with
  | none =>
      rw [file] at held
      cases held
  | some mfile =>
      rw [file] at held
      exact congrArg some (Except.ok.inj held)

/-- The late write gets at the new file, and links it to the old open file. -/
theorem link_repaired :
    EachStep (linkStep emptySource) (Promised emptySource)
        ⟨Fs.format emptySource directoryStat, []⟩ openedTwice ∧
      ¬ Throughout (linkStep emptySource) Bijective (fun _ => True)
        ⟨Fs.format emptySource directoryStat, []⟩ openedTwice ∧
      ¬ EachStep (linkStep emptySource) (UpdatesOwn emptySource)
        ⟨Fs.format emptySource directoryStat, []⟩ openedTwice := by
  obtain ⟨one, two, three, four, five, six, ⟨first, second, third, fourth, fifth, sixth⟩, freshOne,
    freshTwo, ⟨looked, look, leaf⟩, ⟨old, next, opened, type, get⟩, other, after, linked, handle⟩ :=
    openedTwice_states
  have unlinksLeaf : UnlinksLeaf emptySource two.fs (ascii "/f") false := by
    intro id state _ lookup _
    rw [look] at lookup
    obtain rfl := Except.ok.inj lookup
    exact leaf
  have ends : openedTwice.foldlM (linkStep emptySource)
      ⟨Fs.format emptySource directoryStat, []⟩ = .ok six :=
    bind_eq_ok.mpr ⟨one, first, bind_eq_ok.mpr ⟨two, second, bind_eq_ok.mpr ⟨three, third,
      bind_eq_ok.mpr ⟨four, fourth, bind_eq_ok.mpr ⟨five, fifth,
        bind_eq_ok.mpr ⟨six, sixth, rfl⟩⟩⟩⟩⟩⟩
  refine ⟨?_, fun throughout => ?_, fun own => ?_⟩
  · refine (eachStep_cons first).mpr ⟨⟨trivial, trivial⟩, ?_⟩
    refine (eachStep_cons second).mpr ⟨⟨freshOne, one_ne_zero⟩, ?_⟩
    refine (eachStep_cons third).mpr ⟨⟨trivial, unlinksLeaf⟩, ?_⟩
    refine (eachStep_cons fourth).mpr ⟨⟨trivial, trivial⟩, ?_⟩
    refine (eachStep_cons fifth).mpr ⟨⟨freshTwo, two_ne_zero⟩, ?_⟩
    exact (eachStep_cons sixth).mpr ⟨trivial, trivial⟩
  · obtain ⟨mfile, file, same⟩ := Option.map_eq_some_iff.mp after
    obtain ⟨link, kind⟩ : mfile.metadata_id = 2 ∧ mfile.type = .file := Prod.mk.inj same
    have both := ((throughout.final ends) 1 mfile file (by rw [kind]; decide)).2 2 linked
    exact absurd ((both.mp link).symm.trans handle) (by decide)
  · have later := ((eachStep_cons first).mp own).2
    have later := ((eachStep_cons second).mp later).2
    have later := ((eachStep_cons third).mp later).2
    have later := ((eachStep_cons fourth).mp later).2
    have later := ((eachStep_cons fifth).mp later).2
    have mine := later.1 old 2 next opened (by rw [type]; decide) get (by decide)
    exact absurd (other.symm.trans mine) (by decide)

end Lowlevel
end Mcachefs
