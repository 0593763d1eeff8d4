import Mcachefs.File.Descriptors
import Mcachefs.Lowlevel.Callbacks
import Mcachefs.Metadata.Moves

namespace Mcachefs
namespace Lowlevel

open Library Metadata Journal
open Transfer (Fh)
open Descriptors (SourceState)

/-!
# Files of the source under names that have changed

An entry is made of a file of the source under the name that the file has there.  When
it is to be read, `mcachefs_file_do_open` asks the source for the path that the entry has
by then, and until the journal is applied the source still has the old names.  Only when
that fails does `mcachefs_file_getfd_mode` look for a rename.

The calls are taken apart here into the sections that change entries and open files, and
the state has two fields of history: what an entry was made of, and what has been opened
for an open file.
-/

/-- The metadata with the journal, the descriptors that the open files have of the source, and
what has happened to them. -/
structure SourceFs (Hash File : Type) extends Mount Hash where
  /-- The names in the source of the file that the entry was made of. -/
  origin : Id -> Option (List Component)
  /-- `sources[MCACHEFS_FILE_SOURCE_REAL]` of an open file. -/
  sources : Fh -> SourceState
  /-- The files that the calls of `open` have opened for an open file, by the numbers of the
  calls. -/
  opened : Fh -> Nat -> Option File

/-- The sections of the calls. -/
inductive SourceEvent
  /-- `mcachefs_metadata_get_child`, which lookups consist of. -/
  | getChild (father : Id)
  /-- `mcachefs_metadata_vops_create_dir` and `mcachefs_metadata_vops_create_file`. -/
  | vopsCreate (father : Id) (name : Component) (mode : UInt32) (size : Int)
  /-- The end of `mcachefs_metadata_rename_entry`. -/
  | moveEntry (mdata mtarget : Id) (lname : Component)
  /-- The end of `mcachefs_metadata_rmdir_unlink`. -/
  | unlinkRemove (mdata : Id)
  /-- `mcachefs_fileid_get`, with the result of `mcachefs_file_add`. -/
  | fileidGet (file_add : Fh) (mdata : Id) (path : Path) (type : FileType)
  | fileRelease (fh : Fh)
  /-- `mcachefs_journal_append`, with which a callback ends. -/
  | journalAppend (record : JournalRecord)
  /-- `mcachefs_file_getfd` of the source, and what is done with the descriptor. -/
  | source (fh : Fh) (event : Descriptors.Event)
  deriving DecidableEq

/-- `mcachefs_journal_was_renamed`, for a journal that can be read. -/
def wasRenamed (journal : List JournalRecord) (newpath : Path) : Bool :=
  journal.any fun record => record.op = JournalOp.rename.code ∧
    strncmpEqual newpath record.toPath record.toPath.length

/-- What comes of a call of `open`: where there is no file it fails, and after a failure
`mcachefs_file_getfd_mode` looks for a rename. -/
def answer (there renamed : Bool) : Descriptors.Opening -> Descriptors.Opening
  | .opened => if there then .opened else .failed (if renamed then Journal.EIO else ENOENT).toNat
  | .failed errno => .failed (if renamed then Journal.EIO.toNat else errno)

/-- The same for an event. -/
def answered (there renamed : Bool) : Descriptors.Event -> Descriptors.Event
  | .getfd user refused opening => .getfd user refused (answer there renamed opening)
  | .retry index opening => .retry index (answer there renamed opening)
  | event => event

namespace SourceFs

variable {Hash File : Type}

/-- A new metadata file. -/
def start [Inhabited Hash] (env : Env Hash) (st : Stat) : SourceFs Hash File where
  fs := Fs.format env st
  journal := []
  origin := fun _ => none
  sources := fun _ => .init
  opened := fun _ _ => none

/-- What the entries are made of after a directory has been read: new ones of the files in
the directory that `mcachefs_metadata_recurse_open` has opened. -/
def originAfter (env : Env Hash) (state : SourceFs Hash File) (father : Id) (next : Fs Hash)
    (id : Id) : Option (List Component) :=
  if id ∈ state.fs.index then state.origin id
  else (state.fs.climb env.fuel father).map fun way => way.1 ++ [(next.entries id).d_name]

/-- One event for the descriptor of an open file with this path, where `found` is what the
source has there. -/
def sourceStep (state : SourceFs Hash File) (fh : Fh) (path : Path) (found : Option File)
    (event : Descriptors.Event) : SourceFs Hash File :=
  let source := state.sources fh
  let next := source.step (answered found.isSome (wasRenamed state.journal path) event)
  { state with
    sources := Function.update state.sources fh next
    opened :=
      if source.opens < next.opens then
        Function.update state.opened fh (Function.update (state.opened fh) source.opens found)
      else state.opened }

section Step

variable [Inhabited Hash] [DecidableEq Hash]

/-- One section; `file` is what the source has at the path that `mcachefs_makepath_source`
makes of a path. -/
def step (env : Env Hash) (file : Path -> Option File) (state : SourceFs Hash File) :
    SourceEvent -> Except Fault (SourceFs Hash File)
  | .getChild father =>
      if father ∈ state.fs.index then do
        let (_, next) ← metadata (state.fs.getChild env father)
        .ok { state with fs := next, origin := state.originAfter env father next }
      else .ok state
  | .vopsCreate father name mode size =>
      let (newid, next) := state.fs.vopsCreate env father name mode size
      .ok { state with fs := next, origin := Function.update state.origin newid none }
  | .moveEntry mdata mtarget lname => do
      let next ← metadata (state.fs.moveEntry env mdata mtarget lname)
      .ok { state with fs := next }
  | .unlinkRemove mdata => do
      let next ← metadata (state.fs.unlinkRemove env mdata)
      .ok { state with fs := next }
  | .fileidGet file_add mdata path type => do
      let (fh, next) ← metadata (state.fs.fileidGet (fun _ => file_add) mdata (some path) type)
      if (state.fs.entries mdata).fh ≠ 0 then .ok { state with fs := next }
      else .ok { state with
        fs := next
        sources := Function.update state.sources fh .init
        opened := Function.update state.opened fh fun _ => none }
  | .fileRelease fh => do
      let mount ← state.toMount.fileRelease fh
      .ok { state with toMount := mount }
  | .journalAppend record => do
      let mount ← state.toMount.journalAppend record
      .ok { state with toMount := mount }
  | .source fh event =>
      match state.fs.mfiles fh with
      | none => .error .deleted
      | some mfile => .ok (state.sourceStep fh mfile.path (file mfile.path) event)

end Step

/-- A descriptor is one of the file that has these names in the source. -/
def IsOf (file : Path -> Option File) (state : SourceFs Hash File) (fh : Fh)
    (own : List Component) (number : Nat) : Prop :=
  Exists fun found => state.opened fh number = some found ∧ file (absolutePath own) = some found

/-- Whoever has got a descriptor of the source for an entry that was made of a file there has
one of that file, and no call of `open` for it has opened another one. -/
def OpensOwn (file : Path -> Option File) (state : SourceFs Hash File) : Prop :=
  forall id own, id ∈ state.fs.index -> (state.fs.entries id).st.isReg = true ->
    state.origin id = some own -> (state.fs.entries id).fh ≠ 0 ->
      (forall number, number < (state.sources (state.fs.entries id).fh).opens ->
        state.IsOf file (state.fs.entries id).fh own number) ∧
      forall holder, holder ∈ (state.sources (state.fs.entries id).fh).holders ->
        state.IsOf file (state.fs.entries id).fh own holder.2

/-- What the calls, the kernel and memory allocation have made sure of before the section. -/
def Legal (state : SourceFs Hash File) : SourceEvent -> Prop
  | .vopsCreate father _ _ _ =>
      father ∈ state.fs.index ∧ (state.fs.entries father).st.isDir = true
  | .moveEntry mdata mtarget _ =>
      mdata ∈ state.fs.index ∧ mtarget ∈ state.fs.index ∧
        (state.fs.entries mtarget).st.isDir = true ∧ ¬ Climbs state.fs.father mdata mtarget ∧
        AllRead state.fs mdata
  | .unlinkRemove mdata => mdata ∈ state.fs.index ∧ state.fs.first mdata = 0
  | .fileidGet file_add mdata _ _ =>
      mdata ∈ state.fs.index ∧ file_add ≠ 0 ∧ state.fs.mfiles file_add = none
  | _ => True

/-- At the names `new` the source has nothing else than the file of the names `own`. -/
def NoOther (file : Path -> Option File) (own new : List Component) : Prop :=
  forall found, file (absolutePath new) = some found -> file (absolutePath own) = some found

/-- A rename brings no regular file that was made of one of the source to a path where the
source has another one, and a file is opened by the path of its entry. -/
def LandsFree (file : Path -> Option File) (state : SourceFs Hash File) : SourceEvent -> Prop
  | .moveEntry mdata mtarget lname => forall id names above rest own,
      id ∈ state.fs.index -> (state.fs.entries id).st.isReg = true ->
      state.origin id = some own -> Named state.fs mdata names -> Named state.fs mtarget above ->
      Named state.fs id (names ++ rest) ->
        NoOther file own (above ++ lname.take NAME_MAX :: rest)
  | .fileidGet _ mdata path _ => (state.fs.entries mdata).fh = 0 ->
      Exists fun names => Named state.fs mdata names ∧ absolutePath names = path
  | _ => True

end SourceFs

/-! ## Numbers of descriptors -/

/-- The descriptor that is open, and those that are held, come from calls of `open`. -/
structure Numbered (source : SourceState) : Prop where
  fd : forall number, source.fd = some number -> number < source.opens
  holders : forall holder, holder ∈ source.holders -> holder.2 < source.opens

/-- A step keeps the numbers, and opens one file at most. -/
structure OpensOne (source next : SourceState) : Prop where
  grows : next.opens = source.opens ∨ next.opens = source.opens + 1
  numbered : Numbered source -> Numbered next

section Numbers

variable {source next : SourceState}

theorem Numbered.init : Numbered .init :=
  ⟨fun _ same => (Option.some_ne_none _ same.symm).elim,
    fun _ member => absurd member List.not_mem_nil⟩

theorem OpensOne.refl (source : SourceState) : OpensOne source source :=
  ⟨Or.inl rfl, id⟩

/-- Holders may leave and a descriptor may be closed. -/
theorem OpensOne.fewer (opens : next.opens = source.opens)
    (fd : next.fd = source.fd ∨ next.fd = none)
    (holders : forall holder, holder ∈ next.holders -> holder ∈ source.holders) :
    OpensOne source next := by
  refine ⟨Or.inl opens, fun numbered => ⟨fun number same => ?_, fun holder member => ?_⟩⟩
  · rw [opens]
    rcases fd with kept | closed
    · exact numbered.fd number (kept.symm.trans same)
    · cases closed.symm.trans same
  · rw [opens]
    exact numbered.holders holder (holders holder member)

theorem OpensOne.refuse (user : Descriptors.User) (err : Nat) :
    OpensOne source (source.refuse user err) := by
  unfold SourceState.refuse
  split
  · exact .fewer rfl (Or.inl rfl) fun _ member => member
  · exact .refl source

theorem OpensOne.trans {middle : SourceState} (first : OpensOne source middle)
    (last : OpensOne middle next) (same : middle.opens = source.opens) : OpensOne source next :=
  ⟨same ▸ last.grows, fun numbered => last.numbered (first.numbered numbered)⟩

theorem OpensOne.openSource (user : Descriptors.User) (opening : Descriptors.Opening) :
    OpensOne source (source.openSource user opening) := by
  cases opening with
  | failed errno =>
      have closed : OpensOne source { source with fd := none } :=
        .fewer rfl (Or.inr rfl) fun _ member => member
      exact closed.trans (.refuse user errno) rfl
  | opened =>
      refine ⟨Or.inr rfl, fun numbered => ⟨fun number same => ?_, fun holder member => ?_⟩⟩
      · obtain rfl := Option.some.inj same
        exact Nat.lt_succ_self _
      · rcases List.mem_cons.mp member with rfl | member
        · exact Nat.lt_succ_self _
        · exact Nat.lt_succ_of_lt (numbered.holders holder member)

theorem step_opensOne (source : SourceState) (event : Descriptors.Event) :
    OpensOne source (source.step event) := by
  have closed : OpensOne source { source with fd := none } :=
    .fewer rfl (Or.inr rfl) fun _ member => member
  cases event with
  | getfd user refused opening =>
      cases refused with
      | some err => exact .refuse user err
      | none =>
          simp only [SourceState.step, SourceState.getfd, SourceState.doOpen]
          split
          · exact .openSource user opening
          · next fd held =>
              split
              · refine ⟨Or.inl rfl, fun numbered => ⟨numbered.fd, fun holder member => ?_⟩⟩
                rcases List.mem_cons.mp member with rfl | member
                · exact numbered.fd fd held
                · exact numbered.holders holder member
              · split
                · exact .fewer rfl (Or.inl rfl) fun _ member => member
                · exact closed.trans (.openSource user opening) rfl
  | retry index opening =>
      simp only [SourceState.step]
      split
      · exact .refl source
      · split
        · exact .refl source
        · have left : OpensOne source
              { source with fd := none, waiting := source.waiting.eraseIdx index } :=
            .fewer rfl (Or.inr rfl) fun _ member => member
          exact left.trans (.openSource _ opening) rfl
  | putfd index closes =>
      simp only [SourceState.step]
      split
      · exact .refl source
      · refine .fewer ?_ (Or.inl ?_) fun _ member => List.mem_of_mem_eraseIdx member
        · unfold SourceState.sourcePutfd
          split <;> rfl
        · unfold SourceState.sourcePutfd
          split <;> rfl
  | strayPutfd =>
      simp only [SourceState.step, SourceState.sourcePutfd]
      split
      · exact .refl source
      · split <;> exact .fewer rfl (Or.inl rfl) fun _ member => member
  | endOfTransfer =>
      simp only [SourceState.step, SourceState.closeUnused]
      split
      · exact .refl source
      · split
        · exact .fewer rfl (Or.inr rfl) fun _ member => member
        · exact .fewer rfl (Or.inl rfl) fun _ member => member
  | cleanup =>
      simp only [SourceState.step, SourceState.closeUnused]
      split
      · exact closed
      · exact .refl source

theorem openSource_failed (user : Descriptors.User) (errno : Nat) :
    (source.openSource user (.failed errno)).opens = source.opens := by
  simp only [SourceState.openSource, SourceState.refuse]
  split <;> rfl

/-- Where there is no file, no file is opened. -/
theorem step_answered (renamed : Bool) (event : Descriptors.Event) :
    (source.step (answered false renamed event)).opens = source.opens := by
  have fails : forall opening, Exists fun errno =>
      answer false renamed opening = .failed errno := by
    intro opening
    cases opening with
    | opened => exact ⟨_, rfl⟩
    | failed errno => exact ⟨_, rfl⟩
  cases event with
  | getfd user refused opening =>
      obtain ⟨errno, failed⟩ := fails opening
      rw [answered, failed]
      cases refused with
      | some err =>
          simp only [SourceState.step, SourceState.getfd, SourceState.refuse]
          split <;> rfl
      | none =>
          simp only [SourceState.step, SourceState.getfd, SourceState.doOpen]
          split
          · exact openSource_failed user _
          · split
            · rfl
            · split
              · rfl
              · exact openSource_failed user _
  | retry index opening =>
      obtain ⟨errno, failed⟩ := fails opening
      rw [answered, failed]
      simp only [SourceState.step]
      split
      · rfl
      · split
        · rfl
        · exact openSource_failed _ _
  | putfd index closes =>
      simp only [answered, SourceState.step, SourceState.sourcePutfd]
      split
      · rfl
      · split <;> rfl
  | strayPutfd =>
      simp only [answered, SourceState.step, SourceState.sourcePutfd]
      split
      · rfl
      · split <;> rfl
  | endOfTransfer =>
      simp only [answered, SourceState.step, SourceState.closeUnused]
      split
      · rfl
      · split <;> rfl
  | cleanup =>
      simp only [answered, SourceState.step, SourceState.closeUnused]
      split <;> rfl

end Numbers

end Lowlevel
end Mcachefs
