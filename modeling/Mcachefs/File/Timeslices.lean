import Mcachefs.File.Mfile
import Mcachefs.Library.LinkedList
import Mcachefs.Library.Runs

namespace Mcachefs
namespace Timeslices

open Library

/-!
# Timeslices of open files

Every open file is in one of `mcachefs_file_timeslice_nb` lists, by the time of
its last use, or in the list of files that went out of use while nobody looked
(garbage), or in that of the structures to use again (freed).  A structure only
knows its neighbours; the field `timeslice` is kept up for the head of a list,
and is what is left of an older value everywhere else.

All calls are made under the file lock.
-/

/-- `MCACHEFS_FILE_TIMESLICE_NB`. -/
def FILE_TIMESLICE_NB : Int := 1024

/-- `mcachefs_file_timeslice_garbage`. -/
def garbage : Int := FILE_TIMESLICE_NB

/-- `mcachefs_file_timeslice_freed`. -/
def freed : Int := FILE_TIMESLICE_NB + 1

/-- The fields of `struct mcachefs_file_t` that the lists and the removal of a
file use; `deleted` says that `path` is `mcachefs_file_path_deleted`. -/
structure TsFile where
  metadata_id : Nat
  type : FileType
  use : Nat
  deleted : Bool
  timeslice : Int
  timeslice_previous : Nat
  timeslice_next : Nat
  deriving DecidableEq, Repr

/-- Every byte is zero; that this is no type does not matter, since
`mcachefs_file_init` sets it before anybody reads it. -/
def TsFile.zero : TsFile := ⟨0, .file, 0, false, 0, 0, 0⟩

/-- The structures that are allocated, the heads of the lists and the slice of
the present time; `0` is `NULL`. -/
structure TsState where
  mfiles : Nat -> Option TsFile
  timeslices : Int -> Nat
  current : Int

/-- The calls of `Bug`, the use of an address that holds no structure or of an
index outside the array, and the end of the fuel of a loop that goes on. -/
inductive Fault
  | invalidTimeslice
  | notTheHead
  | corruptedList
  | neighbours
  | hadNext
  | hadPrevious
  | shallNotBeHere
  | zeroUse
  | lostTheRace
  | alreadyDeleted
  | badAddress
  | badIndex
  | fuel
  deriving DecidableEq, Repr

/-- The indices of `mcachefs_file_timeslices`. -/
def Slice (slice : Int) : Prop := 0 ≤ slice ∧ slice < FILE_TIMESLICE_NB + 2

instance (slice : Int) : Decidable (Slice slice) := inferInstanceAs (Decidable (_ ∧ _))

namespace TsState

/-- The static variables at the start, after
`mcachefs_file_timeslice_init_variables`. -/
def init : TsState := ⟨fun _ => none, fun _ => 0, 0⟩

/-- The structure at an address. -/
def get (state : TsState) (mfile : Nat) : Except Fault TsFile :=
  match state.mfiles mfile with
  | some file => .ok file
  | none => .error .badAddress

/-- Write one structure. -/
def set (state : TsState) (mfile : Nat) (file : TsFile) : TsState :=
  { state with mfiles := Function.update state.mfiles mfile (some file) }

/-- The head of a list. -/
def head (state : TsState) (slice : Int) : Except Fault Nat :=
  if Slice slice then .ok (state.timeslices slice) else .error .badIndex

/-- Write the head of a list. -/
def setHead (state : TsState) (slice : Int) (mfile : Nat) : TsState :=
  { state with timeslices := Function.update state.timeslices slice mfile }

/-! ## Lists -/

/-- The old head points back to the new one. -/
def headBefore (mfile head : Nat) (state : TsState) : Except Fault TsState :=
  if head ≠ 0 then do
    let first ← state.get head
    .ok (state.set head { first with timeslice_previous := mfile })
  else .ok state

/-- The check at the end of an insertion. -/
def checkInserted (mfile : Nat) (state : TsState) : Except Fault Unit := do
  let file ← state.get mfile
  if file.timeslice_next ≠ 0 then
    let next ← state.get file.timeslice_next
    if next.timeslice_next ≠ 0 then
      let second ← state.get next.timeslice_next
      if second.timeslice_previous ≠ file.timeslice_next then .error .neighbours
      else .ok ()
    else .ok ()
  else .ok ()

/-- `mcachefs_file_timeslice_insert_in_ts`. -/
def insertInTs (mfile : Nat) (timeslice : Int) (state : TsState) : Except Fault TsState := do
  let file ← state.get mfile
  if file.timeslice ≠ -1 ∨ file.timeslice_previous ≠ 0 ∨ file.timeslice_next ≠ 0 then
    .error .invalidTimeslice
  else
    let state := state.set mfile { file with timeslice := timeslice }
    let head ← state.head timeslice
    let state ← state.headBefore mfile head
    let file ← state.get mfile
    let state := (state.set mfile { file with timeslice_next := head }).setHead timeslice mfile
    state.checkInserted mfile
    .ok state

/-- `mcachefs_file_timeslice_insert`. -/
def insert (mfile : Nat) (state : TsState) : Except Fault TsState :=
  state.insertInTs mfile state.current

/-- `mcachefs_file_timeslice_insert_in_freed`. -/
def insertInFreed (mfile : Nat) (state : TsState) : Except Fault TsState :=
  state.insertInTs mfile freed

/-- The first half of `mcachefs_file_timeslice_remove`: what leads to the file
leads on to the next one. -/
def leavePrevious (mfile : Nat) (state : TsState) : Except Fault TsState := do
  let file ← state.get mfile
  if file.timeslice_previous = 0 then
    let head ← state.head file.timeslice
    if head ≠ mfile then .error .notTheHead
    else .ok (state.setHead file.timeslice file.timeslice_next)
  else
    let previous ← state.get file.timeslice_previous
    if previous.timeslice_next ≠ mfile then .error .corruptedList
    else .ok (state.set file.timeslice_previous
      { previous with timeslice_next := file.timeslice_next })

/-- The second half: the next one, which may be the new head, gets the
timeslice of the file and points back to the previous one. -/
def leaveNext (mfile : Nat) (state : TsState) : Except Fault TsState := do
  let file ← state.get mfile
  if file.timeslice_next = 0 then .ok state
  else
    let next ← state.get file.timeslice_next
    if next.timeslice_previous ≠ mfile then .error .corruptedList
    else .ok (state.set file.timeslice_next
      { next with
        timeslice := file.timeslice
        timeslice_previous := file.timeslice_previous })

/-- The check at the end of a removal. -/
def checkRemoved (mfile : Nat) (state : TsState) : Except Fault Unit := do
  let file ← state.get mfile
  if file.timeslice_previous ≠ 0 ∧ file.timeslice_next ≠ 0 then
    let previous ← state.get file.timeslice_previous
    let after ← state.get previous.timeslice_next
    if after.timeslice_previous ≠ file.timeslice_previous then .error .neighbours
    else
      let next ← state.get file.timeslice_next
      let before ← state.get next.timeslice_previous
      if before.timeslice_next ≠ file.timeslice_next then .error .neighbours
      else .ok ()
  else .ok ()

end TsState

/-- The file is in no list. -/
def TsFile.unlinked (file : TsFile) : TsFile :=
  { file with timeslice := -1, timeslice_previous := 0, timeslice_next := 0 }

namespace TsState

/-- `mcachefs_file_timeslice_remove`. -/
def remove (mfile : Nat) (state : TsState) : Except Fault TsState := do
  let state ← state.leavePrevious mfile
  let state ← state.leaveNext mfile
  state.checkRemoved mfile
  let file ← state.get mfile
  .ok (state.set mfile file.unlinked)

/-- `mcachefs_file_timeslice_do_freshen`. -/
def doFreshen (mfile : Nat) (state : TsState) : Except Fault TsState := do
  let state ← state.remove mfile
  let file ← state.get mfile
  (state.set mfile file.unlinked).insert mfile

/-- `mcachefs_file_timeslice_get_freed`. -/
def getFreed (state : TsState) : Except Fault (Nat × TsState) := do
  let mfile ← state.head freed
  if mfile ≠ 0 then
    let state ← state.remove mfile
    .ok (mfile, state)
  else .ok (mfile, state)

/-- The loop of `mcachefs_file_timeslice_cleanup_freed`. -/
def freeList : (fuel mfile : Nat) -> TsState -> Except Fault TsState
  | 0, _, _ => .error .fuel
  | fuel + 1, mfile, state =>
      if mfile = 0 then .ok state
      else do
        let file ← state.get mfile
        freeList fuel file.timeslice_next
          { state with mfiles := Function.update state.mfiles mfile none }

/-- `mcachefs_file_timeslice_cleanup_freed`. -/
def cleanupFreed (fuel : Nat) (state : TsState) : Except Fault TsState := do
  let first ← state.head freed
  let state ← freeList fuel first state
  .ok (state.setHead freed 0)

/-- The loop of `mcachefs_file_timeslice_update` that looks for the last file
of a list. -/
def tail (state : TsState) : (fuel mfile : Nat) -> Except Fault Nat
  | 0, _ => .error .fuel
  | fuel + 1, mfile => do
      let file ← state.get mfile
      if file.timeslice_next ≠ 0 then tail state fuel file.timeslice_next
      else .ok mfile

/-- The files from `second` on are linked to the end of the list that begins
with `first`. -/
def linkLists (fuel first second : Nat) (state : TsState) : Except Fault TsState := do
  let mfile ← state.tail fuel first
  let file ← state.get mfile
  if file.timeslice_next ≠ 0 then .error .hadNext
  else
    let state := state.set mfile { file with timeslice_next := second }
    let head ← state.get second
    if head.timeslice_previous ≠ 0 then .error .hadPrevious
    else .ok (state.set second { head with timeslice_previous := mfile })

/-- The files in garbage come after those of the list that begins with
`first`. -/
def appendGarbage (fuel first : Nat) (state : TsState) : Except Fault TsState := do
  let second ← state.head garbage
  if second ≠ 0 then state.linkLists fuel first second else .ok state

/-- The head of garbage gets to know that it is. -/
def markGarbage (state : TsState) : Except Fault TsState := do
  let head ← state.head garbage
  if head = 0 then .error .shallNotBeHere
  else
    let file ← state.get head
    .ok (state.set head { file with timeslice := garbage })

/-- The list of the slice that comes next is put in front of garbage. -/
def discard (fuel : Nat) (slice : Int) (state : TsState) : Except Fault TsState := do
  let first ← state.head slice
  let state ← state.appendGarbage fuel first
  ((state.setHead garbage first).setHead slice 0).markGarbage

/-- `mcachefs_file_timeslice_update`. -/
def update (fuel : Nat) (state : TsState) : Except Fault TsState := do
  let slice := (state.current + FILE_TIMESLICE_NB + 1) % FILE_TIMESLICE_NB
  let first ← state.head slice
  let state ← if first ≠ 0 then state.discard fuel slice else .ok state
  .ok { state with current := (state.current + 1) % FILE_TIMESLICE_NB }

/-! ## Files -/

/-- `mcachefs_file_add`, where `malloc` returns the address `allocated`. -/
def fileAdd (allocated : Nat) (state : TsState) : Except Fault (Nat × TsState) := do
  let (mfile, state) ← state.getFreed
  let mfile := if mfile = 0 then allocated else mfile
  .ok (mfile, state.set mfile .zero)

/-- `mcachefs_file_init`. -/
def fileInit (mfile : Nat) (type : FileType) (state : TsState) : Except Fault TsState := do
  let _ ← state.get mfile
  .ok (state.set mfile { TsFile.zero with use := 1, type := type, timeslice := -1 })

/-- The part of `mcachefs_fileid_get` that makes a new open file. -/
def create (allocated metadata_id : Nat) (type : FileType) (state : TsState) :
    Except Fault TsState := do
  let (mfile, state) ← state.fileAdd allocated
  let state ← state.fileInit mfile type
  let file ← state.get mfile
  (state.set mfile { file with metadata_id := metadata_id }).insert mfile

/-- The part of `mcachefs_fileid_get` for an entry that is open already. -/
def reopen (mfile : Nat) (state : TsState) : Except Fault TsState := do
  let file ← state.get mfile
  .ok (state.set mfile { file with use := file.use + 1 })

/-- `mcachefs_file_remove`. -/
def fileRemove (mfile : Nat) (state : TsState) : Except Fault TsState := do
  let state ← state.remove mfile
  let file ← state.get mfile
  if file.metadata_id ≠ 0 ∧ file.use ≠ 0 then .error .lostTheRace
  else if file.deleted then .error .alreadyDeleted
  else (state.set mfile { file with deleted := true }).insertInFreed mfile

/-- `mcachefs_file_release`. -/
def fileRelease (mfile : Nat) (state : TsState) : Except Fault TsState := do
  let file ← state.get mfile
  if file.use = 0 then .error .zeroUse
  else
    let file := { file with use := file.use - 1 }
    let state := state.set mfile file
    if file.use = 0 then
      match file.type with
      | .file | .dir => state.fileRemove mfile
      | .vops => .ok state
    else .ok state

variable {state final : TsState} {file : TsFile} {mfile other : Nat} {slice : Int}
  {before after : List Nat} {lists : Int -> List Nat}

/-! ## The store -/

/-- The link forward of a structure. -/
def following (state : TsState) (mfile : Nat) : Nat :=
  ((state.mfiles mfile).map TsFile.timeslice_next).getD 0

/-- The link backward of a structure. -/
def preceding (state : TsState) (mfile : Nat) : Nat :=
  ((state.mfiles mfile).map TsFile.timeslice_previous).getD 0

/-- What the store holds besides the lists. -/
def data (state : TsState) (mfile : Nat) : Option TsFile :=
  (state.mfiles mfile).map TsFile.unlinked

/-- The number of a slice that a structure has. -/
def number (state : TsState) (mfile : Nat) : Option Int :=
  (state.mfiles mfile).map TsFile.timeslice

theorem get_eq (found : state.mfiles mfile = some file) : state.get mfile = .ok file := by
  rw [get, found]

theorem following_of (found : state.mfiles mfile = some file) :
    state.following mfile = file.timeslice_next := by
  rw [following, found]
  rfl

theorem preceding_of (found : state.mfiles mfile = some file) :
    state.preceding mfile = file.timeslice_previous := by
  rw [preceding, found]
  rfl

@[simp]
theorem set_self (state : TsState) (mfile : Nat) (file : TsFile) :
    (state.set mfile file).mfiles mfile = some file :=
  Function.update_self ..

theorem set_other (apart : other ≠ mfile) :
    (state.set mfile file).mfiles other = state.mfiles other :=
  Function.update_of_ne apart _ _

@[simp]
theorem following_set (state : TsState) (mfile : Nat) (file : TsFile) :
    (state.set mfile file).following = Function.update state.following mfile file.timeslice_next := by
  funext other
  by_cases same : other = mfile
  · subst same
    rw [following, set_self, Function.update_self]
    rfl
  · rw [following, set_other same, Function.update_of_ne same]
    rfl

@[simp]
theorem preceding_set (state : TsState) (mfile : Nat) (file : TsFile) :
    (state.set mfile file).preceding =
      Function.update state.preceding mfile file.timeslice_previous := by
  funext other
  by_cases same : other = mfile
  · subst same
    rw [preceding, set_self, Function.update_self]
    rfl
  · rw [preceding, set_other same, Function.update_of_ne same]
    rfl

theorem number_set_other (apart : other ≠ mfile) :
    (state.set mfile file).number other = state.number other := by
  rw [number, number, set_other apart]

/-- A link is no number. -/
theorem number_set (found : state.mfiles mfile = some file) {changed : TsFile}
    (same : changed.timeslice = file.timeslice) : (state.set mfile changed).number = state.number := by
  funext other
  by_cases equal : other = mfile
  · subst equal
    rw [number, number, set_self, found, Option.map_some, Option.map_some, same]
  · exact number_set_other equal

/-- Links are no data. -/
theorem data_set (found : state.mfiles mfile = some file) {changed : TsFile}
    (same : changed.unlinked = file.unlinked) : (state.set mfile changed).data = state.data := by
  funext other
  by_cases equal : other = mfile
  · subst equal
    rw [data, data, set_self, found, Option.map_some, Option.map_some, same]
  · rw [data, data, set_other equal]

@[simp]
theorem setHead_mfiles (state : TsState) (slice : Int) (mfile : Nat) :
    (state.setHead slice mfile).mfiles = state.mfiles :=
  rfl

@[simp]
theorem set_timeslices (state : TsState) (mfile : Nat) (file : TsFile) :
    (state.set mfile file).timeslices = state.timeslices :=
  rfl

theorem head_eq (inside : Slice slice) : state.head slice = .ok (state.timeslices slice) :=
  if_pos inside

/-- All that changed are links of the structures `touched` and the head of one
list. -/
structure Frame (state final : TsState) (slice : Int) (touched : List Nat) : Prop where
  data : final.data = state.data
  current : final.current = state.current
  heads : forall other, other ≠ slice -> final.timeslices other = state.timeslices other
  same : forall mfile, mfile ∉ touched -> final.mfiles mfile = state.mfiles mfile

namespace Frame

variable {touched : List Nat} {middle : TsState}

theorem refl (state : TsState) : Frame state state slice touched :=
  ⟨rfl, rfl, fun _ _ => rfl, fun _ _ => rfl⟩

theorem trans (one : Frame state middle slice touched) (two : Frame middle final slice touched) :
    Frame state final slice touched where
  data := two.data.trans one.data
  current := two.current.trans one.current
  heads other apart := (two.heads other apart).trans (one.heads other apart)
  same mfile outside := (two.same mfile outside).trans (one.same mfile outside)

theorem set (found : state.mfiles mfile = some file) (changed : TsFile)
    (links : changed.unlinked = file.unlinked) (member : mfile ∈ touched) :
    Frame state (state.set mfile changed) slice touched where
  data := data_set found links
  current := rfl
  heads _ _ := rfl
  same _ outside := set_other fun equal => outside (equal ▸ member)

theorem setHead (state : TsState) (mfile : Nat) :
    Frame state (state.setHead slice mfile) slice touched where
  data := rfl
  current := rfl
  heads _ apart := Function.update_of_ne apart _ _
  same _ _ := rfl

theorem none_iff (frame : Frame state final slice touched) :
    final.mfiles mfile = none ↔ state.mfiles mfile = none := by
  have same := congrFun frame.data mfile
  rw [TsState.data, TsState.data] at same
  rw [← Option.map_eq_none_iff, same, Option.map_eq_none_iff]

end Frame

/-! ## The lists in the store -/

/-- The store holds these lists, and no structure is in two of them. -/
structure Represents (state : TsState) (lists : Int -> List Nat) : Prop where
  null : state.mfiles 0 = none
  doubly : forall slice, Slice slice ->
    Doubly state.following state.preceding (state.timeslices slice) (lists slice)
  head : forall slice first rest, lists slice = first :: rest ->
    (state.mfiles first).map TsFile.timeslice = some slice
  inside : forall slice mfile, mfile ∈ lists slice -> Slice slice ∧ state.mfiles mfile ≠ none
  apart : forall slice other mfile, mfile ∈ lists slice -> mfile ∈ lists other -> slice = other

namespace Represents

theorem isSlice (represents : Represents state lists) (member : mfile ∈ lists slice) :
    Slice slice :=
  (represents.inside slice mfile member).1

theorem found (represents : Represents state lists) (member : mfile ∈ lists slice) :
    Exists fun file => state.mfiles mfile = some file :=
  Option.ne_none_iff_exists'.mp (represents.inside slice mfile member).2

theorem ne_zero (represents : Represents state lists) (found : state.mfiles mfile = some file) :
    mfile ≠ 0 := by
  rintro rfl
  rw [represents.null] at found
  cases found

theorem list (represents : Represents state lists) (listed : lists slice = before ++ mfile :: after) :
    Doubly state.following state.preceding (state.timeslices slice) (before ++ mfile :: after) := by
  have member : mfile ∈ lists slice := by
    rw [listed]
    exact List.mem_append_right _ List.mem_cons_self
  rw [← listed]
  exact represents.doubly slice (represents.isSlice member)

/-- One list is another one now, and only structures outside the other lists
were written. -/
theorem replace (represents : Represents state lists) {ids touched : List Nat}
    (frame : Frame state final slice touched) (isSlice : Slice slice)
    (list : Doubly final.following final.preceding (final.timeslices slice) ids)
    (head : forall first rest, ids = first :: rest ->
      (final.mfiles first).map TsFile.timeslice = some slice)
    (within : forall mfile, mfile ∈ ids -> mfile ∈ touched)
    (present : forall mfile, mfile ∈ ids -> state.mfiles mfile ≠ none)
    (apart : forall mfile, mfile ∈ touched -> forall other, other ≠ slice -> mfile ∉ lists other) :
    Represents final (Function.update lists slice ids) where
  null := frame.none_iff.mpr represents.null
  doubly other known := by
    by_cases equal : other = slice
    · subst equal
      rw [Function.update_self]
      exact list
    · rw [Function.update_of_ne equal, frame.heads other equal]
      have same := fun mfile member => frame.same mfile fun inside => apart mfile inside other equal member
      refine (represents.doubly other known).congr (fun mfile member => ?_) (fun mfile member => ?_)
      · rw [following, following, same mfile member]
      · rw [preceding, preceding, same mfile member]
  head other first rest listed := by
    by_cases equal : other = slice
    · subst equal
      rw [Function.update_self] at listed
      exact head first rest listed
    · rw [Function.update_of_ne equal] at listed
      have outside : first ∉ touched := fun inside =>
        apart first inside other equal (listed ▸ List.mem_cons_self)
      rw [frame.same first outside]
      exact represents.head other first rest listed
  inside other mfile member := by
    by_cases equal : other = slice
    · subst equal
      rw [Function.update_self] at member
      exact ⟨isSlice, frame.none_iff.not.mpr (present mfile member)⟩
    · rw [Function.update_of_ne equal] at member
      rw [Ne, frame.none_iff]
      exact represents.inside other mfile member
  apart one two mfile first second := by
    by_cases equal : one = slice <;> by_cases equal' : two = slice
    · rw [equal, equal']
    · rw [equal, Function.update_self] at first
      rw [Function.update_of_ne equal'] at second
      exact absurd second (apart mfile (within mfile first) two equal')
    · rw [equal', Function.update_self] at second
      rw [Function.update_of_ne equal] at first
      exact absurd first (apart mfile (within mfile second) one equal)
    · rw [Function.update_of_ne equal] at first
      rw [Function.update_of_ne equal'] at second
      exact represents.apart one two mfile first second

end Represents

/-! ## Removal -/

theorem leavePrevious_first (represents : Represents state lists)
    (listed : lists slice = mfile :: after) (found : state.mfiles mfile = some file) :
    state.leavePrevious mfile = .ok (state.setHead slice file.timeslice_next) := by
  have place : lists slice = [] ++ mfile :: after := listed
  have list := represents.list place
  have alone : file.timeslice_previous = 0 :=
    (preceding_of found).symm.trans list.previous_eq
  have isHead : file.timeslice = slice := by
    have head := represents.head slice mfile after listed
    rw [found] at head
    exact Option.some.inj head
  have first : state.timeslices slice = mfile := list.forward.cons_inv.1
  have isSlice := represents.isSlice (listed ▸ List.mem_cons_self)
  simp [leavePrevious, get_eq found, Bind.bind, Except.bind, alone, isHead, head_eq isSlice, first]

theorem leavePrevious_later {last : Nat} {lastFile : TsFile} (represents : Represents state lists)
    (listed : lists slice = before ++ last :: mfile :: after)
    (found : state.mfiles mfile = some file) (foundLast : state.mfiles last = some lastFile) :
    state.leavePrevious mfile =
      .ok (state.set last { lastFile with timeslice_next := file.timeslice_next }) := by
  have list := represents.list listed
  have back : file.timeslice_previous = last := by
    have place : lists slice = (before ++ [last]) ++ mfile :: after := by simpa using listed
    rw [← preceding_of found, (represents.list place).previous_eq, List.getLastD_concat]
  have leads : lastFile.timeslice_next = mfile := (following_of foundLast).symm.trans list.next_eq
  have some := represents.ne_zero foundLast
  simp [leavePrevious, get_eq found, Bind.bind, Except.bind, back, some, get_eq foundLast, leads]

theorem leaveNext_last (found : state.mfiles mfile = some file)
    (ends : file.timeslice_next = 0) : state.leaveNext mfile = .ok state := by
  simp [leaveNext, get_eq found, Bind.bind, Except.bind, ends]

theorem leaveNext_inside {follower : TsFile} (found : state.mfiles mfile = some file)
    (more : file.timeslice_next ≠ 0)
    (foundNext : state.mfiles file.timeslice_next = some follower)
    (back : follower.timeslice_previous = mfile) :
    state.leaveNext mfile = .ok (state.set file.timeslice_next
      { follower with
        timeslice := file.timeslice
        timeslice_previous := file.timeslice_previous }) := by
  simp [leaveNext, get_eq found, Bind.bind, Except.bind, more, get_eq foundNext, back]

theorem checkRemoved_ok (found : state.mfiles mfile = some file)
    (neighbours : file.timeslice_previous ≠ 0 -> file.timeslice_next ≠ 0 ->
      Exists fun one => Exists fun two =>
        state.mfiles file.timeslice_previous = some one ∧
          one.timeslice_next = file.timeslice_next ∧
        state.mfiles file.timeslice_next = some two ∧
          two.timeslice_previous = file.timeslice_previous) :
    state.checkRemoved mfile = .ok () := by
  rw [checkRemoved, get_eq found]
  simp only [Bind.bind, Except.bind]
  split
  · rename_i both
    obtain ⟨one, two, foundOne, forth, foundTwo, back⟩ := neighbours both.1 both.2
    simp [get_eq foundOne, forth, get_eq foundTwo, back]
  · rfl

/-- What remains after the first half of a removal. -/
theorem leavePrevious_ok (represents : Represents state lists)
    (listed : lists slice = before ++ mfile :: after) (found : state.mfiles mfile = some file) :
    Exists fun one => state.leavePrevious mfile = .ok one ∧ one.mfiles mfile = some file ∧
      Segment one.following (one.timeslices slice) (before ++ after) 0 ∧
      one.preceding = state.preceding ∧
      (forall other, (one.mfiles other).map TsFile.timeslice =
        (state.mfiles other).map TsFile.timeslice) ∧
      Frame state one slice (lists slice) := by
  have list := represents.list listed
  rcases List.eq_nil_or_concat' before with rfl | ⟨start, last, rfl⟩
  · refine ⟨_, leavePrevious_first represents listed found, found, ?_, rfl, fun _ => rfl,
      .setHead state _⟩
    have first : (state.setHead slice file.timeslice_next).timeslices slice =
        state.following mfile := (Function.update_self ..).trans (following_of found).symm
    rw [first]
    exact list.forward.cons_inv.2.2
  · have place : lists slice = start ++ last :: mfile :: after := by simpa using listed
    have member : last ∈ lists slice := by simp [place]
    obtain ⟨lastFile, foundLast⟩ := represents.found member
    have apart : mfile ≠ last := by
      rintro rfl
      have nodup := list.nodup
      simp [List.nodup_append] at nodup
    refine ⟨_, leavePrevious_later represents place found foundLast, ?_, ?_, ?_, ?_,
      .set foundLast _ rfl member⟩
    · rw [set_other apart, found]
    · rw [following_set, ← following_of found, set_timeslices, List.append_assoc]
      rw [List.append_assoc] at list
      exact list.forward.unlink
    · rw [preceding_set]
      funext other
      by_cases same : other = last
      · rw [same, Function.update_self, preceding_of foundLast]
      · rw [Function.update_of_ne same]
    · intro other
      by_cases same : other = last
      · rw [same, set_self, foundLast]
        rfl
      · rw [set_other same]

/-- What remains after the second half. -/
theorem leaveNext_ok {one : TsState} (represents : Represents state lists)
    (listed : lists slice = before ++ mfile :: after) (found : state.mfiles mfile = some file)
    (same : one.mfiles mfile = some file) (back : one.preceding = state.preceding)
    (timeslices : forall other, (one.mfiles other).map TsFile.timeslice =
      (state.mfiles other).map TsFile.timeslice)
    (frame : Frame state one slice (lists slice)) :
    Exists fun two => one.leaveNext mfile = .ok two ∧ two.mfiles mfile = some file ∧
      two.following = one.following ∧ two.timeslices = one.timeslices ∧
      Back two.preceding 0 (before ++ after) ∧
      (forall first rest, before ++ after = first :: rest ->
        (two.mfiles first).map TsFile.timeslice = some slice) ∧
      (forall other, two.number other = one.number other ∨
        other ∈ lists slice ∧ two.number other = some file.timeslice) ∧
      Frame one two slice (lists slice) := by
  have list := represents.list listed
  have remains := list.back_without
  rw [following_of found, preceding_of found] at remains
  have follows : file.timeslice_next = after.headD 0 :=
    (following_of found).symm.trans list.next_eq
  cases after with
  | nil =>
      refine ⟨one, leaveNext_last same follows, same, rfl, rfl, ?_, ?_, fun _ => Or.inl rfl,
        .refl one⟩
      · refine remains.congr fun other member => ?_
        have some : other ≠ file.timeslice_next := by
          rw [follows]
          exact list.forward.ne_zero (List.mem_append_left _ (by simpa using member))
        rw [Function.update_of_ne some, back]
      · intro first rest whole
        rw [timeslices]
        refine represents.head slice first (rest ++ [mfile]) ?_
        rw [listed, ← List.cons_append, ← whole, List.append_nil]
  | cons head after =>
      have member : head ∈ lists slice := by simp [listed]
      rw [List.headD_cons] at follows
      obtain ⟨headFile, foundHead⟩ : Exists fun headFile => one.mfiles head = some headFile := by
        rw [← Option.ne_none_iff_exists', Ne, frame.none_iff]
        exact (represents.inside slice head member).2
      have pointed : headFile.timeslice_previous = mfile := by
        rw [← preceding_of foundHead, back]
        have place : lists slice = (before ++ [mfile]) ++ head :: after := by simpa using listed
        rw [(represents.list place).previous_eq, List.getLastD_concat]
      have some : head ≠ 0 := list.forward.ne_zero (by simp)
      have nodup := list.nodup
      have apart : mfile ≠ head := by
        rintro rfl
        simp [List.nodup_append] at nodup
      subst head
      refine ⟨_, leaveNext_inside same some foundHead pointed, ?_, ?_, rfl, ?_, ?_, ?_,
        .set foundHead _ rfl member⟩
      · rw [set_other apart, same]
      · rw [following_set]
        funext other
        by_cases equal : other = file.timeslice_next
        · rw [equal, Function.update_self, following_of foundHead]
        · rw [Function.update_of_ne equal]
      · rw [preceding_set, back]
        exact remains
      · intro first rest whole
        cases before with
        | nil =>
            obtain ⟨rfl, -⟩ := List.cons.inj whole
            have isHead := represents.head slice mfile _ listed
            rw [found] at isHead
            rw [set_self]
            exact isHead
        | cons start before =>
            obtain ⟨rfl, -⟩ := List.cons.inj whole
            have outside : start ≠ file.timeslice_next := by
              rintro rfl
              simp at nodup
            rw [set_other outside, timeslices]
            exact represents.head slice start _ listed
      · intro other
        by_cases equal : other = file.timeslice_next
        · refine Or.inr ⟨equal ▸ member, ?_⟩
          rw [equal, number, set_self]
          rfl
        · exact Or.inl (number_set_other equal)

/-- What happens to a file that is taken out of its list: it gets no links, the
others keep their data, and all lists but its own stay. -/
theorem remove_ok (represents : Represents state lists)
    (listed : lists slice = before ++ mfile :: after) :
    Exists fun final => Exists fun file => state.remove mfile = .ok final ∧
      Represents final (Function.update lists slice (before ++ after)) ∧
      final.mfiles mfile = some file ∧ file.unlinked = file ∧
      final.data = state.data ∧ final.current = state.current ∧
      (forall other, other ≠ mfile -> final.number other = state.number other ∨
        other ∈ lists slice ∧ final.number other = state.number mfile) := by
  have member : mfile ∈ lists slice := by
    rw [listed]
    exact List.mem_append_right _ List.mem_cons_self
  obtain ⟨file, found⟩ := represents.found member
  have list := represents.list listed
  obtain ⟨one, first, same, forward, back, timeslices, frame⟩ :=
    leavePrevious_ok represents listed found
  obtain ⟨two, second, still, forth, heads, backward, isHead, numbers, more⟩ :=
    leaveNext_ok represents listed found same back timeslices frame
  rw [← forth, ← heads] at forward
  have remains : Doubly two.following two.preceding (two.timeslices slice) (before ++ after) :=
    ⟨forward, backward⟩
  have frame := frame.trans more
  have within : forall other, other ∈ before ++ after -> other ∈ lists slice := by
    rw [listed]
    intro other inside
    simp only [List.mem_append, List.mem_cons] at inside ⊢
    tauto
  have outside : mfile ∉ before ++ after := by
    have nodup := list.nodup
    rw [List.nodup_middle] at nodup
    exact (List.nodup_cons.mp nodup).1
  have checked : two.checkRemoved mfile = .ok () := by
    refine checkRemoved_ok still fun notFirst notLast => ?_
    rw [← preceding_of found, list.previous_eq] at notFirst ⊢
    rw [← following_of found, list.next_eq] at notLast ⊢
    rcases List.eq_nil_or_concat' before with rfl | ⟨start, last, rfl⟩
    · exact absurd rfl notFirst
    cases after with
    | nil => exact absurd rfl notLast
    | cons head after =>
        rw [List.getLastD_concat, List.headD_cons]
        have present : forall other, other ∈ (start ++ [last]) ++ head :: after ->
            Exists fun file => two.mfiles other = some file := by
          intro other inside
          rw [← Option.ne_none_iff_exists', Ne, frame.none_iff]
          exact (represents.inside slice other (within other inside)).2
        obtain ⟨lastFile, foundLast⟩ := present last (by simp)
        obtain ⟨headFile, foundHead⟩ := present head (by simp)
        refine ⟨lastFile, headFile, foundLast, ?_, foundHead, ?_⟩
        · rw [← following_of foundLast]
          rw [List.append_assoc] at remains
          exact remains.next_eq
        · rw [← preceding_of foundHead, remains.previous_eq, List.getLastD_concat]
  have frame := frame.trans (.set still file.unlinked rfl member)
  refine ⟨two.set mfile file.unlinked, file.unlinked, ?_, ?_, set_self .., rfl, frame.data,
    frame.current, fun other apart => ?_⟩
  · rw [remove, first]
    simp [Bind.bind, Except.bind, second, checked, get_eq still]
  · refine represents.replace frame (represents.isSlice member) ?_ ?_ within ?_ ?_
    · rw [following_set, preceding_set, set_timeslices]
      refine remains.congr (fun other inside => ?_) (fun other inside => ?_)
      · exact Function.update_of_ne (ne_of_mem_of_not_mem inside outside) _ _
      · exact Function.update_of_ne (ne_of_mem_of_not_mem inside outside) _ _
    · intro start rest whole
      have apart : start ≠ mfile := fun equal => outside (equal ▸ whole ▸ List.mem_cons_self)
      rw [set_other apart]
      exact isHead start rest whole
    · exact fun other inside => (represents.inside slice other (within other inside)).2
    · exact fun other inside elsewhere apart again =>
        apart (represents.apart elsewhere slice other again inside)
  · rw [number_set_other apart]
    rcases numbers other with same | ⟨inside, same⟩
    · exact Or.inl (same.trans (timeslices other))
    · refine Or.inr ⟨inside, same.trans ?_⟩
      rw [number, found]
      rfl

/-! ## Insertion -/

/-- A structure in no list may be written. -/
theorem Represents.setApart (represents : Represents state lists) (some : mfile ≠ 0)
    (apart : forall slice, mfile ∉ lists slice) (file : TsFile) :
    Represents (state.set mfile file) lists where
  null := (set_other some.symm).trans represents.null
  doubly slice isSlice := by
    rw [following_set, preceding_set]
    refine (represents.doubly slice isSlice).congr (fun other member => ?_) (fun other member => ?_)
    · exact Function.update_of_ne (ne_of_mem_of_not_mem member (apart slice)) _ _
    · exact Function.update_of_ne (ne_of_mem_of_not_mem member (apart slice)) _ _
  head slice first rest listed := by
    have member : first ∈ lists slice := listed ▸ List.mem_cons_self
    rw [set_other (ne_of_mem_of_not_mem member (apart slice))]
    exact represents.head slice first rest listed
  inside slice other member := by
    rw [set_other (ne_of_mem_of_not_mem member (apart slice))]
    exact represents.inside slice other member
  apart := represents.apart

theorem headBefore_ok (represents : Represents state lists) (isSlice : Slice slice)
    (apart : mfile ∉ lists slice) (found : state.mfiles mfile = some file) :
    Exists fun one => state.headBefore mfile (state.timeslices slice) = .ok one ∧
      one.mfiles mfile = some file ∧ one.following = state.following ∧
      one.timeslices = state.timeslices ∧
      (forall other, other ≠ state.timeslices slice ->
        one.preceding other = state.preceding other) ∧
      (lists slice ≠ [] -> one.preceding (state.timeslices slice) = mfile) ∧
      one.number = state.number ∧ Frame state one slice (mfile :: lists slice) := by
  have list := represents.doubly slice isSlice
  cases listed : lists slice with
  | nil =>
      rw [listed] at list
      rw [list.forward.nil_inv]
      exact ⟨state, by simp [headBefore], found, rfl, rfl, fun _ _ => rfl, fun some => absurd rfl some,
        rfl, .refl state⟩
  | cons first rest =>
      rw [listed] at list
      obtain ⟨isFirst, some, -⟩ := list.forward.cons_inv
      have member : first ∈ lists slice := listed ▸ List.mem_cons_self
      obtain ⟨firstFile, foundFirst⟩ := represents.found member
      rw [isFirst]
      refine ⟨state.set first { firstFile with timeslice_previous := mfile }, ?_, ?_, ?_, rfl, ?_, ?_,
        number_set foundFirst rfl, .set foundFirst _ rfl (List.mem_cons_of_mem _ List.mem_cons_self)⟩
      · simp [headBefore, some, get_eq foundFirst, Bind.bind, Except.bind]
      · rw [set_other (ne_of_mem_of_not_mem member apart).symm, found]
      · rw [following_set]
        funext other
        by_cases same : other = first
        · rw [same, Function.update_self, following_of foundFirst]
        · rw [Function.update_of_ne same]
      · intro other away
        rw [preceding_set, Function.update_of_ne away]
      · intro _
        rw [preceding_set, Function.update_self]

/-- The check at the end of an insertion passes for a list in both directions. -/
theorem checkInserted_ok (list : Doubly state.following state.preceding mfile (mfile :: after))
    (present : forall other, other ∈ mfile :: after -> state.mfiles other ≠ none) :
    state.checkInserted mfile = .ok () := by
  have found : forall other, other ∈ mfile :: after ->
      Exists fun file => state.mfiles other = some file :=
    fun other member => Option.ne_none_iff_exists'.mp (present other member)
  obtain ⟨file, foundFile⟩ := found mfile List.mem_cons_self
  obtain ⟨-, -, rest⟩ := list.forward.cons_inv
  rw [following_of foundFile] at rest
  rw [checkInserted, get_eq foundFile]
  simp only [Bind.bind, Except.bind]
  rcases after with _ | ⟨head, after⟩
  · rw [if_neg (not_not.mpr rest.nil_inv)]
  obtain ⟨isHead, some, more⟩ := rest.cons_inv
  obtain ⟨headFile, foundHead⟩ := found head (by simp)
  rw [following_of foundHead] at more
  rw [isHead, if_pos some, get_eq foundHead]
  rcases after with _ | ⟨second, after⟩
  · simp only [more.nil_inv, ne_eq, not_true, if_false]
  obtain ⟨isSecond, someSecond, -⟩ := more.cons_inv
  obtain ⟨secondFile, foundSecond⟩ := found second (by simp)
  have back : secondFile.timeslice_previous = head :=
    (preceding_of foundSecond).symm.trans list.backward.2.2.1
  simp [isSecond, someSecond, get_eq foundSecond, back]

/-- What happens to a file that is in no list and is put in front of one. -/
theorem insertInTs_ok (represents : Represents state lists) (isSlice : Slice slice)
    (found : state.mfiles mfile = some file) (alone : file.unlinked = file)
    (apart : forall slice, mfile ∉ lists slice) :
    Exists fun final => state.insertInTs mfile slice = .ok final ∧
      Represents final (Function.update lists slice (mfile :: lists slice)) ∧
      final.data = state.data ∧ final.current = state.current ∧
      forall other, other ≠ mfile -> final.number other = state.number other := by
  have some := represents.ne_zero found
  have timeslice : file.timeslice = -1 := (congrArg TsFile.timeslice alone).symm
  have noPrevious : file.timeslice_previous = 0 :=
    (congrArg TsFile.timeslice_previous alone).symm
  have noNext : file.timeslice_next = 0 := (congrArg TsFile.timeslice_next alone).symm
  have written := represents.setApart some apart { file with timeslice := slice }
  have begun : Frame state (state.set mfile { file with timeslice := slice }) slice
      (mfile :: lists slice) := .set found _ rfl List.mem_cons_self
  generalize start : state.set mfile { file with timeslice := slice } = first at written begun
  have foundFirst : first.mfiles mfile = .some { file with timeslice := slice } := by
    rw [← start, set_self]
  obtain ⟨one, before, foundOne, forth, heads, back, backHead, numbers, frame⟩ :=
    headBefore_ok written isSlice (apart slice) foundFirst
  have list := written.doubly slice isSlice
  have fresh : first.preceding mfile = 0 := (preceding_of foundFirst).trans noPrevious
  have notHead : mfile ≠ first.timeslices slice := by
    intro equal
    rcases listed : lists slice with _ | ⟨head, rest⟩
    · rw [listed] at list
      exact some (equal.trans list.forward.nil_inv)
    · rw [listed] at list
      refine apart slice (listed ▸ ?_)
      rw [equal, list.forward.cons_inv.1]
      exact List.mem_cons_self
  let linkedFile : TsFile :=
    { file with timeslice := slice, timeslice_next := first.timeslices slice }
  let final := (one.set mfile linkedFile).setHead slice mfile
  have more : Frame first final slice (mfile :: lists slice) :=
    (frame.trans (.set foundOne linkedFile rfl List.mem_cons_self)).trans (.setHead _ mfile)
  have head : final.timeslices slice = mfile := Function.update_self ..
  have pushed : Doubly final.following final.preceding mfile (mfile :: lists slice) := by
    have forward : final.following = Function.update one.following mfile linkedFile.timeslice_next :=
      following_set one mfile linkedFile
    have backward : final.preceding =
        Function.update one.preceding mfile linkedFile.timeslice_previous :=
      preceding_set one mfile linkedFile
    rw [forward, backward, forth]
    refine (list.push some (apart slice) fresh).congr (fun _ _ => rfl) (fun other member => ?_)
    rcases List.mem_cons.mp member with rfl | member
    · rw [Function.update_self, Function.update_of_ne notHead, fresh]
      exact noPrevious
    · rw [Function.update_of_ne (ne_of_mem_of_not_mem member (apart slice))]
      by_cases isHead : other = first.timeslices slice
      · rw [isHead, Function.update_self]
        exact backHead (List.ne_nil_of_mem member)
      · rw [Function.update_of_ne isHead]
        exact back other isHead
  have present : forall other, other ∈ mfile :: lists slice -> first.mfiles other ≠ none := by
    intro other member
    rcases List.mem_cons.mp member with rfl | member
    · simp [foundFirst]
    · exact (written.inside slice other member).2
  refine ⟨final, ?_, ?_, (more.data.trans begun.data), more.current.trans begun.current,
    fun other apart => ?_⟩
  · have checked : final.checkInserted mfile = .ok () :=
      checkInserted_ok pushed fun other member => more.none_iff.not.mpr (present other member)
    rw [insertInTs, get_eq found]
    simp only [Bind.bind, Except.bind]
    rw [if_neg (by simp [timeslice, noPrevious, noNext]), start, head_eq isSlice]
    simp only [before, get_eq foundOne]
    rw [show one.set mfile _ = one.set mfile linkedFile from rfl]
    simp only [final] at checked
    rw [checked]
  · refine written.replace more isSlice (head.symm ▸ pushed) ?_ (fun _ member => member) present ?_
    · intro start rest whole
      obtain ⟨rfl, -⟩ := List.cons.inj whole
      exact congrArg (Option.map TsFile.timeslice) (set_self one _ linkedFile)
    · intro other member slice' different inside
      rcases List.mem_cons.mp member with rfl | member
      · exact apart slice' inside
      · exact different (represents.apart slice' slice other inside member)
  · have linked : final.number other = one.number other := number_set_other apart
    rw [linked, numbers, ← start, number_set_other apart]

/-! ## The next slice -/

/-- The loop ends at the last file of the list. -/
theorem tail_ok {last : Nat} (segment : Segment state.following mfile (before ++ [last]) 0)
    (present : forall other, other ∈ before ++ [last] -> state.mfiles other ≠ none) :
    Returns (state.tail · mfile) last := by
  refine ⟨before.length + 1, fun fuel enough => ?_⟩
  induction before generalizing mfile fuel with
  | nil =>
      obtain ⟨fuel, rfl⟩ := Nat.exists_eq_add_of_le' enough
      obtain ⟨rfl, -, rest⟩ := segment.cons_inv
      obtain ⟨file, found⟩ := Option.ne_none_iff_exists'.mp (present mfile (by simp))
      have ends := rest.nil_inv
      rw [following_of found] at ends
      simp [tail, get_eq found, Bind.bind, Except.bind, ends]
  | cons id before inductionHypothesis =>
      obtain ⟨fuel, rfl⟩ := Nat.exists_eq_add_of_le' enough
      obtain ⟨rfl, -, rest⟩ := segment.cons_inv
      obtain ⟨file, found⟩ := Option.ne_none_iff_exists'.mp (present mfile (by simp))
      rw [following_of found] at rest
      have goesOn : file.timeslice_next ≠ 0 := by
        intro ends
        have empty := rest.head_zero_iff.mp ends
        simp at empty
      have induction' := inductionHypothesis rest (fun other member => present other (by simp_all))
        (fuel + before.length + 1) (by omega)
      simp only [tail, get_eq found, Bind.bind, Except.bind]
      rw [if_pos goesOn]
      exact induction'

theorem linkLists_ok {first second last : Nat} {others : List Nat}
    (list : Doubly state.following state.preceding first (before ++ [last]))
    (other : Doubly state.following state.preceding second (second :: others))
    (apart : forall id, id ∈ before ++ [last] -> id ∉ second :: others)
    (present : forall id, id ∈ (before ++ [last]) ++ second :: others -> state.mfiles id ≠ none) :
    Exists fun final => Returns (state.linkLists · first second) final ∧
      Doubly final.following final.preceding first ((before ++ [last]) ++ second :: others) ∧
      final.timeslices = state.timeslices ∧ final.number = state.number ∧
      Frame state final slice ((before ++ [last]) ++ second :: others) := by
  have lastIn : last ∈ (before ++ [last]) ++ second :: others := by simp
  have secondIn : second ∈ (before ++ [last]) ++ second :: others := by simp
  obtain ⟨lastFile, foundLast⟩ := Option.ne_none_iff_exists'.mp (present last lastIn)
  obtain ⟨secondFile, foundSecond⟩ := Option.ne_none_iff_exists'.mp (present second secondIn)
  obtain ⟨enough, ends⟩ := tail_ok list.forward fun id member =>
    present id (List.mem_append_left _ member)
  have noNext : lastFile.timeslice_next = 0 := (following_of foundLast).symm.trans list.next_eq
  have noPrevious : secondFile.timeslice_previous = 0 :=
    (preceding_of foundSecond).symm.trans other.backward.1
  have different : second ≠ last := by
    rintro rfl
    exact apart second (by simp) List.mem_cons_self
  let linked : TsFile := { lastFile with timeslice_next := second }
  let pointing : TsFile := { secondFile with timeslice_previous := last }
  have still : (state.set last linked).mfiles second = some secondFile :=
    (set_other different).trans foundSecond
  have one : Frame state (state.set last linked) slice ((before ++ [last]) ++ second :: others) :=
    .set foundLast linked rfl lastIn
  refine ⟨(state.set last linked).set second pointing, ⟨enough, fun fuel much => ?_⟩, ?_, rfl,
    (number_set still (show pointing.timeslice = _ from rfl)).trans
      (number_set foundLast (show linked.timeslice = _ from rfl)),
    one.trans (.set still pointing rfl secondIn)⟩
  · simp [linkLists, ends fuel much, Bind.bind, Except.bind, get_eq foundLast, noNext,
      get_eq still, noPrevious, linked, pointing]
  · refine (list.append other apart).congr (fun id _ => ?_) (fun id _ => ?_)
    · rw [following_set, following_set]
      by_cases same : id = second
      · rw [same, Function.update_self, Function.update_of_ne different, following_of foundSecond]
      · rw [Function.update_of_ne same]
    · rw [preceding_set, preceding_set]
      by_cases same : id = second
      · rw [same, Function.update_self, Function.update_self]
      · rw [Function.update_of_ne same, Function.update_of_ne same]
        by_cases same : id = last
        · rw [same, Function.update_self, preceding_of foundLast]
        · rw [Function.update_of_ne same]

/-- The slice is empty afterwards, and what was in it is in front of garbage. -/
theorem discard_ok (represents : Represents state lists) (isSlice : Slice slice)
    (notGarbage : slice ≠ garbage) (some : lists slice ≠ []) :
    Exists fun final => Returns (state.discard · slice) final ∧
      Represents final (Function.update (Function.update lists slice []) garbage
        (lists slice ++ lists garbage)) ∧
      final.data = state.data ∧ final.current = state.current ∧ final.timeslices slice = 0 ∧
      forall other, other ∉ lists slice -> final.number other = state.number other := by
  have isGarbage : Slice garbage := by decide
  have list := represents.doubly slice isSlice
  have old := represents.doubly garbage isGarbage
  -- The two lists are one already, and the heads have yet to be written.
  obtain ⟨middle, appended, whole, heads, numbers, frame⟩ : Exists fun middle =>
      Returns (state.appendGarbage · (state.timeslices slice)) middle ∧
      Doubly middle.following middle.preceding (state.timeslices slice)
        (lists slice ++ lists garbage) ∧
      middle.timeslices = state.timeslices ∧ middle.number = state.number ∧
      Frame state middle garbage (lists slice ++ lists garbage) := by
    rcases List.eq_nil_or_concat' (lists slice) with empty | ⟨before, last, listed⟩
    · exact absurd empty some
    rcases garbageListed : lists garbage with _ | ⟨second, others⟩
    · rw [garbageListed] at old
      have none : state.timeslices garbage = 0 := old.forward.nil_inv
      refine ⟨state, ⟨0, fun _ _ => ?_⟩, ?_, rfl, rfl, .refl state⟩
      · simp [appendGarbage, head_eq isGarbage, none, Bind.bind, Except.bind]
      rw [List.append_nil]
      exact list
    · rw [garbageListed] at old
      obtain ⟨isSecond, notNull, -⟩ := old.forward.cons_inv
      rw [listed] at list ⊢
      rw [isSecond] at old
      obtain ⟨middle, returns, whole, heads, numbers, frame⟩ := linkLists_ok list old
        (fun id inside again => notGarbage (represents.apart slice garbage id (listed ▸ inside)
          (garbageListed ▸ again)))
        (fun id inside => by
          rcases List.mem_append.mp inside with inside | inside
          · exact (represents.inside slice id (listed ▸ inside)).2
          · exact (represents.inside garbage id (garbageListed ▸ inside)).2)
      obtain ⟨enough, returns⟩ := returns
      refine ⟨middle, ⟨enough, fun fuel much => ?_⟩, whole, heads, numbers, frame⟩
      simp [appendGarbage, head_eq isGarbage, isSecond, notNull, Bind.bind, Except.bind,
        returns fuel much]
  obtain ⟨first, rest, listed⟩ := List.exists_cons_of_ne_nil some
  have isFirst : state.timeslices slice = first := by
    rw [listed] at list
    exact list.forward.cons_inv.1
  have member : first ∈ lists slice := listed ▸ List.mem_cons_self
  have notNull : first ≠ 0 := list.forward.ne_zero member
  have present : forall id, id ∈ lists slice ++ lists garbage -> state.mfiles id ≠ none := by
    intro id inside
    rcases List.mem_append.mp inside with inside | inside
    · exact (represents.inside slice id inside).2
    · exact (represents.inside garbage id inside).2
  obtain ⟨headFile, foundHead⟩ := Option.ne_none_iff_exists'.mp
    (frame.none_iff.not.mpr (present first (List.mem_append_left _ member)))
  let marked : TsFile := { headFile with timeslice := garbage }
  let swapped := (middle.setHead garbage first).setHead slice 0
  let final := swapped.set first marked
  have garbageHead : swapped.timeslices garbage = first := by
    change Function.update (Function.update middle.timeslices garbage first) slice 0 garbage = first
    rw [Function.update_of_ne notGarbage.symm, Function.update_self]
  have emptied : Represents (state.setHead slice 0) (Function.update lists slice []) := by
    refine represents.replace (.setHead state 0) isSlice ?_ (fun _ _ impossible => nomatch impossible)
      (fun _ member => member) (fun _ impossible => nomatch impossible)
      (fun _ impossible => nomatch impossible)
    rw [show (state.setHead slice 0).timeslices slice = 0 from Function.update_self ..]
    exact .nil
  have more : Frame (state.setHead slice 0) final garbage (lists slice ++ lists garbage) := by
    have foundHead : swapped.mfiles first = .some headFile := foundHead
    have marking : Frame swapped final garbage (lists slice ++ lists garbage) :=
      .set foundHead marked rfl (List.mem_append_left _ member)
    have swapping : Frame (state.setHead slice 0) swapped garbage (lists slice ++ lists garbage) := by
      refine ⟨frame.data, frame.current, fun other apart => ?_, frame.same⟩
      change Function.update (Function.update middle.timeslices garbage first) slice 0 other =
        Function.update state.timeslices slice 0 other
      by_cases same : other = slice
      · rw [same, Function.update_self, Function.update_self]
      · rw [Function.update_of_ne same, Function.update_of_ne same, Function.update_of_ne apart,
          heads]
    exact swapping.trans marking
  refine ⟨final, ?_, ?_, more.data, more.current, Function.update_self .., fun other outside => ?_⟩
  · obtain ⟨enough, appended⟩ := appended
    refine ⟨enough, fun fuel much => ?_⟩
    have step := appended fuel much
    have here : swapped.get first = .ok headFile := get_eq foundHead
    have mark : swapped.markGarbage = .ok final := by
      simp [markGarbage, head_eq isGarbage, garbageHead, notNull, here, Bind.bind, Except.bind,
        final, marked]
    change state.discard fuel slice = .ok final
    rw [discard, head_eq isSlice, isFirst]
    rw [isFirst] at step
    simp only [Bind.bind, Except.bind, step]
    exact mark
  · have garbageFinal : final.timeslices garbage = first := garbageHead
    refine emptied.replace more isGarbage ?_ ?_ (fun _ member => member) present ?_
    · rw [garbageFinal]
      rw [isFirst] at whole
      refine whole.congr (fun id _ => ?_) (fun id _ => ?_)
      · rw [following_set]
        by_cases same : id = first
        · rw [same, Function.update_self]
          exact (following_of foundHead).symm
        · rw [Function.update_of_ne same]
          rfl
      · rw [preceding_set]
        by_cases same : id = first
        · rw [same, Function.update_self]
          exact (preceding_of foundHead).symm
        · rw [Function.update_of_ne same]
          rfl
    · intro start others shape
      rw [listed, List.cons_append] at shape
      obtain ⟨rfl, -⟩ := List.cons.inj shape
      rw [set_self]
      rfl
    · intro id inside other different again
      by_cases same : other = slice
      · rw [same, Function.update_self] at again
        cases again
      · rw [Function.update_of_ne same] at again
        rcases List.mem_append.mp inside with inside | inside
        · exact same (represents.apart other slice id again inside)
        · exact different (represents.apart other garbage id again inside)
  · have apart : other ≠ first := fun equal => outside (equal ▸ member)
    have marking : final.number other = swapped.number other := number_set_other apart
    exact marking.trans (congrFun numbers other)

/-! ## The invariant -/

/-- The lists have every other structure in the same place. -/
def SameElsewhere (mfile : Nat) (lists others : Int -> List Nat) : Prop :=
  forall other, other ≠ mfile -> forall slice, other ∈ others slice ↔ other ∈ lists slice

theorem SameElsewhere.trans {others final : Int -> List Nat}
    (one : SameElsewhere mfile lists others) (two : SameElsewhere mfile others final) :
    SameElsewhere mfile lists final :=
  fun other apart slice => (two other apart slice).trans (one other apart slice)

/-- The slices of the ring, without garbage and freed. -/
def Ring (slice : Int) : Prop := 0 ≤ slice ∧ slice < FILE_TIMESLICE_NB

/-- What is in a slice of the ring has its number. -/
def Numbered (state : TsState) (lists : Int -> List Nat) : Prop :=
  forall slice mfile, Ring slice -> mfile ∈ lists slice -> state.number mfile = some slice

/-- A removal, without the place in the list. -/
theorem removes (represents : Represents state lists) (member : mfile ∈ lists slice)
    (found : state.mfiles mfile = some file) :
    Exists fun final => Exists fun others => state.remove mfile = .ok final ∧
      Represents final others ∧ final.mfiles mfile = some file.unlinked ∧
      final.data = state.data ∧ final.current = state.current ∧
      (forall slice, mfile ∉ others slice) ∧ SameElsewhere mfile lists others ∧
      (Numbered state lists -> Numbered final others) := by
  obtain ⟨before, after, listed⟩ := List.append_of_mem member
  obtain ⟨final, left, result, remains, foundLeft, alone, data, current, numbers⟩ :=
    remove_ok represents listed
  have isLeft : left = file.unlinked := by
    have same := congrFun data mfile
    rw [TsState.data, TsState.data, foundLeft, found] at same
    rw [← alone]
    exact Option.some.inj same
  have gone : forall other, mfile ∉ Function.update lists slice (before ++ after) other := by
    intro other again
    by_cases same : other = slice
    · rw [same, Function.update_self] at again
      have nodup := (represents.list listed).nodup
      rw [List.nodup_middle] at nodup
      exact (List.nodup_cons.mp nodup).1 again
    · rw [Function.update_of_ne same] at again
      exact same (represents.apart other slice mfile again member)
  have elsewhere : SameElsewhere mfile lists (Function.update lists slice (before ++ after)) := by
    intro other apart place
    by_cases same : place = slice
    · rw [same, Function.update_self, listed]
      simp [apart]
    · rw [Function.update_of_ne same]
  refine ⟨final, _, result, remains, isLeft ▸ foundLeft, data, current, gone, elsewhere,
    fun numbered place other ring inside => ?_⟩
  have apart : other ≠ mfile := fun same => gone place (same ▸ inside)
  have old := (elsewhere other apart place).mp inside
  rcases numbers other apart with same | ⟨beside, same⟩
  · exact same.trans (numbered place other ring old)
  · -- The next one got the number of the file, which is that of their list.
    obtain rfl := represents.apart place slice other old beside
    exact same.trans (numbered place mfile ring member)

/-- An insertion, without the place in the list. -/
theorem inserts (represents : Represents state lists) (isSlice : Slice slice)
    (found : state.mfiles mfile = some file) (alone : file.unlinked = file)
    (apart : forall slice, mfile ∉ lists slice) :
    Exists fun final => Exists fun others => state.insertInTs mfile slice = .ok final ∧
      Represents final others ∧ final.data = state.data ∧ final.current = state.current ∧
      mfile ∈ others slice ∧ SameElsewhere mfile lists others ∧
      (Numbered state lists -> Numbered final others) := by
  obtain ⟨final, result, after, data, current, numbers⟩ :=
    insertInTs_ok represents isSlice found alone apart
  have first : Function.update lists slice (mfile :: lists slice) slice = mfile :: lists slice :=
    Function.update_self ..
  have elsewhere : SameElsewhere mfile lists
      (Function.update lists slice (mfile :: lists slice)) := by
    intro other apart place
    by_cases same : place = slice
    · rw [same, Function.update_self]
      simp [apart]
    · rw [Function.update_of_ne same]
  have front : mfile ∈ Function.update lists slice (mfile :: lists slice) slice := by
    rw [first]
    exact List.mem_cons_self
  refine ⟨final, _, result, after, data, current, front, elsewhere,
    fun numbered place other ring inside => ?_⟩
  by_cases same : other = mfile
  · subst same
    rw [← after.apart slice place other front inside]
    exact after.head slice other _ first
  · rw [numbers other same]
    exact numbered place other ring ((elsewhere other same place).mp inside)

/-- A structure in no list may be written. -/
theorem Numbered.setApart (numbered : Numbered state lists)
    (apart : forall slice, mfile ∉ lists slice) (file : TsFile) :
    Numbered (state.set mfile file) lists := by
  intro slice other ring member
  rw [number_set_other (ne_of_mem_of_not_mem member (apart slice))]
  exact numbered slice other ring member

/-- The lists are those of the store, and a structure is in the list of freed
ones exactly if its file is deleted. -/
structure Listed (state : TsState) (lists : Int -> List Nat) : Prop
    extends Represents state lists where
  current : 0 ≤ state.current ∧ state.current < FILE_TIMESLICE_NB
  all : forall mfile file, state.mfiles mfile = some file ->
    Exists fun slice => mfile ∈ lists slice ∧ (file.deleted = true ↔ slice = freed)

theorem Listed.currentSlice (listed : Listed state lists) : Slice state.current := by
  have current := listed.current
  unfold Slice FILE_TIMESLICE_NB at *
  omega

theorem Listed.current_ne_freed (listed : Listed state lists) : state.current ≠ freed := by
  have current := listed.current
  unfold freed FILE_TIMESLICE_NB at *
  omega

/-- All but one structure is as it was, and that one is in its place. -/
theorem Listed.changed {others : Int -> List Nat} (listed : Listed state lists)
    (represents : Represents final others) (current : final.current = state.current)
    (same : SameElsewhere mfile lists others)
    (data : forall other, other ≠ mfile -> final.data other = state.data other)
    (place : forall file, final.data mfile = some file ->
      Exists fun slice => mfile ∈ others slice ∧ (file.deleted = true ↔ slice = freed)) :
    Listed final others where
  toRepresents := represents
  current := current ▸ listed.current
  all other file found := by
    have known : final.data other = some file.unlinked := by
      rw [TsState.data, found]
      rfl
    by_cases apart : other = mfile
    · subst apart
      exact place file.unlinked known
    · rw [data other apart, TsState.data, Option.map_eq_some_iff] at known
      obtain ⟨old, foundOld, unlinked⟩ := known
      obtain ⟨slice, member, deleted⟩ := listed.all other old foundOld
      have sameDeleted : old.deleted = file.deleted := by
        have same := congrArg TsFile.deleted unlinked
        exact same
      exact ⟨slice, (same other apart slice).mpr member, sameDeleted ▸ deleted⟩

theorem data_of (found : state.mfiles mfile = some file) :
    state.data mfile = some file.unlinked := by
  rw [data, found]
  rfl

theorem data_set_other (apart : other ≠ mfile) : (state.set mfile file).data other =
    state.data other := by
  rw [data, data, set_other apart]

/-! ## The operations -/

/-- A structure that is in no list gets its fields and then its place. -/
theorem Listed.inserts {middle : TsState} {others : Int -> List Nat} (listed : Listed state lists)
    (file : TsFile)
    (represents : Represents middle others) (some : mfile ≠ 0)
    (current : middle.current = state.current) (same : SameElsewhere mfile lists others)
    (data : forall other, other ≠ mfile -> middle.data other = state.data other)
    (apart : forall slice, mfile ∉ others slice) (isSlice : Slice slice)
    (alone : file.unlinked = file) (deleted : file.deleted = true ↔ slice = freed) :
    Exists fun final => Exists fun more =>
      (middle.set mfile file).insertInTs mfile slice = .ok final ∧ Listed final more ∧
      (Numbered middle others -> Numbered final more) ∧ final.current = state.current ∧
      mfile ∈ more slice := by
  have written := represents.setApart some apart file
  obtain ⟨final, more, result, represents, known, now, member, elsewhere, numbers⟩ :=
    TsState.inserts written isSlice (set_self ..) alone apart
  refine ⟨final, more, result, listed.changed represents (now.trans current) (same.trans elsewhere)
    (fun other away => ?_) (fun found present => ⟨slice, member, ?_⟩),
    fun numbered => numbers (numbered.setApart apart file), now.trans current, member⟩
  · rw [known, data_set_other away, data other away]
  · rw [known, data_of (set_self ..), alone] at present
    cases present
    exact deleted

theorem doFreshen_ok (listed : Listed state lists) (member : mfile ∈ lists slice)
    (notFreed : slice ≠ freed) :
    Exists fun final => Exists fun others =>
      state.doFreshen mfile = .ok final ∧ Listed final others ∧
      (Numbered state lists -> Numbered final others) ∧ final.current = state.current ∧
      mfile ∈ others state.current := by
  obtain ⟨file, found⟩ := listed.found member
  obtain ⟨middle, others, removed, represents, left, data, current, apart, same, numbers⟩ :=
    removes listed.toRepresents member found
  have alive : file.deleted = true ↔ state.current = freed := by
    obtain ⟨place, inside, deleted⟩ := listed.all mfile file found
    rw [deleted, listed.apart place slice mfile inside member]
    exact iff_of_false notFreed listed.current_ne_freed
  obtain ⟨final, more, inserted, result, later, now, inside⟩ := listed.inserts file.unlinked
    represents (listed.ne_zero found) current same (fun other _ => congrFun data other) apart
    listed.currentSlice rfl alive
  refine ⟨final, more, ?_, result, later ∘ numbers, now, inside⟩
  rw [doFreshen, removed]
  simp only [Bind.bind, Except.bind, get_eq left]
  rw [insert]
  change (middle.set mfile file.unlinked).insertInTs mfile middle.current = .ok final
  rw [current]
  exact inserted

theorem fileRemove_ok (listed : Listed state lists) (member : mfile ∈ lists slice)
    (notFreed : slice ≠ freed) (found : state.mfiles mfile = some file) (unused : file.use = 0) :
    Exists fun final => Exists fun others =>
      state.fileRemove mfile = .ok final ∧ Listed final others ∧
      (Numbered state lists -> Numbered final others) := by
  obtain ⟨middle, others, removed, represents, left, data, current, apart, same, numbers⟩ :=
    removes listed.toRepresents member found
  have alive : file.deleted = false := by
    obtain ⟨place, inside, deleted⟩ := listed.all mfile file found
    rw [listed.apart place slice mfile inside member] at deleted
    exact Bool.eq_false_iff.mpr fun isDeleted => notFreed (deleted.mp isDeleted)
  obtain ⟨final, more, inserted, result, later, -, -⟩ :=
    listed.inserts { file.unlinked with deleted := true } represents
    (listed.ne_zero found) current same (fun other _ => congrFun data other) apart
    (by decide : Slice freed) rfl (iff_of_true rfl rfl)
  refine ⟨final, more, ?_, result, later ∘ numbers⟩
  have noUse : file.unlinked.use = 0 := unused
  have notDeleted : file.unlinked.deleted = false := alive
  rw [fileRemove, removed]
  simp only [Bind.bind, Except.bind, get_eq left]
  rw [if_neg (fun both => both.2 noUse), notDeleted]
  exact inserted

/-- A structure that is in a list may be written, up to its links. -/
theorem Represents.setData (represents : Represents state lists)
    (found : state.mfiles mfile = some file) (changed : TsFile)
    (next : changed.timeslice_next = file.timeslice_next)
    (previous : changed.timeslice_previous = file.timeslice_previous)
    (timeslice : changed.timeslice = file.timeslice) :
    Represents (state.set mfile changed) lists where
  null := by
    rw [set_other (represents.ne_zero found).symm]
    exact represents.null
  doubly slice isSlice := by
    rw [following_set, preceding_set, next, previous, ← following_of found, ← preceding_of found,
      Function.update_eq_self, Function.update_eq_self]
    exact represents.doubly slice isSlice
  head slice first rest listed := by
    by_cases same : first = mfile
    · have head := represents.head slice first rest listed
      rw [same, found] at head
      rw [same, set_self, Option.map_some, timeslice]
      exact head
    · rw [set_other same]
      exact represents.head slice first rest listed
  inside slice other member := by
    obtain ⟨isSlice, present⟩ := represents.inside slice other member
    refine ⟨isSlice, ?_⟩
    by_cases same : other = mfile
    · simp [same]
    · rw [set_other same]
      exact present
  apart := represents.apart

/-- A change of the count of uses. -/
theorem setUse_ok (listed : Listed state lists) (found : state.mfiles mfile = some file)
    (use : Nat) : Listed (state.set mfile { file with use := use }) lists ∧
      (Numbered state lists -> Numbered (state.set mfile { file with use := use }) lists) := by
  have numbers : (state.set mfile { file with use := use }).number = state.number :=
    number_set found rfl
  refine ⟨?_, fun numbered slice other ring inside => ?_⟩
  swap
  · rw [numbers]
    exact numbered slice other ring inside
  have represents := listed.toRepresents.setData found { file with use := use } rfl rfl rfl
  have same : SameElsewhere mfile lists lists := fun _ _ _ => .rfl
  refine listed.changed represents rfl same
    (fun other apart => data_set_other apart) (fun changed known => ?_)
  rw [data_of (set_self ..)] at known
  cases known
  exact listed.all mfile file found

theorem reopen_ok (listed : Listed state lists) (found : state.mfiles mfile = some file) :
    Exists fun final => Exists fun others =>
      state.reopen mfile = .ok final ∧ Listed final others ∧
      (Numbered state lists -> Numbered final others) := by
  refine ⟨_, lists, ?_, setUse_ok listed found (file.use + 1)⟩
  simp [reopen, get_eq found, Bind.bind, Except.bind]

theorem fileRelease_ok (listed : Listed state lists) (member : mfile ∈ lists slice)
    (notFreed : slice ≠ freed) (found : state.mfiles mfile = some file) (used : file.use ≠ 0) :
    Exists fun final => Exists fun others =>
      state.fileRelease mfile = .ok final ∧ Listed final others ∧
      (Numbered state lists -> Numbered final others) := by
  obtain ⟨lowered, numbers⟩ := setUse_ok listed found (file.use - 1)
  rw [fileRelease, get_eq found]
  simp only [Bind.bind, Except.bind]
  rw [if_neg used]
  split
  · rename_i last
    obtain ⟨final, others, removed, result, later⟩ :=
      fileRemove_ok lowered member notFreed (set_self ..) last
    split
    · exact ⟨final, others, removed, result, later ∘ numbers⟩
    · exact ⟨final, others, removed, result, later ∘ numbers⟩
    · exact ⟨_, lists, rfl, lowered, numbers⟩
  · exact ⟨_, lists, rfl, lowered, numbers⟩

theorem create_ok {allocated : Nat} (listed : Listed state lists)
    (unused : state.mfiles allocated = none) (notNull : allocated ≠ 0) (metadata_id : Nat)
    (type : FileType) : Exists fun final => Exists fun others =>
      state.create allocated metadata_id type = .ok final ∧ Listed final others ∧
      (Numbered state lists -> Numbered final others) := by
  have isFreed : Slice freed := by decide
  -- The structure comes from the list of freed ones or from `malloc`.
  obtain ⟨mfile, middle, others, added, represents, some, current, same, data, apart, numbers⟩ :
      Exists fun mfile => Exists fun middle => Exists fun others =>
        state.fileAdd allocated = .ok (mfile, middle.set mfile .zero) ∧
        Represents middle others ∧ mfile ≠ 0 ∧ middle.current = state.current ∧
        SameElsewhere mfile lists others ∧
        (forall other, other ≠ mfile -> middle.data other = state.data other) ∧
        (forall slice, mfile ∉ others slice) ∧
        (Numbered state lists -> Numbered middle others) := by
    have list := listed.doubly freed isFreed
    rcases freedListed : lists freed with _ | ⟨first, rest⟩
    · rw [freedListed] at list
      refine ⟨allocated, state, lists, ?_, listed.toRepresents, notNull, rfl, fun _ _ _ => .rfl,
        fun _ _ => rfl, fun slice again => (listed.inside slice allocated again).2 unused, id⟩
      simp [fileAdd, getFreed, head_eq isFreed, list.forward.nil_inv, Bind.bind, Except.bind]
    · have member : first ∈ lists freed := freedListed ▸ List.mem_cons_self
      obtain ⟨file, found⟩ := listed.found member
      obtain ⟨middle, others, removed, represents, -, data, current, apart, same, numbers⟩ :=
        removes listed.toRepresents member found
      rw [freedListed] at list
      obtain ⟨isFirst, some, -⟩ := list.forward.cons_inv
      refine ⟨first, middle, others, ?_, represents, some, current, same,
        fun other _ => congrFun data other, apart, numbers⟩
      simp [fileAdd, getFreed, head_eq isFreed, isFirst, some, removed, Bind.bind, Except.bind]
  let opened : TsFile :=
    { TsFile.zero with use := 1, type := type, timeslice := -1, metadata_id := metadata_id }
  obtain ⟨final, more, inserted, result, later, -, -⟩ := listed.inserts opened represents some
    current same data apart listed.currentSlice rfl
    (iff_of_false Bool.false_ne_true listed.current_ne_freed)
  refine ⟨final, more, ?_, result, later ∘ numbers⟩
  have overwritten : ((middle.set mfile .zero).set mfile
      { TsFile.zero with use := 1, type := type, timeslice := -1 }).set mfile opened =
      middle.set mfile opened := by
    simp [set]
  rw [create, added]
  simp only [Bind.bind, Except.bind, fileInit, get_eq (set_self middle mfile .zero),
    get_eq (set_self (middle.set mfile .zero) mfile _)]
  rw [insert]
  change TsState.insertInTs mfile middle.current (((middle.set mfile .zero).set mfile
      { TsFile.zero with use := 1, type := type, timeslice := -1 }).set mfile opened) = .ok final
  rw [overwritten, current]
  exact inserted

/-! ## The file thread -/

theorem update_ok (listed : Listed state lists) :
    Exists fun final => Returns (state.update ·) final ∧ final.timeslices final.current = 0 ∧
      Exists fun others => Listed final others ∧ (Numbered state lists -> Numbered final others) := by
  have index : (state.current + FILE_TIMESLICE_NB + 1) % FILE_TIMESLICE_NB =
      (state.current + 1) % FILE_TIMESLICE_NB := by
    rw [add_right_comm, Int.add_emod_right]
  have inside : 0 ≤ (state.current + 1) % FILE_TIMESLICE_NB ∧
      (state.current + 1) % FILE_TIMESLICE_NB < FILE_TIMESLICE_NB :=
    ⟨Int.emod_nonneg _ (by decide), Int.emod_lt_of_pos _ (by decide)⟩
  generalize now : (state.current + 1) % FILE_TIMESLICE_NB = slice at index inside
  have isSlice : Slice slice ∧ slice ≠ garbage ∧ slice ≠ freed := by
    unfold Slice garbage freed FILE_TIMESLICE_NB at *
    omega
  obtain ⟨isSlice, notGarbage, notFreed⟩ := isSlice
  have list := listed.doubly slice isSlice
  rcases known : lists slice with _ | ⟨first, rest⟩
  · rw [known] at list
    have none : state.timeslices slice = 0 := list.forward.nil_inv
    refine ⟨{ state with current := slice }, ⟨0, fun fuel _ => ?_⟩, none, lists, ?_⟩
    · simp only [update, index, head_eq isSlice, none, now, Bind.bind, Except.bind]
      rfl
    · exact ⟨⟨⟨listed.null, listed.doubly, listed.head, listed.inside, listed.apart⟩, inside,
        listed.all⟩, fun numbered => numbered⟩
  · have notEmpty : lists slice ≠ [] := known ▸ List.cons_ne_nil _ _
    obtain ⟨final, ⟨enough, result⟩, represents, data, current, empty, numbers⟩ :=
      discard_ok listed.toRepresents isSlice notGarbage notEmpty
    rw [known] at list
    obtain ⟨isFirst, some, -⟩ := list.forward.cons_inv
    refine ⟨{ final with current := slice }, ⟨enough, fun fuel much => ?_⟩, empty, _,
      ⟨⟨represents.null, represents.doubly, represents.head, represents.inside, represents.apart⟩,
        inside, fun mfile file found => ?_⟩, fun numbered place other ring member => ?_⟩
    · have step : state.discard fuel slice = .ok final := result fuel much
      simp only [update, index, head_eq isSlice, isFirst, Bind.bind, Except.bind]
      rw [if_pos some, step]
      simp only [current, now]
    · have same := congrFun data mfile
      have found : final.mfiles mfile = .some file := found
      rw [data_of found, TsState.data, eq_comm, Option.map_eq_some_iff] at same
      obtain ⟨old, foundOld, unlinked⟩ := same
      have sameDeleted : old.deleted = file.deleted := by
        have same := congrArg TsFile.deleted unlinked
        exact same
      obtain ⟨place, member, deleted⟩ := listed.all mfile old foundOld
      rw [sameDeleted] at deleted
      have garbageNotFreed : garbage ≠ freed := by decide
      by_cases moved : place = slice ∨ place = garbage
      · refine ⟨garbage, ?_, deleted.trans (iff_of_false ?_ garbageNotFreed)⟩
        · rw [Function.update_self, List.mem_append]
          rcases moved with rfl | rfl
          · exact .inl member
          · exact .inr member
        · rcases moved with rfl | rfl
          · exact notFreed
          · exact garbageNotFreed
      · refine ⟨place, ?_, deleted⟩
        rw [Function.update_of_ne fun equal => moved (.inr equal),
          Function.update_of_ne fun equal => moved (.inl equal)]
        exact member
    · have apart : place ≠ garbage := by
        rintro rfl
        exact absurd ring.2 (by decide)
      rw [Function.update_of_ne apart] at member
      by_cases same : place = slice
      · rw [same, Function.update_self] at member
        cases member
      · rw [Function.update_of_ne same] at member
        have outside : other ∉ lists slice := fun again =>
          same (listed.apart place slice other member again)
        exact (numbers other outside).trans (numbered place other ring member)

/-- The structures of a list are given back, and the others stay. -/
theorem freeList_ok {ids : List Nat} (segment : Segment state.following mfile ids 0)
    (present : forall other, other ∈ ids -> state.mfiles other ≠ none) :
    Returns (freeList · mfile state)
      { state with mfiles := fun other => if other ∈ ids then none else state.mfiles other } := by
  refine ⟨ids.length + 1, fun fuel enough => ?_⟩
  induction ids generalizing mfile fuel state with
  | nil =>
      obtain ⟨fuel, rfl⟩ := Nat.exists_eq_add_of_le' enough
      change freeList (fuel + 1) mfile state = _
      rw [freeList, if_pos segment.nil_inv]
      simp
  | cons id ids inductionHypothesis =>
      obtain ⟨fuel, rfl⟩ := Nat.exists_eq_add_of_le' enough
      have nodup := List.nodup_cons.mp segment.nodup
      obtain ⟨rfl, some, rest⟩ := segment.cons_inv
      obtain ⟨file, found⟩ := Option.ne_none_iff_exists'.mp (present mfile List.mem_cons_self)
      rw [following_of found] at rest
      have without : forall other, other ∈ ids ->
          (Function.update state.mfiles mfile none) other = state.mfiles other := fun other member =>
        Function.update_of_ne (ne_of_mem_of_not_mem member nodup.1) _ _
      let less : TsState := { state with mfiles := Function.update state.mfiles mfile none }
      have shorter : Segment less.following file.timeslice_next ids 0 :=
        rest.congr fun other member => by simp only [following, less, without other member]
      have others : forall other, other ∈ ids -> less.mfiles other ≠ none := by
        intro other member
        change Function.update state.mfiles mfile none other ≠ none
        rw [without other member]
        exact present other (List.mem_cons_of_mem _ member)
      have goesOn : freeList (fuel + ids.length + 1) file.timeslice_next less = _ :=
        inductionHypothesis shorter others (fuel + ids.length + 1) (by omega)
      change freeList (fuel + ids.length + 1 + 1) mfile state = _
      rw [freeList, if_neg some, get_eq found]
      simp only [Bind.bind, Except.bind]
      refine Eq.trans goesOn ?_
      congr 2
      funext other
      by_cases same : other = mfile
      · simp [less, same]
      · simp [less, same]

theorem cleanupFreed_ok (listed : Listed state lists) :
    Exists fun final => Returns (state.cleanupFreed ·) final ∧
      Exists fun others => Listed final others ∧ (Numbered state lists -> Numbered final others) := by
  have isFreed : Slice freed := by decide
  obtain ⟨enough, result⟩ := freeList_ok (listed.doubly freed isFreed).forward fun other member =>
    (listed.inside freed other member).2
  let less : TsState := { state with
    mfiles := fun other => if other ∈ lists freed then none else state.mfiles other }
  -- Another list has no structure that was given back.
  have kept : forall slice mfile, mfile ∈ lists slice -> slice ≠ freed ->
      less.mfiles mfile = state.mfiles mfile := fun slice mfile member apart =>
    if_neg fun again => apart (listed.apart slice freed mfile member again)
  refine ⟨less.setHead freed 0, ⟨enough, fun fuel much => ?_⟩, Function.update lists freed [],
    ⟨⟨?_, fun slice isSlice => ?_, fun slice first rest shape => ?_, fun slice mfile member => ?_,
      fun one two mfile first second => ?_⟩, listed.current, fun mfile file found => ?_⟩,
    fun numbered slice mfile ring member => ?_⟩
  · have step : freeList fuel (state.timeslices freed) state = .ok less := result fuel much
    simp only [cleanupFreed, head_eq isFreed, Bind.bind, Except.bind, step]
  · change (if 0 ∈ lists freed then none else state.mfiles 0) = none
    rw [listed.null, ite_self]
  · by_cases same : slice = freed
    · subst same
      rw [Function.update_self]
      change Doubly _ _ (Function.update less.timeslices freed 0 freed) []
      rw [Function.update_self]
      exact .nil
    · have head : (less.setHead freed 0).timeslices slice = state.timeslices slice :=
        Function.update_of_ne same _ _
      rw [Function.update_of_ne same, head]
      refine (listed.doubly slice isSlice).congr (fun mfile member => ?_) (fun mfile member => ?_)
      · rw [following, following, setHead_mfiles, kept slice mfile member same]
      · rw [preceding, preceding, setHead_mfiles, kept slice mfile member same]
  · by_cases same : slice = freed
    · rw [same, Function.update_self] at shape
      cases shape
    · rw [Function.update_of_ne same] at shape
      rw [setHead_mfiles, kept slice first (shape ▸ List.mem_cons_self) same]
      exact listed.head slice first rest shape
  · by_cases same : slice = freed
    · rw [same, Function.update_self] at member
      cases member
    · rw [Function.update_of_ne same] at member
      rw [setHead_mfiles, kept slice mfile member same]
      exact listed.inside slice mfile member
  · by_cases same : one = freed
    · rw [same, Function.update_self] at first
      cases first
    by_cases same' : two = freed
    · rw [same', Function.update_self] at second
      cases second
    rw [Function.update_of_ne same] at first
    rw [Function.update_of_ne same'] at second
    exact listed.apart one two mfile first second
  · have stays : mfile ∉ lists freed := by
      intro member
      rw [setHead_mfiles] at found
      exact absurd (found.symm.trans (if_pos member)) (Option.some_ne_none file)
    rw [setHead_mfiles] at found
    obtain ⟨slice, member, deleted⟩ := listed.all mfile file ((if_neg stays).symm.trans found)
    refine ⟨slice, ?_, deleted⟩
    have apart : slice ≠ freed := by
      rintro rfl
      exact stays member
    rw [Function.update_of_ne apart]
    exact member
  · have apart : slice ≠ freed := by
      rintro rfl
      exact absurd ring.2 (by decide)
    rw [Function.update_of_ne apart] at member
    rw [number, setHead_mfiles, kept slice mfile member apart]
    exact numbered slice mfile ring member

/-! ## All runs -/

/-- The list of this slice leads to the structure. -/
def InSlice (state : TsState) (slice : Int) (mfile : Nat) : Prop :=
  Exists fun ids =>
    Doubly state.following state.preceding (state.timeslices slice) ids ∧ mfile ∈ ids

/-- One call under the file lock. -/
inductive Step (state : TsState) : TsState -> Prop
  /-- A new open file; `allocated` is the address from `malloc`. -/
  | create (allocated metadata_id : Nat) (type : FileType) (next : TsState)
      (unused : state.mfiles allocated = none) (notNull : allocated ≠ 0)
      (result : state.create allocated metadata_id type = .ok next) : Step state next
  | reopen (mfile : Nat) (next : TsState) (present : state.mfiles mfile ≠ none)
      (result : state.reopen mfile = .ok next) : Step state next
  | freshen (mfile : Nat) (next : TsState) (present : state.mfiles mfile ≠ none)
      (notFreed : ¬ state.InSlice freed mfile) (result : state.doFreshen mfile = .ok next) :
      Step state next
  /-- The holder of a use gives it back. -/
  | release (mfile : Nat) (file : TsFile) (next : TsState)
      (found : state.mfiles mfile = some file) (notFreed : ¬ state.InSlice freed mfile)
      (used : file.use ≠ 0) (result : state.fileRelease mfile = .ok next) : Step state next
  /-- A file without a use is moved to the freed list. -/
  | remove (mfile : Nat) (file : TsFile) (next : TsState)
      (found : state.mfiles mfile = some file) (notFreed : ¬ state.InSlice freed mfile)
      (unused : file.use = 0) (result : state.fileRemove mfile = .ok next) : Step state next
  | update (next : TsState) (result : Returns (state.update ·) next) : Step state next
  | cleanupFreed (next : TsState) (result : Returns (state.cleanupFreed ·) next) :
      Step state next

/-- The lists are a partition of the allocated structures and each of them is
linked in both directions, and no call that may be made ends in a fault. -/
structure Sound (state : TsState) : Prop where
  partition : Exists fun lists : Int -> List Nat =>
    (forall slice, Slice slice ->
      Doubly state.following state.preceding (state.timeslices slice) (lists slice)) ∧
    (forall slice first rest, lists slice = first :: rest ->
      state.preceding first = 0 ∧
        (state.mfiles first).map TsFile.timeslice = some slice) ∧
    (forall slice mfile, mfile ∈ lists slice -> Slice slice ∧ state.mfiles mfile ≠ none) ∧
    forall mfile, state.mfiles mfile ≠ none -> ExistsUnique fun slice => mfile ∈ lists slice
  creates : forall allocated metadata_id type, state.mfiles allocated = none -> allocated ≠ 0 ->
    Exists fun next => state.create allocated metadata_id type = .ok next
  reopens : forall mfile, state.mfiles mfile ≠ none ->
    Exists fun next => state.reopen mfile = .ok next
  freshens : forall mfile, state.mfiles mfile ≠ none -> ¬ state.InSlice freed mfile ->
    Exists fun next => state.doFreshen mfile = .ok next
  releases : forall mfile file, state.mfiles mfile = some file -> ¬ state.InSlice freed mfile ->
    file.use ≠ 0 -> Exists fun next => state.fileRelease mfile = .ok next
  removes : forall mfile file, state.mfiles mfile = some file -> ¬ state.InSlice freed mfile ->
    file.use = 0 -> Exists fun next => state.fileRemove mfile = .ok next
  updates : Exists fun next => Returns (state.update ·) next ∧ next.timeslices next.current = 0
  cleans : Exists fun next => Returns (state.cleanupFreed ·) next

theorem Listed.inSlice (listed : Listed state lists) (isSlice : Slice slice) :
    state.InSlice slice mfile ↔ mfile ∈ lists slice := by
  constructor
  · rintro ⟨ids, list, member⟩
    rwa [(listed.doubly slice isSlice).forward.unique list.forward]
  · exact fun member => ⟨lists slice, listed.doubly slice isSlice, member⟩

/-- The list of a structure that is not freed. -/
theorem Listed.place (listed : Listed state lists) (found : state.mfiles mfile = some file)
    (notFreed : ¬ state.InSlice freed mfile) :
    Exists fun slice => mfile ∈ lists slice ∧ slice ≠ freed := by
  obtain ⟨slice, member, -⟩ := listed.all mfile file found
  refine ⟨slice, member, ?_⟩
  rintro rfl
  exact notFreed ((listed.inSlice (by decide)).mpr member)

theorem Listed.sound (listed : Listed state lists) : Sound state where
  partition := by
    refine ⟨lists, listed.doubly, fun slice first rest shape => ⟨?_, listed.head slice first rest shape⟩,
      listed.inside, fun mfile present => ?_⟩
    · have list := listed.doubly slice (listed.isSlice (shape ▸ List.mem_cons_self))
      rw [shape] at list
      exact list.backward.1
    · obtain ⟨file, found⟩ := Option.ne_none_iff_exists'.mp present
      obtain ⟨slice, member, -⟩ := listed.all mfile file found
      exact ⟨slice, member, fun other again => listed.apart other slice mfile again member⟩
  creates allocated metadata_id type unused notNull := by
    obtain ⟨final, -, result, -⟩ := create_ok listed unused notNull metadata_id type
    exact ⟨final, result⟩
  reopens mfile present := by
    obtain ⟨file, found⟩ := Option.ne_none_iff_exists'.mp present
    obtain ⟨final, -, result, -⟩ := reopen_ok listed found
    exact ⟨final, result⟩
  freshens mfile present notFreed := by
    obtain ⟨file, found⟩ := Option.ne_none_iff_exists'.mp present
    obtain ⟨slice, member, apart⟩ := listed.place found notFreed
    obtain ⟨final, -, result, -⟩ := doFreshen_ok listed member apart
    exact ⟨final, result⟩
  releases mfile file found notFreed used := by
    obtain ⟨slice, member, apart⟩ := listed.place found notFreed
    obtain ⟨final, -, result, -⟩ := fileRelease_ok listed member apart found used
    exact ⟨final, result⟩
  removes mfile file found notFreed unused := by
    obtain ⟨slice, member, apart⟩ := listed.place found notFreed
    obtain ⟨final, -, result, -⟩ := fileRemove_ok listed member apart found unused
    exact ⟨final, result⟩
  updates := by
    obtain ⟨final, result, empty, -⟩ := update_ok listed
    exact ⟨final, result, empty⟩
  cleans := by
    obtain ⟨final, result, -⟩ := cleanupFreed_ok listed
    exact ⟨final, result⟩

theorem listed_init : Listed init fun _ => [] where
  null := rfl
  doubly _ _ := .nil
  head _ _ _ impossible := nomatch impossible
  inside _ _ impossible := nomatch impossible
  apart _ _ _ impossible := nomatch impossible
  current := by decide
  all _ _ impossible := nomatch impossible

/-- A step leads to what the lemma about its call says. -/
private theorem listed_of {result : Except Fault TsState} {next : TsState}
    (known : Exists fun final => Exists fun others => result = .ok final ∧ Listed final others ∧
      (Numbered state lists -> Numbered final others))
    (taken : result = .ok next) : Exists fun others => Listed next others ∧
      (Numbered state lists -> Numbered next others) := by
  obtain ⟨final, others, same, listed⟩ := known
  rw [same] at taken
  cases taken
  exact ⟨others, listed⟩

theorem Listed.step {next : TsState} (listed : Listed state lists) (step : Step state next) :
    Exists fun others => Listed next others ∧ (Numbered state lists -> Numbered next others) := by
  cases step with
  | create allocated metadata_id type _ unused notNull result =>
      exact listed_of (create_ok listed unused notNull metadata_id type) result
  | reopen mfile _ present result =>
      obtain ⟨file, found⟩ := Option.ne_none_iff_exists'.mp present
      exact listed_of (reopen_ok listed found) result
  | freshen mfile _ present notFreed result =>
      obtain ⟨file, found⟩ := Option.ne_none_iff_exists'.mp present
      obtain ⟨slice, member, apart⟩ := listed.place found notFreed
      obtain ⟨final, others, fresh, next, numbers, -⟩ := doFreshen_ok listed member apart
      exact listed_of ⟨final, others, fresh, next, numbers⟩ result
  | release mfile file _ found notFreed used result =>
      obtain ⟨slice, member, apart⟩ := listed.place found notFreed
      exact listed_of (fileRelease_ok listed member apart found used) result
  | remove mfile file _ found notFreed unused result =>
      obtain ⟨slice, member, apart⟩ := listed.place found notFreed
      exact listed_of (fileRemove_ok listed member apart found unused) result
  | update _ result =>
      obtain ⟨final, same, -, known⟩ := update_ok listed
      rw [result.unique same]
      exact known
  | cleanupFreed _ result =>
      obtain ⟨final, same, known⟩ := cleanupFreed_ok listed
      rw [result.unique same]
      exact known

/-- The invariant of all runs. -/
theorem reachable_listed {state : TsState} (reachable : Reachable (· = init) Step state) :
    Exists fun lists => Listed state lists ∧ Numbered state lists := by
  have first : forall state, state = init ->
      Exists fun lists => Listed state lists ∧ Numbered state lists := by
    rintro state rfl
    exact ⟨_, listed_init, fun _ _ _ impossible => nomatch impossible⟩
  have preserved : forall state next, (Exists fun lists => Listed state lists ∧ Numbered state lists) ->
      Step state next -> Exists fun lists => Listed next lists ∧ Numbered next lists := by
    rintro state next ⟨lists, listed, numbered⟩ step
    obtain ⟨others, result, numbers⟩ := listed.step step
    exact ⟨others, result, numbers numbered⟩
  exact reachable.ofInvariant first preserved

/-- Whatever the order of the calls, the lists are a partition of the open and
the freed structures, and no call comes to a call of `Bug`. -/
theorem reachable_sound {state : TsState} (reachable : Reachable (· = init) Step state) :
    Sound state := by
  obtain ⟨lists, listed, -⟩ := reachable_listed reachable
  exact listed.sound

/-- Nothing is in a list without a head. -/
theorem not_inSlice {slice : Int} (none : state.timeslices slice = 0) :
    ¬ state.InSlice slice mfile := by
  rintro ⟨ids, list, member⟩
  have forward := list.forward
  rw [none] at forward
  rw [forward.head_zero_iff.mp rfl] at member
  cases member

/-- Two files are opened.  In the next slice one of them is used and the other is released, and a
third file gets its structure. -/
theorem used_states : Exists fun one => Exists fun two => Exists fun three => Exists fun four =>
    Exists fun five => Exists fun six => Exists fun file =>
      (init.create 8 3 .file = .ok one ∧ one.mfiles 9 = none) ∧
      (one.create 9 4 .file = .ok two ∧ forall fuel, two.update fuel = .ok three) ∧
      (three.mfiles 8 ≠ none ∧ three.timeslices freed = 0 ∧ three.doFreshen 8 = .ok four) ∧
      (four.mfiles 9 = some file ∧ file.use ≠ 0 ∧ four.timeslices freed = 0 ∧
        four.fileRelease 9 = .ok five) ∧
      five.mfiles 10 = none ∧ five.create 10 5 .dir = .ok six ∧ six.timeslices 1 = 9 :=
  ⟨_, _, _, _, _, _, _, ⟨rfl, rfl⟩, ⟨rfl, fun _ => rfl⟩, ⟨by decide, rfl, rfl⟩,
    ⟨rfl, by decide, rfl, rfl⟩, rfl, rfl, rfl⟩

theorem reachable_sound_used : Exists fun state =>
    (do
      let state ← init.create 8 3 .file
      let state ← state.create 9 4 .file
      let state ← state.update 0
      let state ← state.doFreshen 8
      let state ← state.fileRelease 9
      state.create 10 5 .dir) = .ok state ∧ state.timeslices 1 = 9 ∧ Sound state := by
  obtain ⟨one, two, three, four, five, six, file, ⟨first, freshOne⟩, ⟨second, third⟩,
    ⟨present, emptyOne, fourth⟩, ⟨found, used, emptyTwo, fifth⟩, freshTwo, sixth, again⟩ :=
    used_states
  have opened : Reachable (· = init) Step two :=
    .step (.step (.start rfl) (.create 8 3 .file one rfl (by decide) first))
      (.create 9 4 .file two freshOne (by decide) second)
  have freshened : Reachable (· = init) Step four :=
    .step (.step opened (.update three ⟨0, fun fuel _ => third fuel⟩))
      (.freshen 8 four present (not_inSlice emptyOne) fourth)
  have released : Reachable (· = init) Step five :=
    .step freshened (.release 9 file five found (not_inSlice emptyTwo) used fifth)
  refine ⟨six, ?_, again,
    reachable_sound (.step released (.create 10 5 .dir six freshTwo (by decide) sixth))⟩
  simp only [first, second, third, fourth, fifth, sixth, Bind.bind, Except.bind]

end TsState

end Timeslices
end Mcachefs
