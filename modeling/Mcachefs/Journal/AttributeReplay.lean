import Mcachefs.Journal.Apply
import Mcachefs.Metadata.Operations
import Mcachefs.Metadata.SharedAttributes
import Mcachefs.Vops

namespace Mcachefs
namespace Journal

open Library HardLinks
open Metadata (ENOENT ENOSYS)

/-!
# Attributes by way of the journal

A chmod, chown or truncate changes the entry of the file at once, and the
source when the journal is applied.  The two ways differ: the callback for
chmod keeps the bits of the entry above the permissions, and the journal has
the mode as it was given.
-/

/-- The entries with their names, and the records of the journal. -/
structure AttributeState where
  links : LinkState
  journal : List JournalRecord

/-- What these callbacks append. -/
def attributeRecord (op : JournalOp) (path : Path) (mode uid gid : UInt32) (size : UInt64) :
    JournalRecord where
  op := op.code
  mode := mode
  rdev := 0
  uid := uid
  gid := gid
  size := size
  utimbuf := .zero
  path := path
  toPath := []

namespace AttributeState

/-- `mcachefs_chmod`. -/
def chmod (fuel : Nat) (path : Path) (mode : UInt32) (state : AttributeState) :
    Except HardLinks.Fault (Int × AttributeState) :=
  let mdata := state.links.names path
  if mdata = 0 then .ok (- ENOENT, state)
  else do
    let links ← state.links.chmod fuel mode mdata
    .ok (0, ⟨links, state.journal ++ [attributeRecord .chmod path mode 0 0 0]⟩)

/-- `mcachefs_chown`. -/
def chown (fuel : Nat) (path : Path) (uid gid : UInt32) (state : AttributeState) :
    Except HardLinks.Fault (Int × AttributeState) :=
  if isVopsFile path then .ok (- ENOSYS, state)
  else
    let mdata := state.links.names path
    match state.links.entries mdata with
    | none => .ok (- ENOENT, state)
    | some entry => do
        let links ← state.links.chown fuel uid gid mdata
        let uid := if uid = KEEP_ID then entry.st.st_uid else uid
        let gid := if gid = KEEP_ID then entry.st.st_gid else gid
        .ok (0, ⟨links, state.journal ++ [attributeRecord .chown path 0 uid gid 0]⟩)

/-- `mcachefs_truncate` of a file that is not open as a virtual one, without the
cache file. -/
def truncate (path : Path) (size : Int64) (state : AttributeState) :
    Except HardLinks.Fault (Int × AttributeState) :=
  let mdata := state.links.names path
  if mdata = 0 then .ok (- ENOENT, state)
  else do
    let links ← state.links.truncate size.toInt mdata
    if isVopsFile path then .ok (0, { state with links := links })
    else
      .ok (0, ⟨links, state.journal ++ [attributeRecord .truncate path 0 0 0 size.toUInt64]⟩)

/-- The attributes of the entry that a path names. -/
def attributes (state : AttributeState) (path : Path) : Option Stat :=
  (state.links.entries (state.links.names path)).map LinkEntry.st

end AttributeState

/-- A callback and its arguments. -/
inductive AttributeCallback
  | chmod (path : Path) (mode : UInt32)
  | chown (path : Path) (uid gid : UInt32)
  | truncate (path : Path) (size : Int64)
  deriving DecidableEq

namespace AttributeCallback

def path : AttributeCallback -> Path
  | .chmod path _ => path
  | .chown path _ _ => path
  | .truncate path _ => path

def run (fuel : Nat) (state : AttributeState) :
    AttributeCallback -> Except HardLinks.Fault (Int × AttributeState)
  | .chmod path mode => state.chmod fuel path mode
  | .chown path uid gid => state.chown fuel path uid gid
  | .truncate path size => state.truncate path size

/-- A sequence of callbacks. -/
def runAll (fuel : Nat) : List AttributeCallback -> AttributeState ->
    Except HardLinks.Fault AttributeState
  | [], state => .ok state
  | callback :: callbacks, state => do
      let (_, state) ← callback.run fuel state
      runAll fuel callbacks state

/-- The mode of the last chmod of a path, after one more callback. -/
def nextMode (path : Path) (last : Option UInt32) : AttributeCallback -> Option UInt32
  | .chmod other mode => if other = path then some mode else last
  | _ => last

/-- The mode of the last chmod of a path. -/
def lastMode (path : Path) (callbacks : List AttributeCallback) : Option UInt32 :=
  callbacks.foldl (nextMode path) none

end AttributeCallback

/-! ## The two ways -/

/-- The bits that chmod sets on the source. -/
def PERMISSIONS : UInt32 := 0o7777

/-- The bits above the permissions of owner, group and others. -/
def SPECIAL : UInt32 := 0o7000

/-- Files of the source have attributes, and the system calls set those they
name. -/
structure SetsAttributes (calls : ApplyCalls (Path -> Option Stat)) : Prop where
  chmod : forall path mode source, calls.chmod path mode source =
    Function.update source path ((source path).map fun st =>
      { st with st_mode := (st.st_mode &&& ~~~PERMISSIONS) ||| (mode &&& PERMISSIONS) })
  chown : forall path uid gid source, calls.chown path uid gid source =
    Function.update source path ((source path).map fun st =>
      { st with
        st_uid := if uid = KEEP_ID then st.st_uid else uid
        st_gid := if gid = KEEP_ID then st.st_gid else gid })
  truncate : forall path size source, calls.truncate path size source =
    Function.update source path ((source path).map fun st =>
      { st with st_size := size.toInt64.toInt })

/-- The attributes that the callbacks are about are the same. -/
structure SameAttributes (one two : Stat) : Prop where
  permissions : one.st_mode &&& PERMISSIONS = two.st_mode &&& PERMISSIONS
  uid : one.st_uid = two.st_uid
  gid : one.st_gid = two.st_gid
  size : one.st_size = two.st_size

/-- A path of a regular file with one name, that is not virtual. -/
structure PlainFile (state : AttributeState) (path : Path) : Prop where
  named : state.links.names path ≠ 0
  entry : Exists fun st => state.attributes path = some st ∧ st.isReg = true ∧ st.st_nlink ≤ 1
  real : isVopsFile path = false

/-- How the attributes of the entry and those of the source come from those at
the beginning. -/
structure Tracks (initial : Stat) (last : Option UInt32) (now source : Stat) : Prop where
  links : now.st_nlink = initial.st_nlink
  type : now.isReg = initial.isReg
  usual : now.st_mode &&& 0o777 = source.st_mode &&& 0o777
  special : now.st_mode &&& SPECIAL = initial.st_mode &&& SPECIAL
  given : source.st_mode &&& SPECIAL = last.getD initial.st_mode &&& SPECIAL
  uid : now.st_uid = source.st_uid
  gid : now.st_gid = source.st_gid
  size : now.st_size = source.st_size

variable {calls : ApplyCalls (Path -> Option Stat)} {initial now source : Stat}
  {last : Option UInt32}

private theorem and_or (bits one two : UInt32) :
    bits &&& (one ||| two) = (bits &&& one) ||| (bits &&& two) := by
  apply UInt32.toBitVec_inj.mp
  exact BitVec.and_or_distrib_left

/-- Permissions are the same exactly if both parts of them are. -/
theorem permissions_iff {one two : UInt32} : one &&& PERMISSIONS = two &&& PERMISSIONS ↔
    one &&& 0o777 = two &&& 0o777 ∧ one &&& SPECIAL = two &&& SPECIAL := by
  have split : PERMISSIONS = 0o777 ||| SPECIAL := by decide
  have usual : PERMISSIONS &&& 0o777 = 0o777 := by decide
  have special : PERMISSIONS &&& SPECIAL = SPECIAL := by decide
  constructor
  · intro same
    constructor
    · rw [← usual, ← UInt32.and_assoc, ← UInt32.and_assoc, same]
    · rw [← special, ← UInt32.and_assoc, ← UInt32.and_assoc, same]
  · rintro ⟨low, high⟩
    rw [split, and_or, and_or, low, high]

namespace Tracks

theorem start (same : SameAttributes initial source) : Tracks initial none initial source where
  links := rfl
  type := rfl
  usual := (permissions_iff.mp same.permissions).1
  special := rfl
  given := (permissions_iff.mp same.permissions).2.symm
  uid := same.uid
  gid := same.gid
  size := same.size

theorem chmod (tracks : Tracks initial last now source) (mode : UInt32) :
    Tracks initial (some mode) (chmodStat mode now)
      { source with
        st_mode := (source.st_mode &&& ~~~PERMISSIONS) ||| (mode &&& PERMISSIONS) } where
  links := tracks.links
  type := ((keepsLinks_chmod mode).type now).trans tracks.type
  usual := (splice_inside (by decide)).trans (splice_inside (by decide)).symm
  special := (splice_outside (by decide)).trans tracks.special
  given := splice_inside (by decide)
  uid := tracks.uid
  gid := tracks.gid
  size := tracks.size

/-- The ids in the journal are those that the entry has afterwards. -/
theorem chown (tracks : Tracks initial last now source) (uid gid : UInt32) :
    Tracks initial last (chownStat uid gid now)
      { source with
        st_uid := if (if uid = KEEP_ID then now.st_uid else uid) = KEEP_ID then source.st_uid
          else if uid = KEEP_ID then now.st_uid else uid
        st_gid := if (if gid = KEEP_ID then now.st_gid else gid) = KEEP_ID then source.st_gid
          else if gid = KEEP_ID then now.st_gid else gid } where
  links := tracks.links
  type := tracks.type
  usual := tracks.usual
  special := tracks.special
  given := tracks.given
  uid := by
    have same := tracks.uid
    simp only [chownStat]
    split <;> simp_all
  gid := by
    have same := tracks.gid
    simp only [chownStat]
    split <;> simp_all
  size := tracks.size

theorem truncate (tracks : Tracks initial last now source) (size : Int64) :
    Tracks initial last (truncateStat size.toInt now)
      { source with st_size := size.toUInt64.toInt64.toInt } where
  links := tracks.links
  type := tracks.type
  usual := tracks.usual
  special := tracks.special
  given := tracks.given
  uid := tracks.uid
  gid := tracks.gid
  size := rfl

/-- The two ways agree exactly if the last chmod gave the bits that the entry
had at the beginning. -/
theorem same_iff (tracks : Tracks initial last now source) : SameAttributes now source ↔
    forall mode, last = some mode -> mode &&& SPECIAL = initial.st_mode &&& SPECIAL := by
  have bits : SameAttributes now source ↔ now.st_mode &&& SPECIAL = source.st_mode &&& SPECIAL :=
    ⟨fun same => (permissions_iff.mp same.permissions).2, fun same =>
      ⟨permissions_iff.mpr ⟨tracks.usual, same⟩, tracks.uid, tracks.gid, tracks.size⟩⟩
  rw [bits, tracks.special, tracks.given]
  cases last with
  | none => simp
  | some mode => simpa using eq_comm

end Tracks

/-! ## Runs -/

/-- Each path has an entry of its own. -/
def OwnEntries (state : AttributeState) : Prop :=
  forall path other, state.links.names path = state.links.names other ->
    state.links.names path ≠ 0 -> path = other

/-- The state of a run, and the source as the journal makes it. -/
structure Follows (first : AttributeState) (last : Path -> Option UInt32)
    (state : AttributeState) (source : Path -> Option Stat) : Prop where
  names : state.links.names = first.links.names
  tracks : forall path initial, first.attributes path = some initial ->
    Exists fun now => Exists fun there => state.attributes path = some now ∧
      source path = some there ∧ Tracks initial (last path) now there

variable {first state next : AttributeState} {path : Path} {entry : LinkEntry} {fuel : Nat}
  {source : Path -> Option Stat} {modes : Path -> Option UInt32}

/-- A file without other names has nobody to notify. -/
theorem changeAndNotify_alone {links : LinkState} {mdata : Id} {change : Stat -> Stat}
    (found : links.entries mdata = some entry) (alone : (change entry.st).st_nlink ≤ 1) :
    links.changeAndNotify fuel change mdata =
      .ok (links.setEntry mdata { entry with st := change entry.st }) := by
  rw [LinkState.changeAndNotify, found]
  simp only [LinkState.notifyUpdate]
  rw [if_pos (.inr alone)]

theorem attributes_setEntry (own : OwnEntries state) (named : state.links.names path ≠ 0)
    (journal : List JournalRecord) (other : Path) :
    AttributeState.attributes ⟨state.links.setEntry (state.links.names path) entry, journal⟩ other =
      if other = path then some entry.st else state.attributes other := by
  unfold AttributeState.attributes LinkState.setEntry
  by_cases same : other = path
  · rw [if_pos same, same]
    simp only [Function.update_self, Option.map_some]
  · have apart : state.links.names other ≠ state.links.names path := fun equal =>
      same (own other path equal (equal ▸ named))
    rw [if_neg same]
    simp only [Function.update_of_ne apart]

/-- One entry changes, and the source file of the same path. -/
theorem Follows.change {changed : Path -> Option UInt32} {st there : Stat}
    (entry : LinkEntry) (journal : List JournalRecord) (follows : Follows first modes state source)
    (own : OwnEntries first) (named : first.links.names path ≠ 0)
    (others : forall other, other ≠ path -> changed other = modes other)
    (known : first.attributes path = some initial) (tracks : Tracks initial (changed path) st there) :
    Follows first changed
      ⟨state.links.setEntry (state.links.names path) { entry with st := st }, journal⟩
      (Function.update source path (some there)) where
  names := follows.names
  tracks other beginning knownOther := by
    have own : OwnEntries state := by
      unfold OwnEntries
      rw [follows.names]
      exact own
    rw [attributes_setEntry own (follows.names ▸ named)]
    by_cases same : other = path
    · subst same
      have equal : beginning = initial := Option.some.inj (knownOther.symm.trans known)
      exact ⟨st, there, if_pos rfl, Function.update_self .., equal ▸ tracks⟩
    · obtain ⟨now, source, found, foundSource, tracks⟩ := follows.tracks other beginning knownOther
      refine ⟨now, source, (if_neg same).trans found, ?_, others other same ▸ tracks⟩
      rw [Function.update_of_ne same]
      exact foundSource

/-- What a callback does, and what its record does to the source later. -/
theorem callback_ok (sets : SetsAttributes calls) (own : OwnEntries first)
    (follows : Follows first modes state source) (callback : AttributeCallback)
    (plain : PlainFile first callback.path) :
    Exists fun next => Exists fun record => Exists fun after =>
      callback.run fuel state = .ok (0, next) ∧ next.journal = state.journal ++ [record] ∧
      record.op ≠ JournalOp.fsync.code ∧ applyEntry calls record.item source = .ok after ∧
      Follows first (fun path => callback.nextMode path (modes path)) next after := by
  obtain ⟨initial, known, regular, alone⟩ := plain.entry
  obtain ⟨now, there, found, foundSource, tracks⟩ := follows.tracks callback.path initial known
  have named := plain.named
  rw [← follows.names] at named
  obtain ⟨entry, entryFound, rfl⟩ := Option.map_eq_some_iff.mp found
  have only : entry.st.st_nlink ≤ 1 := tracks.links ▸ alone
  generalize place : callback.path = name at *
  cases callback with
  | chmod path mode =>
      obtain rfl : path = name := place
      let record := attributeRecord .chmod path mode 0 0 0
      have last : AttributeCallback.nextMode path (modes path) (.chmod path mode) = some mode :=
        if_pos rfl
      refine ⟨_, record, _, ?_, rfl, (by decide : JournalOp.chmod.code ≠ JournalOp.fsync.code), ?_,
        follows.change entry (state.journal ++ [record]) own plain.named
          (fun other apart => if_neg apart.symm) known (last ▸ tracks.chmod mode)⟩
      · simp only [AttributeCallback.run, AttributeState.chmod, LinkState.chmod]
        rw [if_neg named, changeAndNotify_alone entryFound only]
        rfl
      · change Except.ok (calls.chmod path mode source) = _
        rw [sets.chmod, foundSource]
        rfl
  | chown path uid gid =>
      obtain rfl : path = name := place
      let record := attributeRecord .chown path 0
        (if uid = KEEP_ID then entry.st.st_uid else uid)
        (if gid = KEEP_ID then entry.st.st_gid else gid) 0
      refine ⟨_, record, _, ?_, rfl, (by decide : JournalOp.chown.code ≠ JournalOp.fsync.code), ?_,
        follows.change entry (state.journal ++ [record]) own plain.named (fun _ _ => rfl) known
          (tracks.chown uid gid)⟩
      · simp only [AttributeCallback.run, AttributeState.chown, LinkState.chown]
        rw [if_neg (Bool.eq_false_iff.mp plain.real), entryFound]
        simp only
        rw [changeAndNotify_alone entryFound only]
        rfl
      · change Except.ok (calls.chown path _ _ source) = _
        rw [sets.chown, foundSource]
        rfl
  | truncate path size =>
      obtain rfl : path = name := place
      let record := attributeRecord .truncate path 0 0 0 size.toUInt64
      refine ⟨_, record, _, ?_, rfl, (by decide : JournalOp.truncate.code ≠ JournalOp.fsync.code),
        ?_, follows.change entry (state.journal ++ [record]) own plain.named (fun _ _ => rfl) known
          (tracks.truncate size)⟩
      · simp only [AttributeCallback.run, AttributeState.truncate, LinkState.truncate,
          LinkState.changeOnly]
        rw [if_neg named, entryFound]
        simp only [Bind.bind, Except.bind]
        rw [if_neg (Bool.eq_false_iff.mp plain.real)]
      · change Except.ok (calls.truncate path _ source) = _
        rw [sets.truncate, foundSource]
        rfl

/-- The same for a sequence of callbacks. -/
theorem runAll_ok (sets : SetsAttributes calls) (own : OwnEntries first)
    (callbacks : List AttributeCallback)
    (plain : forall callback, callback ∈ callbacks -> PlainFile first callback.path)
    (follows : Follows first modes state source) :
    Exists fun final => Exists fun records => Exists fun after =>
      AttributeCallback.runAll fuel callbacks state = .ok final ∧
      final.journal = state.journal ++ records ∧
      updateLoop calls (records.map JournalRecord.item) source = .ok after ∧
      Follows first (fun path => callbacks.foldl (AttributeCallback.nextMode path) (modes path))
        final after := by
  induction callbacks generalizing state source modes with
  | nil => exact ⟨state, [], source, rfl, (List.append_nil _).symm, rfl, follows⟩
  | cons callback callbacks inductionHypothesis =>
      obtain ⟨next, record, middle, result, journal, update, applied, goesOn⟩ :=
        callback_ok sets own follows callback (plain callback List.mem_cons_self)
      obtain ⟨final, records, after, results, whole, updates, final_follows⟩ :=
        inductionHypothesis (fun other member => plain other (List.mem_cons_of_mem _ member)) goesOn
      refine ⟨final, record :: records, after, ?_, ?_, ?_, final_follows⟩
      · rw [AttributeCallback.runAll, result]
        exact results
      · rw [whole, journal, List.append_assoc]
        rfl
      · have notFsync : record.item.entry.op ≠ JournalOp.fsync.code := update
        rw [List.map_cons, updateLoop, if_neg notFsync, applied]
        exact updates

/-- After the journal is applied the source has the attributes that the entries
have, exactly if the last chmod of each file gave the bits above the permissions
that the file had at the beginning. -/
theorem replay_same_iff (sets : SetsAttributes calls) (own : OwnEntries state)
    (empty : state.journal = [])
    (same : forall path initial, state.attributes path = some initial ->
      Exists fun there => source path = some there ∧ SameAttributes initial there)
    (callbacks : List AttributeCallback)
    (plain : forall callback, callback ∈ callbacks -> PlainFile state callback.path) :
    Exists fun final => Exists fun after =>
      AttributeCallback.runAll fuel callbacks state = .ok final ∧
      updateLoop calls (final.journal.map JournalRecord.item) source = .ok after ∧
      ((forall path initial, state.attributes path = some initial ->
          Exists fun now => Exists fun there => final.attributes path = some now ∧
            after path = some there ∧ SameAttributes now there) ↔
        forall path initial mode, state.attributes path = some initial ->
          AttributeCallback.lastMode path callbacks = some mode ->
          mode &&& SPECIAL = initial.st_mode &&& SPECIAL) := by
  have begins : Follows state (fun _ => none) state source := by
    refine ⟨rfl, fun path initial known => ?_⟩
    obtain ⟨there, foundSource, equal⟩ := same path initial known
    exact ⟨initial, there, known, foundSource, .start equal⟩
  obtain ⟨final, records, after, result, journal, updates, follows⟩ :=
    runAll_ok sets own callbacks plain begins
  rw [empty, List.nil_append] at journal
  refine ⟨final, after, result, journal ▸ updates, fun agrees path initial mode known last => ?_,
    fun given path initial known => ?_⟩
  · obtain ⟨now, there, found, foundSource, equal⟩ := agrees path initial known
    obtain ⟨now', there', found', foundSource', tracks⟩ := follows.tracks path initial known
    rw [found'] at found
    rw [foundSource'] at foundSource
    cases found
    cases foundSource
    exact tracks.same_iff.mp equal mode last
  · obtain ⟨now, there, found, foundSource, tracks⟩ := follows.tracks path initial known
    exact ⟨now, there, found, foundSource,
      tracks.same_iff.mpr fun mode last => given path initial mode known last⟩

/-- The attribute calls of a source that has all its files. -/
def posixCalls : ApplyCalls (Path -> Option Stat) :=
  { ApplyCalls.onlyWriteback fun _ source => (0, source) with
    chmod := fun path mode source => Function.update source path ((source path).map fun st =>
      { st with st_mode := (st.st_mode &&& ~~~PERMISSIONS) ||| (mode &&& PERMISSIONS) })
    chown := fun path uid gid source => Function.update source path ((source path).map fun st =>
      { st with
        st_uid := if uid = KEEP_ID then st.st_uid else uid
        st_gid := if gid = KEEP_ID then st.st_gid else gid })
    truncate := fun path size source => Function.update source path ((source path).map fun st =>
      { st with st_size := size.toInt64.toInt }) }

theorem posixCalls_sets : SetsAttributes posixCalls :=
  ⟨fun _ _ _ => rfl, fun _ _ _ _ => rfl, fun _ _ _ => rfl⟩

/-- A regular file `/f` with the permissions `0644`. -/
def oneFile : AttributeState where
  links :=
    { LinkState.init with
      names := fun path => if path = ascii "/f" then 1 else 0
      entries := fun id => if id = 1 then
        some ⟨{ Stat.zero with st_mode := S_IFREG ||| 0o644, st_nlink := 1 }, 0, 0⟩ else none }
  journal := []

theorem oneFile_own : OwnEntries oneFile := by
  intro path other same named
  by_cases one : path = ascii "/f" <;> by_cases two : other = ascii "/f" <;>
    simp_all [oneFile]

theorem oneFile_plain : PlainFile oneFile (ascii "/f") :=
  ⟨by decide, ⟨_, rfl, by decide, le_rfl⟩, by decide⟩

theorem replay_same_oneFile : Exists fun final => Exists fun after =>
    AttributeCallback.runAll 1 [.chmod (ascii "/f") 0o600, .truncate (ascii "/f") 7] oneFile =
      .ok final ∧
    updateLoop posixCalls (final.journal.map JournalRecord.item) oneFile.attributes = .ok after ∧
    ((forall path initial, oneFile.attributes path = some initial ->
        Exists fun now => Exists fun there => final.attributes path = some now ∧
          after path = some there ∧ SameAttributes now there) ↔
      forall path initial mode, oneFile.attributes path = some initial ->
        AttributeCallback.lastMode path
          [.chmod (ascii "/f") 0o600, .truncate (ascii "/f") 7] = some mode ->
        mode &&& SPECIAL = initial.st_mode &&& SPECIAL) :=
  replay_same_iff posixCalls_sets oneFile_own rfl
    (fun _ initial known => ⟨initial, known, rfl, rfl, rfl, rfl⟩) _ (by
      rintro callback member
      rcases List.mem_pair.mp member with rfl | rfl <;> exact oneFile_plain)

/-- The set-user-id bit reaches the source and not the entry. -/
theorem chmod_special_of_oneFile : OwnEntries oneFile ∧ PlainFile oneFile (ascii "/f") ∧
    Exists fun final => Exists fun after => Exists fun now => Exists fun there =>
      AttributeCallback.runAll 1 [.chmod (ascii "/f") 0o4755] oneFile = .ok final ∧
      updateLoop posixCalls (final.journal.map JournalRecord.item) oneFile.attributes = .ok after ∧
      final.attributes (ascii "/f") = some now ∧ after (ascii "/f") = some there ∧
      ¬ SameAttributes now there := by
  refine ⟨oneFile_own, oneFile_plain, _, _, _, _, rfl, rfl, rfl, rfl, fun same => ?_⟩
  exact absurd same.permissions (by decide)

end Journal
end Mcachefs
