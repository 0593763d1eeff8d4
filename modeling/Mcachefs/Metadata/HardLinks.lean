import Mcachefs.CString
import Mcachefs.Library.Runs
import Mcachefs.Stat
import Mathlib.Logic.Function.Basic

namespace Mcachefs
namespace HardLinks

open Library

/-!
# Hard links

The entries of the names of one file form a ring through their ids `hardlink`.
A link callback has four sections under the metadata lock: it reads the entry
of its first path, makes an entry for the second one, joins that entry to the
ring, and closes the ring.  Every section is a step of its own here, so that
link callbacks may overlap in any way.

The map `names` stands for `mcachefs_metadata_find`: the entry of every path
that has one, and `0` for the others.  Which entries name one file is not
written down anywhere in the program; `file` numbers the files for this.
-/

abbrev Id := Nat

/-- The fields of an entry that concern its links. -/
structure LinkEntry where
  st : Stat
  hardlink : Id
  file : Nat
  deriving DecidableEq, Repr

/-- How far a link callback is. -/
inductive Stage
  /-- It has read the entry of its first path. -/
  | copied
  /-- It has made an entry for its second path. -/
  | made
  /-- That entry, `toid`, has its count and its `hardlink`. -/
  | joined (toid : Id)
  deriving DecidableEq, Repr

/-- A link callback and its local variables. -/
structure Call where
  fromPath : Path
  toPath : Path
  fromst : Stat
  fromid : Id
  next_hardlink : Id
  file : Nat
  stage : Stage
  deriving DecidableEq, Repr

/-- The paths whose entries a link callback goes on with. -/
def Call.used (call : Call) : List Path :=
  match call.stage with
  | .copied => [call.fromPath]
  | _ => [call.fromPath, call.toPath]

/-- The ends of the process by `Bug`, and the use of a null pointer. -/
inductive Fault
  /-- `mcachefs_metadata_unlink_list` finds no `hardlink` to begin with. -/
  | noHardlink
  | tooManyIterations
  | spurious
  /-- `mcachefs_metadata_notify_update` finds no `hardlink`. -/
  | inconsistentHardlink
  | missingTo
  | missingFrom
  | nullPointer
  | fuel
  deriving DecidableEq, Repr

structure LinkState where
  names : Path -> Id
  /-- The entries in use; a free entry is zero. -/
  entries : Id -> Option LinkEntry
  calls : List Call
  /-- The number of files so far. -/
  files : Nat

inductive Event
  /-- A directory of the source is read that holds this file. -/
  | populate (path : Path) (st : Stat) (fresh : Id)
  /-- A link callback begins. -/
  | link (fromPath toPath : Path)
  /-- It links the cache files, with that result, and makes an entry. -/
  | make (index : Nat) (linked : Bool) (fresh : Id)
  | join (index : Nat)
  | close (index : Nat)
  | unlink (path : Path)
  /-- A change of the attributes and `mcachefs_metadata_notify_update`. -/
  | update (path : Path) (st : Stat) (fuel : Nat)
  deriving DecidableEq, Repr

namespace LinkState

def init : LinkState := ⟨fun _ => 0, fun _ => none, [], 0⟩

def setEntry (state : LinkState) (id : Id) (entry : LinkEntry) : LinkState :=
  { state with entries := Function.update state.entries id (some entry) }

/-- The entry `fresh`, if it is free, for the path. -/
def addEntry (state : LinkState) (path : Path) (st : Stat) (fresh : Id) : LinkState :=
  if fresh = 0 ∨ (state.entries fresh).isSome then state
  else
    { state with
      names := Function.update state.names path fresh
      entries := Function.update state.entries fresh (some ⟨st, 0, state.files⟩)
      files := state.files + 1 }

/-- The loop of `mcachefs_metadata_unlink_list` for the entry `mdata`; `left`
is what remains of the iterations. -/
def unlinkLoop (mdata hardlink : Id) : (left : Nat) -> (next : Id) -> LinkState ->
    Except Fault LinkState
  | 0, _, _ => .error .tooManyIterations
  | left + 1, next, state =>
      if next = 0 then .error .nullPointer
      else
        match state.entries next with
        | none => .error .spurious
        | some entry =>
            let entry := { entry with st := lowerLinks entry.st }
            if entry.hardlink = 0 then .error .spurious
            else if entry.hardlink = mdata then
              let target := if hardlink = next then 0 else hardlink
              .ok (state.setEntry next { entry with hardlink := target })
            else unlinkLoop mdata hardlink left entry.hardlink (state.setEntry next entry)

/-- `mcachefs_metadata_unlink_list`. -/
def unlinkList (mdata : Id) (entry : LinkEntry) (state : LinkState) : Except Fault LinkState :=
  if entry.hardlink = 0 then .error .noHardlink
  else unlinkLoop mdata entry.hardlink (MAX_LINK_COUNT - 1) entry.hardlink state

/-- `mcachefs_metadata_rmdir_unlink` for an unlink. -/
def unlink (path : Path) (state : LinkState) : Except Fault LinkState :=
  let id := state.names path
  match state.entries id with
  | none => .ok state
  | some entry =>
      if ¬ entry.st.isReg ∧ ¬ entry.st.isLnk then .ok state
      else do
        let state ← if 1 < entry.st.st_nlink then unlinkList id entry state else .ok state
        .ok { state with
          names := Function.update state.names path 0
          entries := Function.update state.entries id none }

/-- The loop of `mcachefs_metadata_notify_update` for the entry `mdata`. -/
def notifyLoop (mdata : Id) (st : Stat) : (fuel : Nat) -> (next : Id) -> LinkState ->
    Except Fault LinkState
  | 0, _, _ => .error .fuel
  | fuel + 1, next, state =>
      if next = 0 then .error .nullPointer
      else
        -- From a free entry, which has no `hardlink`, the loop goes to the null pointer.
        match state.entries next with
        | none => .error .nullPointer
        | some entry =>
            let state := state.setEntry next { entry with st := st }
            if entry.hardlink = mdata then .ok state
            else notifyLoop mdata st fuel entry.hardlink state

/-- `mcachefs_metadata_notify_update`. -/
def notifyUpdate (fuel : Nat) (mdata : Id) (entry : LinkEntry) (state : LinkState) :
    Except Fault LinkState :=
  if ¬ entry.st.isReg ∨ entry.st.st_nlink ≤ 1 then .ok state
  else if entry.hardlink = 0 then .error .inconsistentHardlink
  else notifyLoop mdata entry.st fuel entry.hardlink state

/-- A callback that changes the attributes of an entry, but not its type or its
count: `mcachefs_chmod`, `mcachefs_chown` and `mcachefs_file_update_metadata`. -/
def update (path : Path) (st : Stat) (fuel : Nat) (state : LinkState) : Except Fault LinkState :=
  let id := state.names path
  match state.entries id with
  | none => .ok state
  | some entry =>
      let entry := { entry with
        st := { st with
          st_mode := chmodMode entry.st.st_mode st.st_mode
          st_nlink := entry.st.st_nlink } }
      notifyUpdate fuel id entry (state.setEntry id entry)

/-- The first section of `mcachefs_link`. -/
def link (fromPath toPath : Path) (state : LinkState) : LinkState :=
  let fromid := state.names fromPath
  match state.entries fromid with
  | none => state
  | some entry =>
      { state with
        calls := state.calls ++
          [⟨fromPath, toPath, entry.st, fromid, entry.hardlink, entry.file, .copied⟩] }

/-- `link` on the cache files, and `mcachefs_metadata_make_entry`.  The system
call refuses directories.  The entry gets its attributes in the next section. -/
def make (index : Nat) (call : Call) (linked : Bool) (fresh : Id) (state : LinkState) :
    LinkState :=
  let ended := { state with calls := state.calls.eraseIdx index }
  if ¬ linked ∨ call.fromst.isDir then ended
  else if state.names call.toPath ≠ 0 then ended
  else if fresh = 0 ∨ (state.entries fresh).isSome then state
  else
    let st := { Stat.zero with st_mode := call.fromst.st_mode, st_nlink := 1 }
    { state.addEntry call.toPath st fresh with
      calls := state.calls.set index { call with stage := .made } }

/-- The third section of `mcachefs_link`. -/
def join (index : Nat) (call : Call) (state : LinkState) : Except Fault LinkState :=
  let toid := state.names call.toPath
  if toid = 0 then .error .missingTo
  else
    let hardlink := if call.next_hardlink ≠ 0 then call.next_hardlink else call.fromid
    .ok { state.setEntry toid ⟨raiseLinks call.fromst, hardlink, call.file⟩ with
      calls := state.calls.set index { call with stage := .joined toid } }

/-- The last section of `mcachefs_link`. -/
def close (index : Nat) (call : Call) (toid : Id) (state : LinkState) : Except Fault LinkState :=
  let fromid := state.names call.fromPath
  match state.entries fromid with
  | none => .error .missingFrom
  | some entry =>
      .ok { state.setEntry fromid { entry with st := raiseLinks entry.st, hardlink := toid } with
        calls := state.calls.eraseIdx index }

def step (state : LinkState) : Event -> Except Fault LinkState
  | .populate path st fresh =>
      if state.names path ≠ 0 then .ok state else .ok (state.addEntry path st fresh)
  | .link fromPath toPath => .ok (state.link fromPath toPath)
  | .make index linked fresh =>
      match state.calls[index]? with
      | some call =>
          if call.stage = .copied then .ok (state.make index call linked fresh) else .ok state
      | none => .ok state
  | .join index =>
      match state.calls[index]? with
      | some call => if call.stage = .made then state.join index call else .ok state
      | none => .ok state
  | .close index =>
      match state.calls[index]? with
      | some call =>
          match call.stage with
          | .joined toid => state.close index call toid
          | _ => .ok state
      | none => .ok state
  | .unlink path => state.unlink path
  | .update path st fuel => state.update path st fuel

/-! ## Rings -/

/-- The ids are the entries of the names of a file, and form one ring. -/
structure IsRing (state : LinkState) (file : Nat) (ids : List Id) : Prop where
  nodup : ids.Nodup
  nonzero : (0 : Id) ∉ ids
  entries : forall id, id ∈ ids ↔
    Exists fun entry => state.entries id = some entry ∧ entry.file = file
  /-- One entry alone has no `hardlink`; otherwise each has that of the next. -/
  links : forall (index : Nat) (inside : index < ids.length) (entry : LinkEntry),
    state.entries ids[index] = some entry ->
    if ids.length = 1 then entry.hardlink = 0
    else some entry.hardlink = ids[(index + 1) % ids.length]?
  sameCount : forall one two first second, one ∈ ids -> two ∈ ids ->
    state.entries one = some first -> state.entries two = some second ->
    first.st.st_nlink = second.st.st_nlink
  /-- Directories have their subdirectories in `st_nlink`. -/
  counted : forall id entry, id ∈ ids -> state.entries id = some entry ->
    ¬ entry.st.isDir -> 1 < entry.st.st_nlink -> entry.hardlink ≠ 0

/-- The entries of every file form a ring, except where a link callback has
joined an entry to it and is about to close it. -/
def WellFormed (state : LinkState) : Prop :=
  forall file, (forall call toid, call ∈ state.calls -> call.stage = .joined toid ->
    call.file ≠ file) -> Exists (state.IsRing file)

/-- Files of the source have one name, a link is made to a file that has no
other link, and nothing is done to the entries of a link callback before it is
finished. -/
def Undisturbed (state : LinkState) : Event -> Prop
  | .populate _ st _ => st.isDir ∨ st.st_nlink = 1
  | .link fromPath _ =>
      (forall entry, state.entries (state.names fromPath) = some entry -> entry.hardlink = 0) ∧
        forall call, call ∈ state.calls -> fromPath ∉ call.used
  | .unlink path => forall call, call ∈ state.calls -> path ∉ call.used
  | .update path _ fuel => 0 < fuel ∧ forall call, call ∈ state.calls -> path ∉ call.used
  | _ => True

end LinkState

/-! ## The invariant

`members` lists the entries of each file.
-/

open LinkState

/-- The entries of a file with no callback between its last two sections: one,
or two that link each other. -/
inductive Settled (entries : Id -> Option LinkEntry) (file : Nat) : List Id -> Prop
  | none : Settled entries file []
  | lone {id : Id} {entry : LinkEntry} (held : entries id = some entry)
      (number : entry.file = file) (hardlink : entry.hardlink = 0)
      (count : entry.st.isDir ∨ entry.st.st_nlink = 1) : Settled entries file [id]
  | pair {one two : Id} {first second : LinkEntry} (apart : one ≠ two)
      (heldOne : entries one = some first) (heldTwo : entries two = some second)
      (numberOne : first.file = file) (numberTwo : second.file = file)
      (linkOne : first.hardlink = two) (linkTwo : second.hardlink = one)
      (countOne : first.st.st_nlink = 2) (countTwo : second.st.st_nlink = 2) :
      Settled entries file [one, two]

/-- What a link callback knows still holds. -/
inductive CallSound (state : LinkState) (members : Nat -> List Id) (call : Call) : Prop
  | copied {entry : LinkEntry} (stage : call.stage = .copied)
      (name : state.names call.fromPath = call.fromid)
      (held : state.entries call.fromid = some entry) (number : entry.file = call.file)
      (same : entry.st = call.fromst) (alone : members call.file = [call.fromid])
      (lone : call.next_hardlink = 0)
  | made {entry target : LinkEntry} (stage : call.stage = .made)
      (name : state.names call.fromPath = call.fromid)
      (held : state.entries call.fromid = some entry) (number : entry.file = call.file)
      (same : entry.st = call.fromst) (alone : members call.file = [call.fromid])
      (lone : call.next_hardlink = 0) (regular : ¬ call.fromst.isDir)
      (targetHeld : state.entries (state.names call.toPath) = some target)
      (targetAlone : members target.file = [state.names call.toPath])
  | joined {entry target : LinkEntry} {toid : Id} (stage : call.stage = .joined toid)
      (name : state.names call.fromPath = call.fromid) (targetName : state.names call.toPath = toid)
      (held : state.entries call.fromid = some entry) (number : entry.file = call.file)
      (link : entry.hardlink = 0) (count : entry.st.st_nlink = 1)
      (targetHeld : state.entries toid = some target) (targetNumber : target.file = call.file)
      (targetLink : target.hardlink = call.fromid) (targetCount : target.st.st_nlink = 2)
      (both : members call.file = [call.fromid, toid])

structure Sound (state : LinkState) (members : Nat -> List Id) : Prop where
  zero : state.entries 0 = none
  named : forall one two, state.names one ≠ 0 -> state.names one = state.names two -> one = two
  known : forall path, state.names path ≠ 0 ->
    Exists fun entry => state.entries (state.names path) = some entry
  complete : forall id entry, state.entries id = some entry -> id ∈ members entry.file
  settled : forall file, (forall call toid, call ∈ state.calls -> call.stage = .joined toid ->
    call.file ≠ file) -> Settled state.entries file (members file)
  calls : forall call, call ∈ state.calls -> CallSound state members call
  apart : (state.calls.flatMap Call.used).Nodup
  fresh : forall file, state.files ≤ file -> members file = []

/-- Some list of the entries of each file shows that the state is sound. -/
def Consistent (state : LinkState) : Prop :=
  Exists (Sound state)

section Steps

variable {state next : LinkState} {members other : Nat -> List Id} {call : Call}

/-- No callback is between its last two sections at this file. -/
def Free (state : LinkState) (file : Nat) : Prop :=
  forall call toid, call ∈ state.calls -> call.stage = .joined toid -> call.file ≠ file

theorem Settled.congr {entries others : Id -> Option LinkEntry} {file : Nat} {ids : List Id}
    (settled : Settled entries file ids) (same : forall id, id ∈ ids -> others id = entries id) :
    Settled others file ids := by
  cases settled with
  | none => exact .none
  | lone held number hardlink count =>
      exact .lone ((same _ List.mem_cons_self).trans held) number hardlink count
  | pair apart heldOne heldTwo numberOne numberTwo linkOne linkTwo countOne countTwo =>
      exact .pair apart ((same _ List.mem_cons_self).trans heldOne)
        ((same _ (.tail _ (.head _))).trans heldTwo) numberOne numberTwo linkOne linkTwo
        countOne countTwo

theorem Settled.held {entries : Id -> Option LinkEntry} {file : Nat} {ids : List Id}
    (settled : Settled entries file ids) {id : Id} (member : id ∈ ids) :
    Exists fun entry => entries id = some entry ∧ entry.file = file := by
  cases settled with
  | none => cases member
  | lone held number =>
      obtain rfl := List.mem_singleton.mp member
      exact ⟨_, held, number⟩
  | pair _ heldOne heldTwo numberOne numberTwo =>
      rcases List.mem_cons.mp member with rfl | member
      · exact ⟨_, heldOne, numberOne⟩
      · obtain rfl := List.mem_singleton.mp member
        exact ⟨_, heldTwo, numberTwo⟩

/-- An entry is alone, or it links another one that links it. -/
theorem Settled.partner {entries : Id -> Option LinkEntry} {file : Nat} {ids : List Id}
    (settled : Settled entries file ids) {id : Id} {entry : LinkEntry} (member : id ∈ ids)
    (held : entries id = some entry) :
    (ids = [id] ∧ entry.hardlink = 0 ∧ (entry.st.isDir ∨ entry.st.st_nlink = 1)) ∨
      Exists fun other => Exists fun second => other ≠ id ∧ entries other = some second ∧
        second.file = file ∧ entry.hardlink = other ∧ second.hardlink = id ∧
        entry.st.st_nlink = 2 ∧ second.st.st_nlink = 2 ∧ (ids = [id, other] ∨ ids = [other, id]) := by
  cases settled with
  | none => cases member
  | lone same _ hardlink count =>
      obtain rfl := List.mem_singleton.mp member
      obtain rfl := Option.some.inj (held.symm.trans same)
      exact Or.inl ⟨rfl, hardlink, count⟩
  | pair apart heldOne heldTwo numberOne numberTwo linkOne linkTwo countOne countTwo =>
      refine Or.inr ?_
      rcases List.mem_cons.mp member with rfl | member
      · obtain rfl := Option.some.inj (held.symm.trans heldOne)
        exact ⟨_, _, apart.symm, heldTwo, numberTwo, linkOne, linkTwo, countOne, countTwo,
          Or.inl rfl⟩
      · obtain rfl := List.mem_singleton.mp member
        obtain rfl := Option.some.inj (held.symm.trans heldTwo)
        exact ⟨_, _, apart, heldOne, numberOne, linkTwo, linkOne, countTwo, countOne, Or.inr rfl⟩

theorem Settled.alone {entries : Id -> Option LinkEntry} {file : Nat} {id : Id}
    {entry : LinkEntry} (settled : Settled entries file [id]) (held : entries id = some entry) :
    entry.hardlink = 0 ∧ (entry.st.isDir ∨ entry.st.st_nlink = 1) := by
  cases settled with
  | lone same _ hardlink count =>
      obtain rfl := Option.some.inj (held.symm.trans same)
      exact ⟨hardlink, count⟩

/-- Two entries that link each other, in either order. -/
theorem Settled.ofPair {entries : Id -> Option LinkEntry} {file : Nat} {ids : List Id}
    {one two : Id} {first second : LinkEntry} (apart : one ≠ two)
    (heldOne : entries one = some first) (heldTwo : entries two = some second)
    (numberOne : first.file = file) (numberTwo : second.file = file)
    (linkOne : first.hardlink = two) (linkTwo : second.hardlink = one)
    (countOne : first.st.st_nlink = 2) (countTwo : second.st.st_nlink = 2)
    (order : ids = [one, two] ∨ ids = [two, one]) : Settled entries file ids := by
  rcases order with rfl | rfl
  · exact .pair apart heldOne heldTwo numberOne numberTwo linkOne linkTwo countOne countTwo
  · exact .pair apart.symm heldTwo heldOne numberTwo numberOne linkTwo linkOne countTwo countOne

/-- What the used paths of a callback lead to is all that it knows. -/
theorem CallSound.congr (sound : CallSound state members call)
    (names : forall path, path ∈ call.used -> next.names path = state.names path)
    (entries : forall path, path ∈ call.used ->
      next.entries (state.names path) = state.entries (state.names path))
    (groups : forall path entry, path ∈ call.used ->
      state.entries (state.names path) = some entry -> other entry.file = members entry.file) :
    CallSound next other call := by
  cases sound with
  | copied stage name held number same alone lone =>
      have used : call.fromPath ∈ call.used := by simp [Call.used, stage]
      have group := groups _ _ used (name ▸ held)
      refine .copied stage ((names _ used).trans name) ?_ number same ?_ lone
      · rw [← name, entries _ used, name, held]
      · rw [← number, group, number, alone]
  | made stage name held number same alone lone regular targetHeld targetAlone =>
      have used : call.fromPath ∈ call.used := by simp [Call.used, stage]
      have target : call.toPath ∈ call.used := by simp [Call.used, stage]
      have group := groups _ _ used (name ▸ held)
      have kept : next.entries (next.names call.toPath) = state.entries (state.names call.toPath) :=
        by rw [names _ target, entries _ target]
      refine .made stage ((names _ used).trans name) ?_ number same ?_ lone regular
        (kept.trans targetHeld) ?_
      · rw [← name, entries _ used, name, held]
      · rw [← number, group, number, alone]
      · rw [groups _ _ target targetHeld, names _ target, targetAlone]
  | joined stage name targetName held number link count targetHeld targetNumber targetLink
      targetCount both =>
      have used : call.fromPath ∈ call.used := by simp [Call.used, stage]
      have target : call.toPath ∈ call.used := by simp [Call.used, stage]
      have group := groups _ _ used (name ▸ held)
      refine .joined stage ((names _ used).trans name) ((names _ target).trans targetName) ?_
        number link count ?_ targetNumber targetLink targetCount ?_
      · rw [← name, entries _ used, name, held]
      · rw [← targetName, entries _ target, targetName, targetHeld]
      · rw [← number, group, number, both]

/-- The entry of a used path is alone, or the callback has joined it. -/
theorem CallSound.used (sound : CallSound state members call) {path : Path}
    (used : path ∈ call.used) :
    Exists fun entry => state.entries (state.names path) = some entry ∧
      (members entry.file = [state.names path] ∨
        Exists fun toid => call.stage = .joined toid ∧ call.file = entry.file) := by
  cases sound with
  | copied stage name held number same alone lone =>
      simp only [Call.used, stage, List.mem_singleton] at used
      subst used
      exact ⟨_, name ▸ held, Or.inl (by rw [number, alone, name])⟩
  | made stage name held number same alone lone regular targetHeld targetAlone =>
      simp only [Call.used, stage, List.mem_cons, List.not_mem_nil, or_false] at used
      rcases used with rfl | rfl
      · exact ⟨_, name ▸ held, Or.inl (by rw [number, alone, name])⟩
      · exact ⟨_, targetHeld, Or.inl targetAlone⟩
  | joined stage name targetName held number link count targetHeld targetNumber targetLink
      targetCount both =>
      simp only [Call.used, stage, List.mem_cons, List.not_mem_nil, or_false] at used
      rcases used with rfl | rfl
      · exact ⟨_, name ▸ held, Or.inr ⟨_, stage, number.symm⟩⟩
      · exact ⟨_, targetName ▸ targetHeld, Or.inr ⟨_, stage, targetNumber.symm⟩⟩

namespace Sound

theorem name_ne_zero (sound : Sound state members) {path : Path} {entry : LinkEntry}
    (held : state.entries (state.names path) = some entry) : state.names path ≠ 0 := by
  intro zero
  rw [zero, sound.zero] at held
  cases held

/-- No callback is about to close the ring of an entry whose name none uses. -/
theorem free (sound : Sound state members) {path : Path} {entry : LinkEntry}
    (held : state.entries (state.names path) = some entry)
    (unused : forall call, call ∈ state.calls -> path ∉ call.used) : Free state entry.file := by
  intro call toid inside stage same
  have member := sound.complete _ _ held
  have known := sound.name_ne_zero held
  cases sound.calls call inside with
  | copied copied => simp [stage] at copied
  | made made => simp [stage] at made
  | joined _ name targetName _ _ _ _ _ _ _ _ both =>
      rw [← same, both] at member
      refine unused call inside ?_
      simp only [Call.used, stage, List.mem_cons, List.not_mem_nil, or_false] at member ⊢
      rcases member with equal | equal
      · exact Or.inl (sound.named _ _ known (equal.trans name.symm))
      · exact Or.inr (sound.named _ _ known (equal.trans targetName.symm))

/-- The names that the callbacks use lead elsewhere than to a pair or to the
entry of an unused name. -/
theorem apart_of_used (sound : Sound state members) {call : Call} (inside : call ∈ state.calls)
    {path : Path} (used : path ∈ call.used) {file : Nat} (free : Free state file)
    (several : forall path, path ∈ call.used -> members file ≠ [state.names path]) :
    state.names path ∉ members file := by
  intro member
  obtain ⟨entry, held, alone⟩ := (sound.calls call inside).used used
  obtain ⟨same, equal, number⟩ := (sound.settled file free).held member
  rw [held] at equal
  obtain rfl := Option.some.inj equal
  rcases alone with alone | ⟨toid, stage, number'⟩
  · exact several path used (number ▸ alone)
  · exact free call toid inside stage (number'.trans number)

/-! ### A new entry -/

/-- The state with one more entry, for a path that had none. -/
def added (state : LinkState) (path : Path) (st : Stat) (fresh : Id) (calls : List Call) :
    LinkState where
  names := Function.update state.names path fresh
  entries := Function.update state.entries fresh (some ⟨st, 0, state.files⟩)
  calls := calls
  files := state.files + 1

section Add

variable {path : Path} {st : Stat} {fresh : Id}

theorem file_ne_files (sound : Sound state members) {id : Id} {entry : LinkEntry}
    (held : state.entries id = some entry) : entry.file ≠ state.files := by
  intro same
  have member := sound.complete id entry held
  rw [same, sound.fresh _ (Nat.le_refl _)] at member
  cases member

/-- The callbacks do not notice a new entry. -/
theorem added_call (sound : Sound state members) (unknown : state.names path = 0)
    (unheld : state.entries fresh = none) (calls : List Call) {call : Call}
    (inside : call ∈ state.calls) :
    CallSound (added state path st fresh calls)
      (Function.update members state.files [fresh]) call := by
  have holds := sound.calls call inside
  refine holds.congr (fun other used => ?_) (fun other used => ?_) (fun other entry _ held => ?_)
  · obtain ⟨entry, held, -⟩ := holds.used used
    refine Function.update_of_ne (fun same => ?_) _ _
    subst same
    exact sound.name_ne_zero held unknown
  · obtain ⟨entry, held, -⟩ := holds.used used
    refine Function.update_of_ne (fun same => ?_) _ _
    rw [same, unheld] at held
    cases held
  · exact Function.update_of_ne (sound.file_ne_files held) _ _

theorem add (sound : Sound state members) (unknown : state.names path = 0)
    (present : fresh ≠ 0) (unheld : state.entries fresh = none)
    (count : st.isDir ∨ st.st_nlink = 1) {calls : List Call}
    (holds : forall call, call ∈ calls -> CallSound (added state path st fresh calls)
      (Function.update members state.files [fresh]) call)
    (apart : (calls.flatMap Call.used).Nodup)
    (kept : forall call toid, call ∈ state.calls -> call.stage = .joined toid -> call ∈ calls) :
    Sound (added state path st fresh calls) (Function.update members state.files [fresh]) := by
  have others : forall other, other ≠ path ->
      (added state path st fresh calls).names other = state.names other :=
    fun other different => Function.update_of_ne different _ _
  have here : (added state path st fresh calls).names path = fresh := Function.update_self _ _ _
  have old : forall id, id ≠ fresh ->
      (added state path st fresh calls).entries id = state.entries id :=
    fun id different => Function.update_of_ne different _ _
  have new : (added state path st fresh calls).entries fresh = some ⟨st, 0, state.files⟩ :=
    Function.update_self _ _ _
  have name_ne : forall other, state.names other ≠ 0 -> state.names other ≠ fresh := by
    intro other known same
    obtain ⟨entry, held⟩ := sound.known other known
    rw [same, unheld] at held
    cases held
  refine ⟨?_, ?_, ?_, ?_, ?_, holds, apart, ?_⟩
  · rw [old 0 present.symm]
    exact sound.zero
  · intro one two known same
    by_cases first : one = path
    · by_cases second : two = path
      · rw [first, second]
      · rw [first, here, others two second] at same
        exact absurd same.symm (name_ne two (same ▸ present))
    · rw [others one first] at known same
      by_cases second : two = path
      · rw [second, here] at same
        exact absurd same (name_ne one known)
      · rw [others two second] at same
        exact sound.named one two known same
  · intro other known
    by_cases first : other = path
    · subst first
      exact ⟨⟨st, 0, state.files⟩, by rw [here, new]⟩
    · rw [others other first] at known ⊢
      obtain ⟨entry, held⟩ := sound.known other known
      exact ⟨entry, (old _ (name_ne other known)).trans held⟩
  · intro id entry held
    by_cases same : id = fresh
    · subst same
      rw [new] at held
      cases held
      simp
    · rw [old id same] at held
      rw [Function.update_of_ne (sound.file_ne_files held)]
      exact sound.complete id entry held
  · intro file free
    by_cases same : file = state.files
    · subst same
      rw [Function.update_self]
      exact .lone new rfl rfl count
    · rw [Function.update_of_ne same]
      have settled := sound.settled file fun call toid inside stage =>
        free call toid (kept call toid inside stage) stage
      refine settled.congr fun id member => old id fun equal => ?_
      obtain ⟨entry, held, -⟩ := settled.held member
      rw [equal, unheld] at held
      cases held
  · intro file above
    have different : file ≠ state.files := by
      have more : state.files + 1 ≤ file := above
      omega
    rw [Function.update_of_ne different]
    exact sound.fresh file (Nat.le_of_succ_le above)

end Add

/-! ### A change of the entries of one file -/

theorem held (sound : Sound state members) {file : Nat} {id : Id} (member : id ∈ members file) :
    Exists fun entry => state.entries id = some entry ∧ entry.file = file := by
  by_cases free : Free state file
  · exact (sound.settled file free).held member
  · simp only [Free, not_forall, not_not] at free
    obtain ⟨call, toid, inside, stage, same⟩ := free
    cases sound.calls call inside with
    | copied copied => simp [stage] at copied
    | made made => simp [stage] at made
    | joined _ _ _ held number _ _ targetHeld targetNumber _ _ both =>
        rw [← same, both] at member
        rcases List.mem_cons.mp member with rfl | member
        · exact ⟨_, held, number.trans same⟩
        · obtain rfl := List.mem_singleton.mp member
          exact ⟨_, targetHeld, targetNumber.trans same⟩

/-- The entries of one file change; no name, no file and no other entry does. -/
theorem change (sound : Sound state members) {file : Nat} {next : LinkState}
    (names : next.names = state.names) (files : next.files = state.files)
    (others : forall id, id ∉ members file -> next.entries id = state.entries id)
    (kept : forall id, id ∈ members file ->
      Exists fun entry => next.entries id = some entry ∧ entry.file = file)
    (calls : forall call, call ∈ next.calls -> CallSound next members call)
    (apart : (next.calls.flatMap Call.used).Nodup)
    (settled : Free next file -> Settled next.entries file (members file))
    (elsewhere : forall other, other ≠ file -> Free next other -> Free state other) :
    Sound next members := by
  have old : forall id entry, next.entries id = some entry -> entry.file ≠ file ->
      state.entries id = some entry := by
    intro id entry held different
    rw [← others id fun member => ?_]
    · exact held
    · obtain ⟨after, heldAfter, number⟩ := kept id member
      rw [held] at heldAfter
      exact different (Option.some.inj heldAfter ▸ number)
  have outside : forall other id, other ≠ file -> id ∈ members other ->
      next.entries id = state.entries id := by
    intro other id different member
    refine others id fun again => different ?_
    obtain ⟨entry, held, number⟩ := sound.held member
    obtain ⟨same, heldSame, numberSame⟩ := sound.held again
    rw [held] at heldSame
    rw [← number, ← numberSame, Option.some.inj heldSame]
  refine ⟨?_, ?_, ?_, ?_, ?_, calls, apart, fun other above => sound.fresh other (files ▸ above)⟩
  · rw [others 0 fun member => ?_]
    · exact sound.zero
    · obtain ⟨entry, held, -⟩ := sound.held member
      rw [sound.zero] at held
      cases held
  · rw [names]
    exact sound.named
  · intro path known
    rw [names] at known ⊢
    obtain ⟨entry, held⟩ := sound.known path known
    by_cases inside : state.names path ∈ members file
    · obtain ⟨entry, held, -⟩ := kept _ inside
      exact ⟨entry, held⟩
    · exact ⟨entry, (others _ inside).trans held⟩
  · intro id entry held
    by_cases same : entry.file = file
    · by_cases inside : id ∈ members file
      · exact same ▸ inside
      · rw [others id inside] at held
        exact sound.complete id entry held
    · exact sound.complete id entry (old id entry held same)
  · intro other free
    by_cases same : other = file
    · subst same
      exact settled free
    · exact (sound.settled other (elsewhere other same free)).congr
        fun id member => outside other id same member

/-- The names that the callbacks use do not lead to the entries of an unused name. -/
theorem apart_of_unused (sound : Sound state members) {path : Path} {entry : LinkEntry}
    (held : state.entries (state.names path) = some entry)
    (unused : forall call, call ∈ state.calls -> path ∉ call.used) {call : Call}
    (inside : call ∈ state.calls) {other : Path} (used : other ∈ call.used) :
    state.names other ∉ members entry.file := by
  refine sound.apart_of_used inside used (sound.free held unused) fun other used alone => ?_
  have member := sound.complete _ _ held
  rw [alone] at member
  have same := sound.named _ _ (sound.name_ne_zero held) (List.mem_singleton.mp member)
  exact unused call inside (same ▸ used)

theorem notifyUpdate_lone {fuel : Nat} {id : Id} {entry : LinkEntry}
    (count : entry.st.isDir ∨ entry.st.st_nlink = 1) :
    notifyUpdate fuel id entry state = .ok state := by
  refine if_pos ?_
  rcases count with directory | one
  · exact Or.inl (by simp [Stat.isReg_of_isDir directory])
  · exact Or.inr (by omega)

theorem notifyUpdate_pair {fuel : Nat} (fuelled : 0 < fuel) {id other : Id}
    (entry : LinkEntry) {second : LinkEntry} (link : entry.hardlink = other) (present : other ≠ 0)
    (held : state.entries other = some second) (back : second.hardlink = id) :
    notifyUpdate fuel id entry state = .ok state ∨
      notifyUpdate fuel id entry state =
        .ok (state.setEntry other { second with st := entry.st }) := by
  obtain ⟨fuel, rfl⟩ := Nat.exists_eq_succ_of_ne_zero fuelled.ne'
  subst link back
  unfold notifyUpdate
  split
  · exact Or.inl rfl
  · simp [present, notifyLoop, held]

/-- Two entries change, and link each other then. -/
theorem changePair (sound : Sound state members) {file : Nat} {one two : Id}
    {first second : LinkEntry} {next : LinkState}
    (order : members file = [one, two] ∨ members file = [two, one])
    (names : next.names = state.names) (files : next.files = state.files)
    (calls : forall call, call ∈ next.calls -> call ∈ state.calls)
    (used : (next.calls.flatMap Call.used).Nodup)
    (elsewhere : forall other, other ≠ file -> Free next other -> Free state other)
    (others : forall id, id ≠ one -> id ≠ two -> next.entries id = state.entries id)
    (outside : forall call, call ∈ next.calls -> forall path, path ∈ call.used ->
      state.names path ∉ members file)
    (apart : one ≠ two) (heldOne : next.entries one = some first)
    (heldTwo : next.entries two = some second)
    (numberOne : first.file = file) (numberTwo : second.file = file)
    (linkOne : first.hardlink = two) (linkTwo : second.hardlink = one)
    (countOne : first.st.st_nlink = 2) (countTwo : second.st.st_nlink = 2) :
    Sound next members := by
  have inside : forall id, id ∈ members file ↔ id = one ∨ id = two := by
    intro id
    rcases order with order | order
    · simp [order]
    · simp [order, or_comm]
  have unchanged : forall id, id ∉ members file -> next.entries id = state.entries id := by
    intro id missing
    rw [inside, not_or] at missing
    exact others id missing.1 missing.2
  refine sound.change names files unchanged ?_ ?_ used ?_ elsewhere
  · intro id member
    rcases (inside id).mp member with rfl | rfl
    · exact ⟨first, heldOne, numberOne⟩
    · exact ⟨second, heldTwo, numberTwo⟩
  · intro call member
    exact (sound.calls call (calls call member)).congr (fun _ _ => congrFun names _)
      (fun path used => unchanged _ (outside call member path used)) fun _ _ _ _ => rfl
  · exact fun _ => .ofPair apart heldOne heldTwo numberOne numberTwo linkOne linkTwo countOne
      countTwo order

/-- The attributes of an entry change, and those of the other entry of its file. -/
theorem update (sound : Sound state members) {path : Path} {st : Stat} {fuel : Nat}
    (fuelled : 0 < fuel) (unused : forall call, call ∈ state.calls -> path ∉ call.used) :
    Exists fun next => state.update path st fuel = .ok next ∧ Sound next members := by
  unfold LinkState.update
  cases held : state.entries (state.names path) with
  | none => exact ⟨state, by simp only [held], sound⟩
  | some entry =>
      simp only [held]
      let after : LinkEntry := { entry with
        st := { st with
          st_mode := chmodMode entry.st.st_mode st.st_mode
          st_nlink := entry.st.st_nlink } }
      change Exists fun next => notifyUpdate fuel (state.names path) after
        (state.setEntry (state.names path) after) = .ok next ∧ Sound next members
      have type : after.st.isDir = entry.st.isDir := by
        simp only [Stat.isDir, after, chmodMode_type]
      have free := sound.free held unused
      have outside : forall call, call ∈ state.calls -> forall other, other ∈ call.used ->
          state.names other ∉ members entry.file :=
        fun call inside other used => sound.apart_of_unused held unused inside used
      have member := sound.complete _ _ held
      rcases (sound.settled _ free).partner member held with
        ⟨alone, hardlink, count⟩ |
        ⟨other, second, apart, heldOther, number, link, back, countOne, countTwo, order⟩
      · refine ⟨_, notifyUpdate_lone (count.imp_left type.trans), ?_⟩
        have here : (state.setEntry (state.names path) after).entries (state.names path) =
            some after := Function.update_self _ _ _
        have others : forall id, id ∉ members entry.file ->
            (state.setEntry (state.names path) after).entries id = state.entries id := by
          intro id outside
          refine Function.update_of_ne ?_ _ _
          rintro rfl
          exact outside member
        refine sound.change rfl rfl others ?_ ?_ sound.apart ?_ fun _ _ free => free
        · intro id inside
          rw [alone, List.mem_singleton] at inside
          exact ⟨after, inside ▸ here, rfl⟩
        · exact fun call inside => (sound.calls call inside).congr (fun _ _ => rfl)
            (fun path used => others _ (outside call inside path used)) fun _ _ _ _ => rfl
        · intro _
          rw [alone]
          exact .lone here rfl hardlink (count.imp_left type.trans)
      · have present : other ≠ 0 := by
          rintro rfl
          rw [sound.zero] at heldOther
          cases heldOther
        have heldAfter : (state.setEntry (state.names path) after).entries other = some second :=
          (Function.update_of_ne apart _ _).trans heldOther
        have here : (state.setEntry (state.names path) after).entries (state.names path) =
            some after := Function.update_self _ _ _
        have others : forall id, id ≠ state.names path -> id ≠ other ->
            (state.setEntry (state.names path) after).entries id = state.entries id :=
          fun id different _ => Function.update_of_ne different _ _
        rcases notifyUpdate_pair fuelled after link present heldAfter back with result | result
        · refine ⟨_, result, sound.changePair order rfl rfl (fun _ member => member) sound.apart
            (fun _ _ free => free) others outside apart.symm here heldAfter rfl number link back countOne countTwo⟩
        · have kept := (Function.update_of_ne apart.symm
            (some { second with st := after.st }) _).trans here
          refine ⟨_, result, sound.changePair order rfl rfl (fun _ member => member) sound.apart
            (fun _ _ free => free) (fun id one two => ?_) outside apart.symm kept
            (Function.update_self _ _ _) rfl number link back countOne countOne⟩
          exact (Function.update_of_ne two _ _).trans (others id one two)

/-! ### The sections of a link callback -/

theorem used_apart {before after : List Call} {call other : Call}
    (nodup : ((before ++ call :: after).flatMap Call.used).Nodup)
    (inside : other ∈ before ++ after) {path : Path} (used : path ∈ other.used) :
    path ∉ call.used := by
  rw [List.flatMap_append, List.flatMap_cons] at nodup
  have front := (List.perm_append_comm_assoc _ _ _).nodup_iff.mp nodup
  rw [← List.flatMap_append] at front
  exact fun again => (List.nodup_append.mp front).2.2 path again path
    (List.mem_flatMap.mpr ⟨other, inside, used⟩) rfl

theorem close (sound : Sound state members) {index : Nat} {call : Call} {toid : Id}
    (found : state.calls[index]? = some call) (stage : call.stage = .joined toid) :
    Exists fun next => state.close index call toid = .ok next ∧ Sound next members := by
  obtain ⟨before, after, whole, erased, -⟩ := exists_around found
  have inside := List.mem_of_getElem? found
  have nodup := sound.apart
  rw [whole] at nodup
  cases sound.calls call inside with
  | copied copied => simp [stage] at copied
  | made made => simp [stage] at made
  | @joined entry target toid' stage' name targetName held number link count targetHeld
      targetNumber targetLink targetCount both =>
      obtain rfl : toid = toid' := by
        rw [stage] at stage'
        cases stage'
        rfl
      have known : call.fromid ≠ 0 := name ▸ sound.name_ne_zero (name ▸ held)
      have targetKnown : toid ≠ 0 := targetName ▸ sound.name_ne_zero (targetName ▸ targetHeld)
      have apart : call.fromid ≠ toid := by
        intro same
        rw [same, targetHeld] at held
        obtain rfl := Option.some.inj held
        exact absurd (targetLink.symm.trans link) known
      have two : raiseLinks entry.st = { entry.st with st_nlink := 2 } := by
        simp [raiseLinks, count]
      simp only [LinkState.close, name, held]
      refine ⟨_, rfl, sound.changePair (Or.inl both) rfl rfl ?_ ?_ ?_ ?_ ?_ apart
        (Function.update_self _ _ _) ((Function.update_of_ne apart.symm _ _).trans targetHeld)
        number targetNumber rfl targetLink (by rw [two]) targetCount⟩
      · exact fun _ member => List.mem_of_mem_eraseIdx member
      · change ((state.calls.eraseIdx index).flatMap Call.used).Nodup
        rw [erased]
        refine nodup.sublist ?_
        rw [List.flatMap_append, List.flatMap_append, List.flatMap_cons]
        exact (List.Sublist.refl _).append (List.sublist_append_right _ _)
      · intro other different free one toid member joined
        rw [whole, List.mem_append, List.mem_cons] at member
        rcases member with member | rfl | member
        · exact free one toid (erased ▸ List.mem_append_left _ member) joined
        · exact different.symm
        · exact free one toid (erased ▸ List.mem_append_right _ member) joined
      · exact fun id one _ => Function.update_of_ne one _ _
      · intro other member path used again
        have unused := used_apart nodup (erased ▸ member) used
        obtain ⟨entry, held, -⟩ := (sound.calls other (List.mem_of_mem_eraseIdx member)).used used
        have known := sound.name_ne_zero held
        rw [both, List.mem_cons, List.mem_singleton] at again
        refine unused ?_
        simp only [Call.used, stage, List.mem_cons, List.not_mem_nil, or_false]
        rcases again with again | again
        · exact Or.inl (sound.named _ _ known (again.trans name.symm))
        · exact Or.inr (sound.named _ _ known (again.trans targetName.symm))

/-- A callback joins a second entry to a file. -/
theorem free_of_alone (sound : Sound state members) {file : Nat} {id : Id}
    (alone : members file = [id]) : Free state file := by
  intro call toid inside stage same
  cases sound.calls call inside with
  | copied copied => simp [stage] at copied
  | made made => simp [stage] at made
  | joined _ _ _ _ _ _ _ _ _ _ _ both =>
      rw [same, alone] at both
      cases both

/-- The entry that was made for the second path leaves its own file for the
file of the first path. -/
theorem join (sound : Sound state members) {index : Nat} {call : Call}
    (found : state.calls[index]? = some call) (stage : call.stage = .made) :
    Exists fun next => Exists fun other => state.join index call = .ok next ∧
      Sound next other := by
  obtain ⟨before, after, whole, -, moved⟩ := exists_around found
  have inside := List.mem_of_getElem? found
  have nodup := sound.apart
  rw [whole] at nodup
  cases sound.calls call inside with
  | copied copied => simp [stage] at copied
  | joined joined => simp [stage] at joined
  | @made entry target _ name held number same alone lone regular targetHeld targetAlone =>
      have known : call.fromid ≠ 0 := name ▸ sound.name_ne_zero (name ▸ held)
      have targetKnown : state.names call.toPath ≠ 0 := sound.name_ne_zero targetHeld
      have apart : call.fromid ≠ state.names call.toPath := by
        intro equal
        have paths := sound.named _ _ (name ▸ known) (name.trans equal)
        have twice : (call.used).Nodup := by
          rw [List.flatMap_append, List.flatMap_cons] at nodup
          exact (List.nodup_append.mp (List.nodup_append.mp nodup).2.1).1
        simp [Call.used, stage, paths] at twice
      have files : target.file ≠ call.file := by
        intro equal
        rw [equal, alone] at targetAlone
        exact apart (List.cons.inj targetAlone).1
      have free := sound.free_of_alone alone
      obtain ⟨link, count⟩ := (alone ▸ sound.settled _ free).alone held
      have one : call.fromst.st_nlink = 1 := same ▸ count.resolve_left (same ▸ regular)
      have two : raiseLinks call.fromst = { call.fromst with st_nlink := 2 } := by
        simp [raiseLinks, one]
      have hardlink : (if call.next_hardlink ≠ 0 then call.next_hardlink else call.fromid) =
          call.fromid := by simp [lone]
      simp only [LinkState.join, if_neg targetKnown, hardlink]
      let joined : Call := { call with stage := .joined (state.names call.toPath) }
      let second : LinkEntry := ⟨raiseLinks call.fromst, call.fromid, call.file⟩
      let next : LinkState := { state.setEntry (state.names call.toPath) second with
        calls := state.calls.set index joined }
      let groups := Function.update (Function.update members target.file []) call.file
        [call.fromid, state.names call.toPath]
      change Exists fun next' => Exists fun other => Except.ok next = .ok next' ∧ Sound next' other
      refine ⟨next, groups, rfl, ?_⟩
      have here : next.entries (state.names call.toPath) = some second :=
        Function.update_self _ _ _
      have others : forall id, id ≠ state.names call.toPath ->
          next.entries id = state.entries id := fun id different =>
        Function.update_of_ne different _ _
      have both : groups call.file = [call.fromid, state.names call.toPath] :=
        Function.update_self _ _ _
      have none : groups target.file = [] := by
        simp only [groups]
        rw [Function.update_of_ne files, Function.update_self]
      have elsewhere : forall file, file ≠ call.file -> file ≠ target.file ->
          groups file = members file := by
        intro file one two
        simp only [groups]
        rw [Function.update_of_ne one, Function.update_of_ne two]
      have members_next : forall other, other ∈ next.calls ->
          other = joined ∨ other ∈ before ++ after := by
        intro other member
        simp only [next, moved, List.mem_append, List.mem_cons] at member ⊢
        tauto
      refine ⟨?_, sound.named, ?_, ?_, ?_, ?_, ?_, ?_⟩
      · rw [others 0 targetKnown.symm]
        exact sound.zero
      · intro path known
        by_cases equal : state.names path = state.names call.toPath
        · exact ⟨second, equal ▸ here⟩
        · obtain ⟨entry, held⟩ := sound.known path known
          exact ⟨entry, (others _ equal).trans held⟩
      · intro id entry found
        by_cases equal : id = state.names call.toPath
        · subst equal
          rw [here] at found
          obtain rfl := Option.some.inj found
          exact both ▸ .tail _ (.head _)
        · rw [others id equal] at found
          have member := sound.complete id entry found
          by_cases first : entry.file = call.file
          · rw [first, alone] at member
            rw [first, both]
            exact List.mem_cons.mpr (Or.inl (List.mem_singleton.mp member))
          · by_cases last : entry.file = target.file
            · rw [last, targetAlone] at member
              exact absurd (List.mem_singleton.mp member) equal
            · rwa [elsewhere _ first last]
      · intro file unjoined
        by_cases first : file = call.file
        · refine absurd first.symm (unjoined joined _ ?_ rfl)
          change joined ∈ state.calls.set index joined
          rw [moved]
          exact List.mem_append_right _ List.mem_cons_self
        · by_cases last : file = target.file
          · rw [last, none]
            exact .none
          · rw [elsewhere file first last]
            have settled := sound.settled file fun other toid member joins => by
              rw [whole, List.mem_append, List.mem_cons] at member
              rcases member with member | rfl | member
              · refine unjoined other toid ?_ joins
                simp only [next, moved]
                exact List.mem_append_left _ member
              · simp [stage] at joins
              · refine unjoined other toid ?_ joins
                simp only [next, moved]
                exact List.mem_append_right _ (List.mem_cons_of_mem _ member)
            refine settled.congr fun id member => others id ?_
            rintro rfl
            obtain ⟨same, heldSame, number⟩ := settled.held member
            rw [targetHeld] at heldSame
            exact last (Option.some.inj heldSame ▸ number.symm)
      · intro other member
        rcases members_next other member with rfl | member
        · exact .joined rfl name rfl ((others _ apart).trans held) number link (same ▸ one) here
            rfl rfl (by simp only [second, two]) both
        · have old : other ∈ state.calls := by
            rw [whole]
            simp only [List.mem_append, List.mem_cons] at member ⊢
            tauto
          have unused : forall path, path ∈ other.used -> path ∉ call.used :=
            fun path used => used_apart nodup member used
          have fromUsed : call.fromPath ∈ call.used := by simp [Call.used, stage]
          have toUsed : call.toPath ∈ call.used := by simp [Call.used, stage]
          have away : forall path entry, path ∈ other.used ->
              state.entries (state.names path) = some entry ->
              state.names path ≠ state.names call.toPath ∧
                state.names path ≠ call.fromid := by
            intro path entry used held
            have known := sound.name_ne_zero held
            refine ⟨fun equal => ?_, fun equal => ?_⟩
            · exact unused path used (sound.named _ _ known equal ▸ toUsed)
            · exact unused path used (sound.named _ _ known (equal.trans name.symm) ▸ fromUsed)
          have holds := sound.calls other old
          refine holds.congr (fun _ _ => rfl) (fun path used => ?_) fun path entry used held => ?_
          · obtain ⟨entry, held, -⟩ := holds.used used
            exact others _ (away path entry used held).1
          · have member := sound.complete _ _ held
            refine elsewhere _ (fun first => ?_) fun last => ?_
            · rw [first, alone] at member
              exact (away path entry used held).2 (List.mem_singleton.mp member)
            · rw [last, targetAlone] at member
              exact (away path entry used held).1 (List.mem_singleton.mp member)
      · change ((state.calls.set index joined).flatMap Call.used).Nodup
        have used : joined.used = call.used := by simp [joined, Call.used, stage]
        rw [moved, List.flatMap_append, List.flatMap_cons, used]
        rwa [List.flatMap_append, List.flatMap_cons] at nodup
      · intro file above
        have empty := sound.fresh file above
        refine (elsewhere file ?_ ?_).trans empty
        · rintro rfl
          rw [alone] at empty
          cases empty
        · rintro rfl
          rw [targetAlone] at empty
          cases empty

theorem populate (sound : Sound state members) {path : Path} {st : Stat} {fresh : Id}
    (unknown : state.names path = 0) (count : st.isDir ∨ st.st_nlink = 1) :
    Exists (Sound (state.addEntry path st fresh)) := by
  unfold addEntry
  split
  · exact ⟨members, sound⟩
  · next free =>
      simp only [not_or, Bool.not_eq_true, Option.isSome_eq_false_iff, Option.isNone_iff_eq_none]
        at free
      exact ⟨_, sound.add unknown free.1 free.2 count
        (fun _ inside => sound.added_call unknown free.2 state.calls inside) sound.apart
        fun _ _ inside _ => inside⟩

theorem link (sound : Sound state members) {fromPath toPath : Path}
    (lone : forall entry, state.entries (state.names fromPath) = some entry -> entry.hardlink = 0)
    (unused : forall call, call ∈ state.calls -> fromPath ∉ call.used) :
    Sound (state.link fromPath toPath) members := by
  unfold LinkState.link
  cases held : state.entries (state.names fromPath) with
  | none => simpa only [held] using sound
  | some entry =>
      simp only [held]
      have link := lone entry held
      have free := sound.free held unused
      have member := sound.complete _ _ held
      have alone : members entry.file = [state.names fromPath] := by
        rcases (sound.settled _ free).partner member held with
          ⟨alone, -, -⟩ | ⟨other, second, -, heldOther, -, back, -⟩
        · exact alone
        · rw [link] at back
          rw [← back, sound.zero] at heldOther
          cases heldOther
      refine ⟨sound.zero, sound.named, sound.known, sound.complete, ?_, ?_, ?_, sound.fresh⟩
      · exact fun file free => sound.settled file fun call toid inside =>
          free call toid (List.mem_append_left _ inside)
      · intro call inside
        rcases List.mem_append.mp inside with inside | inside
        · exact (sound.calls call inside).congr (fun _ _ => rfl) (fun _ _ => rfl)
            fun _ _ _ _ => rfl
        · obtain rfl := List.mem_singleton.mp inside
          exact .copied rfl rfl held rfl rfl alone link
      · rw [List.flatMap_append, List.nodup_append]
        refine ⟨sound.apart, by simp [Call.used], fun path used other again => ?_⟩
        simp only [Call.used, List.flatMap_cons, List.flatMap_nil, List.append_nil,
          List.mem_singleton] at again
        rintro rfl
        obtain ⟨call, inside, uses⟩ := List.mem_flatMap.mp used
        exact unused call inside (again ▸ uses)

/-- A callback that has not joined an entry ends. -/
theorem erase (sound : Sound state members) {index : Nat} {call : Call}
    (found : state.calls[index]? = some call) (stage : call.stage = .copied) :
    Sound { state with calls := state.calls.eraseIdx index } members := by
  obtain ⟨before, after, whole, erased, -⟩ := exists_around found
  refine ⟨sound.zero, sound.named, sound.known, sound.complete, ?_, ?_, ?_, sound.fresh⟩
  · refine fun file free => sound.settled file fun other toid inside joined => ?_
    rw [whole, List.mem_append, List.mem_cons] at inside
    rcases inside with inside | rfl | inside
    · exact free other toid (erased ▸ List.mem_append_left _ inside) joined
    · simp [stage] at joined
    · exact free other toid (erased ▸ List.mem_append_right _ inside) joined
  · exact fun other inside => (sound.calls other (List.mem_of_mem_eraseIdx inside)).congr
      (fun _ _ => rfl) (fun _ _ => rfl) fun _ _ _ _ => rfl
  · have nodup := sound.apart
    change ((state.calls.eraseIdx index).flatMap Call.used).Nodup
    rw [whole] at nodup
    rw [erased]
    refine nodup.sublist ?_
    rw [List.flatMap_append, List.flatMap_append, List.flatMap_cons]
    exact (List.Sublist.refl _).append (List.sublist_append_right _ _)

section Made

variable {index : Nat} {call : Call} {st : Stat} {fresh : Id}

theorem made_calls (sound : Sound state members) (found : state.calls[index]? = some call)
    (stage : call.stage = .copied) (regular : ¬ call.fromst.isDir)
    (unknown : state.names call.toPath = 0) (unheld : state.entries fresh = none) (other : Call)
    (inside : other ∈ state.calls.set index { call with stage := .made }) :
    CallSound
      (added state call.toPath st fresh (state.calls.set index { call with stage := .made }))
      (Function.update members state.files [fresh]) other := by
  obtain ⟨before, after, whole, -, moved⟩ := exists_around found
  have kept : forall one, one ∈ state.calls -> CallSound (added state _ st fresh _) _ one :=
    fun one member => sound.added_call unknown unheld
      (state.calls.set index { call with stage := .made }) member
  rw [moved, List.mem_append, List.mem_cons] at inside
  rcases inside with inside | rfl | inside
  · exact kept other (whole ▸ List.mem_append_left _ inside)
  · cases kept call (List.mem_of_getElem? found) with
    | made made => simp [stage] at made
    | joined joined => simp [stage] at joined
    | copied _ name held number same alone lone =>
        have here : (added state call.toPath st fresh
            (state.calls.set index { call with stage := .made })).names call.toPath = fresh :=
          Function.update_self _ _ _
        have new : (added state call.toPath st fresh
            (state.calls.set index { call with stage := .made })).entries fresh =
            some ⟨st, 0, state.files⟩ := Function.update_self _ _ _
        refine .made rfl name held number same alone lone regular
          ((congrArg _ here).trans new) ?_
        exact (Function.update_self _ _ _).trans (congrArg (fun id => [id]) here.symm)
  · exact kept other (whole ▸ List.mem_append_right _ (List.mem_cons_of_mem _ inside))

theorem made_apart (sound : Sound state members) (found : state.calls[index]? = some call)
    (stage : call.stage = .copied) (unknown : state.names call.toPath = 0) :
    ((state.calls.set index { call with stage := .made }).flatMap Call.used).Nodup := by
  obtain ⟨before, after, whole, -, moved⟩ := exists_around found
  have unused : forall other, other ∈ state.calls -> call.toPath ∉ other.used := by
    intro other inside used
    obtain ⟨entry, held, -⟩ := (sound.calls other inside).used used
    exact sound.name_ne_zero held unknown
  have nodup := sound.apart
  have old : call.used = [call.fromPath] := by simp [Call.used, stage]
  have new : Call.used { call with stage := .made } = [call.fromPath, call.toPath] := rfl
  have outside : call.toPath ∉ state.calls.flatMap Call.used := by
    rw [List.mem_flatMap]
    rintro ⟨other, inside, used⟩
    exact unused other inside used
  rw [whole, List.flatMap_append, List.flatMap_cons, old] at nodup outside
  rw [moved, List.flatMap_append, List.flatMap_cons, new]
  have behind : forall front back : List Path,
      front ++ ([call.fromPath, call.toPath] ++ back) =
        (front ++ [call.fromPath]) ++ call.toPath :: back := by simp
  rw [behind, List.perm_middle.nodup_iff, List.append_assoc]
  exact List.nodup_cons.mpr ⟨outside, nodup⟩

theorem made_kept (found : state.calls[index]? = some call)
    (stage : call.stage = .copied) {other : Call} {toid : Id} (inside : other ∈ state.calls)
    (joined : other.stage = .joined toid) :
    other ∈ state.calls.set index { call with stage := .made } := by
  obtain ⟨before, after, whole, -, moved⟩ := exists_around found
  rw [whole, List.mem_append, List.mem_cons] at inside
  rw [moved, List.mem_append, List.mem_cons]
  rcases inside with inside | rfl | inside
  · exact Or.inl inside
  · simp [stage] at joined
  · exact Or.inr (Or.inr inside)

end Made

theorem make (sound : Sound state members) {index : Nat} {call : Call}
    (found : state.calls[index]? = some call) (stage : call.stage = .copied) (linked : Bool)
    (fresh : Id) : Exists (Sound (state.make index call linked fresh)) := by
  unfold LinkState.make
  simp only
  split
  · exact ⟨members, sound.erase found stage⟩
  · next allowed =>
      split
      · exact ⟨members, sound.erase found stage⟩
      · next unknown =>
          split
          · exact ⟨members, sound⟩
          · next free =>
              simp only [not_or, not_not, Bool.not_eq_true] at allowed unknown
              obtain ⟨present, unheld⟩ := not_or.mp free
              have unheld := Option.not_isSome_iff_eq_none.mp unheld
              simp only [addEntry, if_neg free]
              exact ⟨_, sound.add unknown present unheld (Or.inr rfl)
                (sound.made_calls found stage (by simp [allowed.2]) unknown unheld)
                (sound.made_apart found stage unknown)
                (fun other toid inside joined => made_kept found stage inside joined)⟩

/-! ### Unlinks -/

theorem unlinkList_pair {id other : Id} {entry second : LinkEntry}
    (link : entry.hardlink = other) (present : other ≠ 0)
    (held : state.entries other = some second) (back : second.hardlink = id) (known : id ≠ 0) :
    unlinkList id entry state =
      .ok (state.setEntry other { second with st := lowerLinks second.st, hardlink := 0 }) := by
  subst link back
  simp [unlinkList, unlinkLoop, MAX_LINK_COUNT, present, held, known]

/-- An entry is removed; what is left of its file has settled. -/
theorem remove (sound : Sound state members) {path : Path} {entry : LinkEntry}
    (held : state.entries (state.names path) = some entry)
    (unused : forall call, call ∈ state.calls -> path ∉ call.used) {next : LinkState}
    {rest : List Id} (names : next.names = Function.update state.names path 0)
    (files : next.files = state.files) (calls : next.calls = state.calls)
    (gone : next.entries (state.names path) = none)
    (only : forall id, id ∈ members entry.file -> id = state.names path ∨ id ∈ rest)
    (others : forall id, id ∉ members entry.file -> next.entries id = state.entries id)
    (settled : Settled next.entries entry.file rest) :
    Sound next (Function.update members entry.file rest) := by
  have member := sound.complete _ _ held
  have elsewhere : forall other, other ≠ path -> next.names other = state.names other := by
    intro other different
    rw [names, Function.update_of_ne different]
  have here : next.names path = 0 := by rw [names, Function.update_self]
  refine ⟨?_, ?_, ?_, ?_, ?_, ?_, calls ▸ sound.apart, ?_⟩
  · rw [others 0 fun member => ?_]
    · exact sound.zero
    · obtain ⟨zero, held, -⟩ := sound.held member
      rw [sound.zero] at held
      cases held
  · intro one two known same
    have first : one ≠ path := by
      rintro rfl
      exact known here
    rw [elsewhere one first] at known same
    have second : two ≠ path := by
      rintro rfl
      exact known (same.trans here)
    rw [elsewhere two second] at same
    exact sound.named one two known same
  · intro other known
    have different : other ≠ path := by
      rintro rfl
      exact known here
    rw [elsewhere other different] at known ⊢
    obtain ⟨known', heldOther⟩ := sound.known other known
    by_cases inside : state.names other ∈ members entry.file
    · rcases only _ inside with same | inside
      · exact absurd (sound.named _ _ known same) different
      · obtain ⟨after, heldAfter, -⟩ := settled.held inside
        exact ⟨after, heldAfter⟩
    · exact ⟨known', (others _ inside).trans heldOther⟩
  · intro id after heldAfter
    by_cases inside : id ∈ members entry.file
    · rcases only id inside with rfl | inside
      · rw [gone] at heldAfter
        cases heldAfter
      · obtain ⟨same, heldSame, number⟩ := settled.held inside
        obtain rfl := Option.some.inj (heldAfter.symm.trans heldSame)
        rw [number, Function.update_self]
        exact inside
    · rw [others id inside] at heldAfter
      have kept := sound.complete id after heldAfter
      have different : after.file ≠ entry.file := by
        intro same
        rw [same] at kept
        exact inside kept
      rwa [Function.update_of_ne different]
  · intro file free
    by_cases same : file = entry.file
    · rw [same, Function.update_self]
      exact settled
    · rw [Function.update_of_ne same]
      have before := sound.settled file fun call toid inside => free call toid (calls ▸ inside)
      refine before.congr fun id inside => others id fun again => same ?_
      obtain ⟨one, heldOne, numberOne⟩ := before.held inside
      obtain ⟨two, heldTwo, numberTwo⟩ := sound.held again
      rw [← numberOne, ← numberTwo, Option.some.inj (heldOne.symm.trans heldTwo)]
  · intro call inside
    rw [calls] at inside
    have outside : forall other, other ∈ call.used -> state.names other ∉ members entry.file :=
      fun other used => sound.apart_of_unused held unused inside used
    refine (sound.calls call inside).congr (fun other used => elsewhere other ?_)
      (fun other used => others _ (outside other used)) fun other one used heldOne => ?_
    · rintro rfl
      exact unused call inside used
    · refine Function.update_of_ne (fun same => outside other used ?_) _ _
      exact same ▸ sound.complete _ _ heldOne
  · intro file above
    have empty := sound.fresh file (files ▸ above)
    rw [Function.update_of_ne fun same => ?_]
    · exact empty
    · rw [← same, empty] at member
      cases member

/-- An entry without a link goes, or the entry that links it becomes the only one. -/
theorem unlink (sound : Sound state members) {path : Path}
    (unused : forall call, call ∈ state.calls -> path ∉ call.used) :
    Exists fun next => Exists fun other => state.unlink path = .ok next ∧ Sound next other := by
  unfold LinkState.unlink
  cases held : state.entries (state.names path) with
  | none => exact ⟨state, members, by simp only [held], sound⟩
  | some entry =>
      simp only [held]
      split
      · exact ⟨state, members, rfl, sound⟩
      · next type =>
          have file : ¬ entry.st.isDir := by
            intro directory
            rw [Stat.isReg_of_isDir directory, Stat.isLnk_of_isDir directory] at type
            simp at type
          have member := sound.complete _ _ held
          have free := sound.free held unused
          rcases (sound.settled _ free).partner member held with
            ⟨alone, -, count⟩ |
            ⟨other, second, apart, heldOther, number, link, back, countOne, countTwo, order⟩
          · have one := count.resolve_left file
            rw [if_neg (by omega)]
            refine ⟨_, _, rfl, sound.remove held unused rfl rfl rfl (Function.update_self _ _ _)
              (fun id inside => ?_) (fun id outside => ?_) .none⟩
            · rw [alone, List.mem_singleton] at inside
              exact Or.inl inside
            · refine Function.update_of_ne ?_ _ _
              rintro rfl
              exact outside member
          · have present : other ≠ 0 := by
              rintro rfl
              rw [sound.zero] at heldOther
              cases heldOther
            have inside : forall id, id ∈ members entry.file ->
                id = state.names path ∨ id = other := by
              intro id member
              rcases order with order | order <;> simp only [order, List.mem_cons,
                List.not_mem_nil, or_false] at member <;> tauto
            rw [if_pos (by omega), unlinkList_pair link present heldOther back
              (sound.name_ne_zero held)]
            let last : LinkEntry := { second with st := lowerLinks second.st, hardlink := 0 }
            have heldLast : Function.update (state.setEntry other last).entries
                (state.names path) none other = some last :=
              (Function.update_of_ne apart _ _).trans (Function.update_self _ _ _)
            refine ⟨_, _, rfl, sound.remove held unused rfl rfl rfl (Function.update_self _ _ _)
              (fun id member => (inside id member).imp_right List.mem_singleton.mpr)
              (fun id outside => ?_) (.lone heldLast number rfl (Or.inr ?_))⟩
            · have first : id ≠ state.names path := by
                rintro rfl
                exact outside member
              have second : id ≠ other := by
                rintro rfl
                refine outside ?_
                rcases order with order | order <;> simp [order]
              exact (Function.update_of_ne first _ _).trans (Function.update_of_ne second _ _)
            · simp [last, lowerLinks, countTwo]

/-- A step that nothing disturbs is none of the Bugs, and keeps the invariant. -/
theorem step (sound : Sound state members) {event : Event} (undisturbed : state.Undisturbed event) :
    Exists fun next => Exists fun other => state.step event = .ok next ∧ Sound next other := by
  cases event with
  | populate path st fresh =>
      simp only [LinkState.step]
      split
      · exact ⟨state, members, rfl, sound⟩
      · next unknown =>
          obtain ⟨other, sound⟩ := sound.populate (not_not.mp unknown) undisturbed
          exact ⟨_, other, rfl, sound⟩
  | link fromPath toPath =>
      exact ⟨_, members, rfl, sound.link undisturbed.1 undisturbed.2⟩
  | make index linked fresh =>
      simp only [LinkState.step]
      cases found : state.calls[index]? with
      | none => exact ⟨state, members, rfl, sound⟩
      | some call =>
          simp only
          split
          · next stage =>
              obtain ⟨other, sound⟩ := sound.make found stage linked fresh
              exact ⟨_, other, rfl, sound⟩
          · exact ⟨state, members, rfl, sound⟩
  | join index =>
      simp only [LinkState.step]
      cases found : state.calls[index]? with
      | none => exact ⟨state, members, rfl, sound⟩
      | some call =>
          simp only
          split
          · next stage => exact sound.join found stage
          · exact ⟨state, members, rfl, sound⟩
  | close index =>
      simp only [LinkState.step]
      cases found : state.calls[index]? with
      | none => exact ⟨state, members, rfl, sound⟩
      | some call =>
          simp only
          split
          · next toid stage =>
              obtain ⟨next, result, sound⟩ := sound.close found stage
              exact ⟨next, members, result, sound⟩
          · exact ⟨state, members, rfl, sound⟩
  | unlink path => exact sound.unlink undisturbed
  | update path st fuel =>
      obtain ⟨next, result, sound⟩ := sound.update undisturbed.1 undisturbed.2
      exact ⟨next, members, result, sound⟩

theorem wellFormed (sound : Sound state members) : state.WellFormed := by
  intro file free
  have settled := sound.settled file free
  have entries : forall id, id ∈ members file ↔
      Exists fun entry => state.entries id = some entry ∧ entry.file = file := by
    intro id
    refine ⟨settled.held, ?_⟩
    rintro ⟨entry, held, rfl⟩
    exact sound.complete id entry held
  have nonzero : (0 : Id) ∉ members file := by
    intro member
    obtain ⟨entry, held, -⟩ := settled.held member
    rw [sound.zero] at held
    cases held
  refine ⟨members file, ?_⟩
  generalize members file = ids at settled entries nonzero
  cases settled with
  | none => exact ⟨List.nodup_nil, nonzero, entries, by simp, by simp, by simp⟩
  | @lone id entry held number hardlink count =>
      have only : forall other after, other ∈ [id] -> state.entries other = some after ->
          after = entry := by
        intro other after member same
        obtain rfl := List.mem_singleton.mp member
        exact Option.some.inj (same.symm.trans held)
      refine ⟨List.nodup_singleton id, nonzero, entries, ?_, ?_, ?_⟩
      · intro index inside after same
        rw [only _ after (List.getElem_mem inside) same]
        simpa using hardlink
      · intro one two first second inOne inTwo heldOne heldTwo
        rw [only one first inOne heldOne, only two second inTwo heldTwo]
      · intro other after inside same file more
        rw [only other after inside same] at file more
        exact absurd (count.resolve_left file) (by omega)
  | @pair one two first second apart heldOne heldTwo numberOne numberTwo linkOne linkTwo
      countOne countTwo =>
      have counts : forall id entry, id ∈ [one, two] -> state.entries id = some entry ->
          entry.st.st_nlink = 2 := by
        intro id entry member held
        rcases List.mem_cons.mp member with rfl | member
        · exact Option.some.inj (held.symm.trans heldOne) ▸ countOne
        · obtain rfl := List.mem_singleton.mp member
          exact Option.some.inj (held.symm.trans heldTwo) ▸ countTwo
      refine ⟨by simp [apart], nonzero, entries, ?_, ?_, ?_⟩
      · intro index inside entry held
        match index, inside with
        | 0, _ =>
            obtain rfl := Option.some.inj (held.symm.trans heldOne)
            simp [linkOne]
        | 1, _ =>
            obtain rfl := Option.some.inj (held.symm.trans heldTwo)
            simp [linkTwo]
      · intro id other entry after inOne inTwo heldEntry heldAfter
        rw [counts id entry inOne heldEntry, counts other after inTwo heldAfter]
      · intro id entry inside held _ _ zero
        rcases List.mem_cons.mp inside with rfl | inside
        · obtain rfl := Option.some.inj (held.symm.trans heldOne)
          rw [linkOne] at zero
          exact nonzero (zero ▸ .tail _ (.head _))
        · obtain rfl := List.mem_singleton.mp inside
          obtain rfl := Option.some.inj (held.symm.trans heldTwo)
          rw [linkTwo] at zero
          exact nonzero (zero ▸ .head _)

end Sound

theorem init_sound : Sound init fun _ => [] := by
  refine ⟨rfl, ?_, ?_, ?_, fun _ _ => .none, ?_, List.nodup_nil, fun _ _ => rfl⟩
  · exact fun _ _ known => absurd rfl known
  · exact fun _ known => absurd rfl known
  · intro id entry held
    cases held
  · intro call inside
    cases inside

end Steps

/-- The entries of every file form a ring, and neither an unlink nor a change of
attributes ends in a Bug, in every run that nothing disturbs. -/
theorem LinkState.rings_well_formed (events : List Event)
    (undisturbed : EachStep step Undisturbed init events) :
    Throughout step WellFormed (fun _ => False) init events := by
  have start : Consistent init := ⟨_, init_sound⟩
  refine Throughout.ofInvariant (fun state sound => ?_)
    (fun state event next sound holds result => ?_)
    (fun state event fault sound holds result => ?_) start undisturbed
  · obtain ⟨members, sound⟩ := sound
    exact sound.wellFormed
  · obtain ⟨members, sound⟩ := sound
    obtain ⟨after, other, taken, sound⟩ := sound.step holds
    rw [taken] at result
    cases result
    exact ⟨other, sound⟩
  · obtain ⟨members, sound⟩ := sound
    obtain ⟨after, other, taken, -⟩ := sound.step holds
    rw [taken] at result
    cases result

/-- A second name, made while nothing else happens, and the end of the first. -/
theorem LinkState.rings_well_formed_pair :
    Throughout step WellFormed (fun _ => False) init
      [.populate (ascii "/a") { Stat.zero with st_mode := S_IFREG, st_nlink := 1 } 2,
        .link (ascii "/a") (ascii "/b"), .make 0 true 3, .join 0, .close 0,
        .unlink (ascii "/a")] := by
  refine LinkState.rings_well_formed _
    ⟨Or.inr rfl, ⟨?_, ?_⟩, trivial, trivial, trivial, ?_, trivial⟩
  · intro entry held
    cases held
    rfl
  · intro call inside
    cases inside
  · intro call inside
    cases inside

/-- A file that has two names in the source cannot be unlinked. -/
theorem LinkState.unlink_of_linked_source :
    ¬ Throughout step WellFormed (fun _ => False) init
      [.populate (ascii "/a") { Stat.zero with st_mode := S_IFREG, st_nlink := 2 } 2,
        .unlink (ascii "/a")] :=
  fun throughout => throughout.2.2

end HardLinks
end Mcachefs
