import Mcachefs.Metadata.Moves

namespace Mcachefs
namespace Metadata

open Library

/-!
# Directories of the source

The field `child` of a directory says two things at once: whether the directory
of the source has been read, and which child is the first.  A read that fails
leaves `child` at `0`, and a new child that is linked then makes the directory
look as if it had been read.

The calls are taken apart here into the sections that change a field `child`,
and the state has two fields of history: the directory of the source that an
entry was made of, and whether that directory has been read for the entry.
None of these calls sets a `child` back to `0`.
-/

variable {Hash : Type}

/-- A metadata file and what has happened to its directories. -/
structure ReadFs (Hash : Type) where
  fs : Fs Hash
  /-- The names on the way to the directory of the source that the entry was made of. -/
  source : Id -> Option (List Component)
  /-- That directory has been read for the entry. -/
  read : Id -> Bool

/-- The sections of the calls. -/
inductive ReadEvent
  /-- `mcachefs_metadata_get_child`, which lookups consist of. -/
  | getChild (father : Id)
  /-- The end of `mcachefs_metadata_make_entry`. -/
  | makeChild (context : Context) (father : Id) (lname : Component) (mode : UInt32) (rdev : UInt64)
  /-- The end of `mcachefs_metadata_rename_entry`. -/
  | moveEntry (mdata mtarget : Id) (lname : Component)
  /-- The end of `mcachefs_metadata_rmdir_unlink`. -/
  | unlinkRemove (mdata : Id)
  deriving DecidableEq, Repr

/-- The names of the directory that a read of an entry gets, if it succeeds. -/
def Fs.readsNames (env : Env Hash) (reads : Nat) (fs : Fs Hash) (id : Id) :
    Option (List Component) :=
  match fs.climb env.fuel id with
  | none => none
  | some (names, _) => if (env.source reads names).isSome then some names else none

namespace ReadFs

/-- A new metadata file: the root stands for the root of the source. -/
def start [Inhabited Hash] (env : Env Hash) (st : Stat) : ReadFs Hash where
  fs := Fs.format env st
  source := fun id => if id = rootId then some [] else none
  read := fun _ => false

/-- What is known after a step that has read the directory with these names, if
any, for an entry.  New entries that are directories are made of the directories
in it. -/
def after (state : ReadFs Hash) (next : Fs Hash) (reading : Option (Id × List Component)) :
    ReadFs Hash where
  fs := next
  source := fun id =>
    if id ∈ state.fs.index then state.source id
    else if (next.entries id).st.isDir then
      reading.map fun directory => directory.2 ++ [(next.entries id).d_name]
    else none
  read := fun id =>
    decide (id ∈ state.fs.index) && state.read id ||
      reading.any fun directory => directory.1 = id ∧ state.source id = some directory.2

/-- The directory that a section reads: that of an entry that has no `child`.
A rename reads it under the new path. -/
def reading (env : Env Hash) (state : ReadFs Hash) (next : Fs Hash) (id : Id) :
    Option (Id × List Component) :=
  if (state.fs.entries id).st.isDir ∧ (state.fs.entries id).child = .unread then
    (next.readsNames env state.fs.reads id).map fun names => (id, names)
  else none

section Step

variable [Inhabited Hash] [DecidableEq Hash]

def step (env : Env Hash) (state : ReadFs Hash) : ReadEvent -> Except Fault (ReadFs Hash)
  | .getChild father =>
      if father ∈ state.fs.index then do
        let (_, next) ← state.fs.getChild env father
        .ok (state.after next (state.reading env state.fs father))
      else .ok state
  | .makeChild context father lname mode rdev =>
      if father ∈ state.fs.index then
        .ok (state.after (state.fs.makeChild env context father lname mode rdev) none)
      else .ok state
  | .moveEntry mdata mtarget lname => do
      let next ← state.fs.moveEntry env mdata mtarget lname
      .ok (state.after next (state.reading env next mdata))
  | .unlinkRemove mdata => do
      let next ← state.fs.unlinkRemove env mdata
      .ok (state.after next none)

end Step

/-- What the calls have made sure of before the section. -/
def Legal (state : ReadFs Hash) : ReadEvent -> Prop
  | .moveEntry mdata mtarget _ =>
      mdata ∈ state.fs.index ∧ mtarget ∈ state.fs.index ∧ ¬ Climbs state.fs.father mdata mtarget
  | .unlinkRemove mdata => mdata ∈ state.fs.index ∧ state.fs.first mdata = 0
  | _ => True

/-- An entry that was made of a directory of the source has a `child` only if
that directory has been read for it. -/
def PopulatedAfterRead (state : ReadFs Hash) : Prop :=
  forall id names, id ∈ state.fs.index -> state.source id = some names ->
    (state.fs.entries id).child ≠ .unread -> state.read id = true

/-- No child is linked to an entry whose directory has not been read, and no
directory is read under a path other than that of the source. -/
def LinksAfterRead (env : Env Hash) (state : ReadFs Hash) : ReadEvent -> Prop
  | .getChild father => forall names own,
      state.reading env state.fs father = some (father, names) ->
        state.source father = some own -> names = own
  | .makeChild _ father _ _ _ => forall own, state.source father = some own ->
      (state.fs.entries father).child ≠ .unread
  | .moveEntry mdata mtarget _ =>
      (forall own, state.source mtarget = some own ->
        (state.fs.entries mtarget).child ≠ .unread) ∧
      forall own, state.source mdata = some own -> (state.fs.entries mdata).st.isDir = true ->
        (state.fs.entries mdata).child ≠ .unread
  | .unlinkRemove _ => True

/-! ## What the sections do to `child` -/

section Sections

variable [Inhabited Hash] [DecidableEq Hash] {env : Env Hash} {fs next : Fs Hash}

omit [Inhabited Hash] [DecidableEq Hash] in
/-- An entry is unlinked from a father that has it as a child. -/
theorem unlinkEntry_father {id : Id} (unlinked : fs.unlinkEntry env id = .ok next) :
    (fs.entries (fs.father id)).child ≠ .unread := by
  rcases unlinkEntry_cases unlinked with ⟨here, -⟩ | ⟨-, some, -⟩
  · rw [here]
    exact (nomatch ·)
  · intro unread
    rw [Fs.first, unread] at some
    exact some rfl

omit [DecidableEq Hash] in
/-- Children become known by a read that succeeds. -/
theorem getChild_reads {father child : Id} (unread : (fs.entries father).child = .unread)
    (read : fs.getChild env father = .ok (child, next))
    (known : (next.entries father).child ≠ .unread) :
    (fs.entries father).st.isDir = true ∧
      Exists fun names => fs.readsNames env fs.reads father = some names := by
  unfold Fs.getChild at read
  rw [unread] at read
  simp only at read
  split at read
  · obtain ⟨-, rfl⟩ := Prod.mk.inj (Except.ok.inj read)
    exact absurd unread known
  · next directory =>
      refine ⟨Bool.eq_true_of_not_eq_false directory, ?_⟩
      obtain ⟨answer, opened, read⟩ := bind_eq_ok.mp read
      unfold Fs.recurseOpen at opened
      split at opened
      · cases opened
      · next names top way =>
          obtain rfl := Except.ok.inj opened
          cases answered : env.source fs.reads names with
          | none =>
              rw [answered] at read
              obtain ⟨-, rfl⟩ := Prod.mk.inj (Except.ok.inj read)
              exact absurd unread known
          | some des =>
              refine ⟨names, ?_⟩
              rw [Fs.readsNames, way]
              exact if_pos (congrArg Option.isSome answered)

omit [DecidableEq Hash] in
/-- A removal gives no entry children. -/
theorem unlinkRemove_known {mdata id : Id} (removed : fs.unlinkRemove env mdata = .ok next)
    (there : id ≠ mdata) (known : (next.entries id).child ≠ .unread) :
    (fs.entries id).child ≠ .unread := by
  obtain ⟨unlinked, unlinking, removed⟩ := bind_eq_ok.mp removed
  rw [remove_eq removed, modify_other there] at known
  by_cases isFather : id = fs.father mdata
  · exact isFather ▸ unlinkEntry_father unlinking
  · rwa [← (unlinkEntry_child unlinking).2 isFather]

omit [DecidableEq Hash] in
/-- A rename gives no entry children but the new father, and the renamed
directory if it has not been read. -/
theorem moveEntry_child {mdata mtarget id : Id} {lname : Component} (isTree : IsTree fs)
    (linked : mdata ∈ fs.index) (targetLinked : mtarget ∈ fs.index)
    (legal : ¬ Climbs fs.father mdata mtarget)
    (moving : fs.moveEntry env mdata mtarget lname = .ok next) (there : id ∈ next.index) :
    id ∉ fs.index ∧ (next.entries id).child = .unread ∨
      id ∈ fs.index ∧ ((next.entries id).child = (fs.entries id).child ∨
        (fs.entries id).child ≠ .unread ∨ id = mtarget ∨
          id = mdata ∧ (fs.entries mdata).st.isDir = true) := by
  have fatherKnown : (fs.entries (fs.father mdata)).child ≠ .unread := by
    obtain ⟨unlinked, unlinking, -⟩ := bind_eq_ok.mp moving
    exact unlinkEntry_father unlinking
  obtain ⟨moved, move, middle, rehash, updating⟩ :=
    moveEntry_cases isTree linked targetLinked legal moving
  have last := updateFhPath_rehashed updating
  have step : id ∈ fs.index -> (moved.entries id).child = (fs.entries id).child ∨
      (fs.entries id).child ≠ .unread ∨ id = mtarget := by
    intro old
    by_cases isTarget : id = mtarget
    · exact Or.inr (Or.inr isTarget)
    · by_cases isFather : id = fs.father mdata
      · exact Or.inr (Or.inl (isFather ▸ fatherKnown))
      · exact Or.inl (move.still id isTarget isFather)
  rw [last.child id]
  have middleThere := last.mem_index.mp there
  split at rehash
  · have movedLinked := (move.index mdata).mpr linked
    obtain ⟨child, read, reading, rehashed⟩ :=
      rehashChildren_rehashed move.isTree movedLinked rehash
    rw [rehashed.child id]
    rcases getChild_fresh move.isTree movedLinked reading (rehashed.mem_index.mp middleThere) with
      old | ⟨fresh, -, -, -, leaf⟩
    · refine Or.inr ⟨(move.index id).mp old, ?_⟩
      rcases getChild_child move.isTree movedLinked reading old with same | ⟨isMoved, directory⟩
      · rw [same]
        rcases step ((move.index id).mp old) with still | known | isTarget
        · exact Or.inl still
        · exact Or.inr (Or.inl known)
        · exact Or.inr (Or.inr (Or.inl isTarget))
      · exact Or.inr (Or.inr (Or.inr ⟨isMoved, move.st ▸ directory⟩))
    · exact Or.inl ⟨fun old => fresh ((move.index id).mpr old), leaf⟩
  · obtain rfl := Except.ok.inj rehash
    have old := (move.index id).mp middleThere
    refine Or.inr ⟨old, ?_⟩
    rcases step old with still | known | isTarget
    · exact Or.inl still
    · exact Or.inr (Or.inl known)
    · exact Or.inr (Or.inr (Or.inl isTarget))

end Sections

/-! ## Runs -/

section Runs

variable [Inhabited Hash] [DecidableEq Hash] {env : Env Hash} {state last : ReadFs Hash}

omit [Inhabited Hash] [DecidableEq Hash] in
/-- New entries have no `child` or are made of nothing, and an entry of the
source gets a `child` when its directory is read. -/
theorem PopulatedAfterRead.after (holds : state.PopulatedAfterRead) {next : Fs Hash}
    {reading : Option (Id × List Component)}
    (fresh : forall id, id ∈ next.index -> id ∉ state.fs.index ->
      (next.entries id).child = .unread ∨ reading = none)
    (old : forall id own, id ∈ next.index -> id ∈ state.fs.index -> state.source id = some own ->
      (next.entries id).child ≠ .unread ->
      (state.fs.entries id).child ≠ .unread ∨ reading = some (id, own)) :
    (state.after next reading).PopulatedAfterRead := by
  intro id own there made known
  simp only [ReadFs.after] at there made known ⊢
  by_cases before : id ∈ state.fs.index
  · rw [if_pos before] at made
    rcases old id own there before made known with already | read
    · rw [holds id own before made already]
      simp [before]
    · rw [read, made]
      simp
  · rw [if_neg before] at made
    rcases fresh id there before with unread | none
    · exact absurd unread known
    · rw [none] at made
      split at made <;> cases made

omit [DecidableEq Hash] in
/-- What one section preserves. -/
theorem step_populated {event : ReadEvent} (isTree : IsTree state.fs)
    (holds : state.PopulatedAfterRead) (legal : state.Legal event)
    (links : state.LinksAfterRead env event) (result : state.step env event = .ok last) :
    IsTree last.fs ∧ last.PopulatedAfterRead := by
  cases event with
  | getChild father =>
      simp only [step] at result
      split at result
      · next linked =>
          obtain ⟨⟨child, next⟩, read, result⟩ := bind_eq_ok.mp result
          obtain rfl := Except.ok.inj result
          refine ⟨getChild_isTree isTree linked read, holds.after (fun id there before => ?_)
            fun id own there before made known => ?_⟩
          · rcases getChild_fresh isTree linked read there with old | ⟨-, -, -, -, leaf⟩
            · exact absurd old before
            · exact Or.inl leaf
          · rcases getChild_child isTree linked read before with same | ⟨rfl, -⟩
            · exact Or.inl (same ▸ known)
            · by_cases unread : (state.fs.entries id).child = .unread
              · obtain ⟨directory, names, way⟩ := getChild_reads unread read known
                have reading : state.reading env state.fs id = some (id, names) := by
                  rw [ReadFs.reading, if_pos ⟨directory, unread⟩, way]
                  rfl
                exact Or.inr (reading.trans (congrArg (fun own => some (id, own))
                  (links names own reading made)))
              · exact Or.inl unread
      · obtain rfl := Except.ok.inj result
        exact ⟨isTree, holds⟩
  | makeChild context father lname mode rdev =>
      simp only [step] at result
      split at result
      · next linked =>
          obtain rfl := Except.ok.inj result
          obtain ⟨kids, free, tree⟩ := isTree
          obtain ⟨id, rest, added⟩ :=
            tree.makeChild env context lname mode rdev (tree.mem_index.mp linked)
          refine ⟨⟨_, _, added.tree⟩, holds.after (fun _ _ _ => Or.inr rfl)
            fun other own there before made known => Or.inl ?_⟩
          by_cases isFather : other = father
          · exact isFather ▸ links own (isFather ▸ made)
          · rwa [← added.kept other (tree.mem_index.mp before) isFather]
      · obtain rfl := Except.ok.inj result
        exact ⟨isTree, holds⟩
  | moveEntry mdata mtarget lname =>
      obtain ⟨next, moving, result⟩ := bind_eq_ok.mp result
      obtain rfl := Except.ok.inj result
      obtain ⟨linked, targetLinked, apart⟩ := legal
      obtain ⟨target, moved⟩ := links
      refine ⟨moveEntry_tree isTree linked targetLinked apart moving, holds.after
        (fun id there before => ?_) fun id own there before made known => Or.inl ?_⟩
      · rcases moveEntry_child isTree linked targetLinked apart moving there with
          ⟨-, leaf⟩ | ⟨old, -⟩
        · exact Or.inl leaf
        · exact absurd old before
      · rcases moveEntry_child isTree linked targetLinked apart moving there with
          ⟨fresh, -⟩ | ⟨-, same | already | rfl | ⟨rfl, directory⟩⟩
        · exact absurd before fresh
        · exact same ▸ known
        · exact already
        · exact target own made
        · exact moved own made directory
  | unlinkRemove mdata =>
      obtain ⟨next, removed, result⟩ := bind_eq_ok.mp result
      obtain rfl := Except.ok.inj result
      obtain ⟨linked, leaf⟩ := legal
      obtain ⟨nextTree, shrinks, gone⟩ := unlinkRemove_shrinks isTree linked leaf removed
      refine ⟨nextTree, holds.after (fun _ _ _ => Or.inr rfl)
        fun id own there before made known => Or.inl ?_⟩
      exact unlinkRemove_known removed (fun same => gone (same ▸ there)) known

omit [DecidableEq Hash] in
theorem start_populated (env : Env Hash) (st : Stat) :
    IsTree (start env st).fs ∧ (start env st).PopulatedAfterRead := by
  refine ⟨(format_isTree env st).1, fun id names linked made known => ?_⟩
  have isRoot : id = rootId := List.mem_singleton.mp linked
  rw [isRoot, start, Shape.format_root] at known
  exact absurd rfl known

omit [DecidableEq Hash] in
/-- In a run from a new metadata file, in which reads fail or not, the entries of
the source that have a `child` have been read, if nothing is linked to one that
has not. -/
theorem populated_after_read (env : Env Hash) (st : Stat) (events : List ReadEvent)
    (conditions : EachStep (step env)
      (fun state event => state.Legal event ∧ state.LinksAfterRead env event) (start env st)
      events) :
    Throughout (step env) PopulatedAfterRead (fun _ => True) (start env st) events := by
  have enough : forall state : ReadFs Hash, IsTree state.fs ∧ state.PopulatedAfterRead ->
      state.PopulatedAfterRead := fun state holds => holds.2
  refine Throughout.ofInvariant enough (fun state event last holds condition result => ?_)
    (fun _ _ _ _ _ _ => trivial) (start_populated env st) conditions
  exact step_populated holds.1 holds.2 condition.1 condition.2 result

/-! ## The sections of a call -/

/-- These sections, each of which is legal, lead from one metadata file to the
other. -/
def Sections (env : Env Hash) (fs : Fs Hash) (events : List ReadEvent) (next : Fs Hash) : Prop :=
  forall state : ReadFs Hash, state.fs = fs -> Exists fun last =>
    events.foldlM (step env) state = .ok last ∧ last.fs = next ∧
      EachStep (step env) (fun state event => state.Legal event) state events

omit [DecidableEq Hash] in
theorem Sections.trans {fs middle next : Fs Hash} {events more : List ReadEvent}
    (one : Sections env fs events middle) (two : Sections env middle more next) :
    Sections env fs (events ++ more) next := by
  intro state same
  obtain ⟨between, first, reached, legal⟩ := one state same
  obtain ⟨last, second, ends, further⟩ := two between reached
  refine ⟨last, ?_, ends, legal.append first further⟩
  rw [List.foldlM_append, first]
  exact second

omit [DecidableEq Hash] in
theorem Sections.one {fs next : Fs Hash} (event : ReadEvent)
    (legal : forall state : ReadFs Hash, state.fs = fs -> state.Legal event)
    (taken : forall state : ReadFs Hash, state.fs = fs -> Exists fun last =>
      state.step env event = .ok last ∧ last.fs = next) :
    Sections env fs [event] next := by
  intro state same
  obtain ⟨last, result, ends⟩ := taken state same
  refine ⟨last, ?_, ends, legal state same, ?_⟩
  · rw [List.foldlM_cons, result]
    rfl
  · rw [result]
    trivial

omit [DecidableEq Hash] in
theorem Populated.sections {fs next : Fs Hash} (populated : Populated env fs next) :
    Exists fun events => Sections env fs events next := by
  induction populated with
  | refl => exact ⟨[], fun state same => ⟨state, rfl, same, trivial⟩⟩
  | @step middle next father child _ linked read inductionHypothesis =>
      obtain ⟨events, before⟩ := inductionHypothesis
      refine ⟨_, before.trans (.one (.getChild father) (fun _ _ => trivial) ?_)⟩
      rintro state rfl
      refine ⟨state.after next (state.reading env state.fs father), ?_, rfl⟩
      rw [ReadFs.step, if_pos linked, read]
      rfl

/-- The calls that the sections are those of. -/
def Covered : TreeCall -> Prop
  | .removeChildren _ => False
  | .populateVops => False
  | _ => True

/-- Each call consists of sections. -/
theorem run_sections {fs next : Fs Hash} {call : TreeCall} (covered : Covered call)
    (isTree : IsTree fs) (noLinks : NoLinks fs) (legal : call.Legal env fs)
    (leaf : call.Leaf env fs) (result : call.run env fs = .ok next) :
    Exists fun events => Sections env fs events next := by
  cases call with
  | findLocked path =>
      obtain ⟨id, found⟩ := map_snd_eq_ok.mp result
      exact Populated.sections (findLocked_populated isTree found).1
  | getChild father =>
      simp only [TreeCall.run] at result
      split at result
      · next linked =>
          obtain ⟨child, read⟩ := map_snd_eq_ok.mp result
          exact Populated.sections (.step .refl linked read)
      · exact Populated.sections (Except.ok.inj result ▸ .refl)
  | makeEntry context path mode rdev =>
      obtain ⟨code, made⟩ := map_snd_eq_ok.mp result
      obtain ⟨-, populated⟩ | ⟨-, father, lname, middle, populated, linked, rfl⟩ :=
        makeEntry_cases isTree made
      · exact Populated.sections populated
      · obtain ⟨events, before⟩ := Populated.sections populated
        refine ⟨_, before.trans (.one (.makeChild context father lname mode rdev)
          (fun _ _ => trivial) ?_)⟩
        rintro state rfl
        exact ⟨state.after _ none, if_pos linked, rfl⟩
  | rmdirUnlink path isDir =>
      obtain ⟨code, gone⟩ := map_snd_eq_ok.mp result
      obtain ⟨found, id, lookup, middle, populated, ⟨-, rfl⟩ | ⟨-, linked, removed, type⟩⟩ :=
        rmdirUnlink_cases isTree noLinks gone
      · exact Populated.sections populated
      · have none : middle.first id = 0 := by
          cases isDir with
          | true => exact type
          | false =>
              obtain ⟨rfl, type⟩ := type
              exact leaf id middle rfl lookup type
        obtain ⟨events, before⟩ := Populated.sections populated
        refine ⟨_, before.trans (.one (.unlinkRemove id) ?_ ?_)⟩
        · rintro state rfl
          exact ⟨linked, none⟩
        · rintro state rfl
          refine ⟨state.after next Option.none, ?_, rfl⟩
          rw [ReadFs.step, removed]
          rfl
  | renameEntry path target =>
      obtain ⟨code, renamed⟩ := map_snd_eq_ok.mp result
      rcases renameEntry_cases isTree renamed with
        ⟨-, populated⟩ | ⟨mdata, mtarget, lname, middle, finds, moved⟩
      · exact Populated.sections populated
      · obtain ⟨populated, linked, targetLinked⟩ := finds.populated isTree
        have apart := legal mdata mtarget lname middle finds
        obtain ⟨events, before⟩ := Populated.sections populated
        refine ⟨_, before.trans (.one (.moveEntry mdata mtarget lname) ?_ ?_)⟩
        · rintro state rfl
          exact ⟨linked, targetLinked, apart⟩
        · rintro state rfl
          refine ⟨state.after next (state.reading env next mdata), ?_, rfl⟩
          rw [ReadFs.step, moved]
          rfl
  | removeChildren metadata => exact covered.elim
  | populateVops => exact covered.elim

end Runs

/-! ## A directory that cannot be read for a while -/

/-- A source with a directory that cannot be read at first. -/
def lateDirectory : Env UInt32 :=
  { emptySource with
    source := fun reads names =>
      if names = [] then some [(ascii "d", directoryStat)]
      else if names = [ascii "d"] ∧ 2 ≤ reads then
        some [(ascii "y", { Stat.zero with st_mode := S_IFREG })]
      else none }

/-- A lookup that reads the root and then the directory. -/
theorem populated_after_read_lookup :
    Throughout (step lateDirectory) PopulatedAfterRead (fun _ => True)
      (start lateDirectory directoryStat) [.getChild rootId, .getChild 2] := by
  refine populated_after_read lateDirectory directoryStat _ ?_
  have evaluated : (do
      let first := start lateDirectory directoryStat
      let second ← first.step lateDirectory (.getChild rootId)
      return [first.reading lateDirectory first.fs rootId,
        second.reading lateDirectory second.fs 2] : Except Fault (List (Option (Id × List Component)))) =
      .ok [some (rootId, []), none] := by decide +kernel
  obtain ⟨second, read, rest⟩ := bind_eq_ok.mp evaluated
  simp only [pure, Except.pure, Except.ok.injEq, List.cons.injEq, and_true] at rest
  obtain ⟨root, below⟩ := rest
  refine ⟨⟨trivial, fun names own reading made => ?_⟩, ?_⟩
  · obtain ⟨-, rfl⟩ := Prod.mk.inj (Option.some.inj (root.symm.trans reading))
    have same : some [] = some own := made
    exact Option.some.inj same
  · rw [read]
    refine ⟨⟨trivial, fun names own reading made => ?_⟩, ?_⟩
    · rw [below] at reading
      cases reading
    · split <;> trivial

/-- A directory that cannot be read gets a new child. -/
def madeUnread : List ReadEvent :=
  [.getChild rootId, .getChild 2, .makeChild ⟨0, 0, 0⟩ 2 (ascii "x") S_IFREG 0]

/-- After `mknod /d/x` the directory counts as read, and `/d/y` is not found when
it is there. -/
theorem made_in_unread :
    EachStep (step lateDirectory) (fun state event => state.Legal event)
        (start lateDirectory directoryStat) madeUnread ∧
      ¬ Throughout (step lateDirectory) PopulatedAfterRead (fun _ => True)
        (start lateDirectory directoryStat) madeUnread ∧
      (do
        let fs ← TreeCall.run lateDirectory (Fs.format lateDirectory directoryStat)
          (.makeEntry ⟨0, 0, 0⟩ (ascii "/d/x") S_IFREG 0)
        let (id, fs) ← fs.findLocked lateDirectory (ascii "/d/y")
        return [id, fs.reads]) = .ok [0, 2] ∧
      lateDirectory.source 2 [ascii "d"] =
        some [(ascii "y", { Stat.zero with st_mode := S_IFREG })] := by
  refine ⟨.ofAll (fun event member state => ?_) _, fun throughout => ?_, by decide +kernel,
    by decide⟩
  · simp only [madeUnread, List.mem_cons, List.not_mem_nil, or_false] at member
    rcases member with rfl | rfl | rfl <;> trivial
  · have evaluated : (do
        let last ← madeUnread.foldlM (step lateDirectory) (start lateDirectory directoryStat)
        return (last.source 2, [decide (2 ∈ last.fs.index),
          decide ((last.fs.entries 2).child = .unread), last.read 2]) :
          Except Fault (Option (List Component) × List Bool)) =
        .ok (some [ascii "d"], [true, false, false]) := by decide +kernel
    obtain ⟨last, run, rest⟩ := bind_eq_ok.mp evaluated
    simp only [pure, Except.pure, Except.ok.injEq, Prod.mk.injEq, List.cons.injEq, and_true,
      decide_eq_true_eq, decide_eq_false_iff_not] at rest
    obtain ⟨made, linked, known, unread⟩ := rest
    have populated := throughout.final run 2 _ linked made known
    rw [unread] at populated
    cases populated

end ReadFs

end Metadata
end Mcachefs
