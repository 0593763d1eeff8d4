import Mcachefs.Metadata.Partition

namespace Mcachefs
namespace Metadata

open Library Transfer

/-!
# Filling a directory in the background

`mcachefs_metadata_fill_entry` reads a directory of the source without the
metadata lock, and adds what it has found when it has the lock again.  It is
therefore two calls, and `Filling` is what it keeps from the first to the second.

The second call looks only at the names of the children as they are then.  A name
that was removed since the directory was read first is added again.
-/

/-- What `mcachefs_metadata_fill_entry` keeps while it does not have the lock. -/
structure Filling where
  metaid : Id
  virgindir : Bool
  names : List (Component × Stat)
  deriving DecidableEq, Repr

/-- The entries that `mcachefs_metadata_browse_dir` returns. -/
def browseDir (des : List (Component × Stat)) : List (Component × Stat) :=
  des.filter fun de => ¬ (de.1 = dot ∨ de.1 = dotdot)

namespace Fs

variable {Hash : Type} [DecidableEq Hash] [Inhabited Hash] (env : Env Hash)

/-- `mcachefs_metadata_dir_get_child`. -/
def dirGetChild (father : Id) (d_name : Component) (fs : Fs Hash) : Except Fault Id :=
  fs.findSibling (fun child => (fs.entries child).d_name = d_name) env.fuel (fs.first father)

omit [DecidableEq Hash] [Inhabited Hash] in
/-- `mcachefs_fileid_get`; `file_add` is the place of a new open file, as
`mcachefs_file_add` gives it. -/
def fileidGet (file_add : Fs Hash -> Fh) (mdata : Id) (path : Option Path) (type : FileType)
    (fs : Fs Hash) : Except Fault (Fh × Fs Hash) :=
  let fh := (fs.entries mdata).fh
  if fh ≠ 0 then
    match fs.mfiles fh with
    | none => .error .noFile
    | some mfile =>
        if mfile.metadata_id ≠ mdata then .error .inconsistentId
        else if mfile.type ≠ type then .error .inconsistentType
        else
          let mfile := { mfile with use := mfile.use + 1 }
          .ok (fh, { fs with mfiles := Function.update fs.mfiles fh (some mfile) })
  else do
    let fh := file_add fs
    let fs := fs.modify mdata fun entry => { entry with fh := fh }
    let mypath ← path.elim (fs.getPath mdata) .ok
    let mfile := { Mfile.init mypath type with metadata_id := mdata }
    .ok (fh, { fs with mfiles := Function.update fs.mfiles fh (some mfile) })

/-- `mcachefs_metadata_schedule_fill_entry`; what it does to the queue is left
out. -/
def scheduleFillEntry (file_add : Fs Hash -> Fh) (metadata : Id) (fs : Fs Hash) :
    Except Fault (Fs Hash) :=
  Prod.snd <$> fs.fileidGet file_add metadata none .dir

/-- The loop of `mcachefs_metadata_schedule_fill_child_entries`. -/
def scheduleLoop (file_add : Fs Hash -> Fh) (mdata : Id) : (fuel : Nat) -> (child : Id) ->
    Fs Hash -> Except Fault (Fs Hash)
  | 0, _, _ => .error .fuel
  | fuel + 1, child, fs =>
      if child = 0 then .ok fs
      else do
        let skipped := mdata = rootId ∧ (fs.entries child).d_name = vopsName
        let fs ← (if (fs.entries child).st.isDir ∧ ¬ skipped then
          fs.scheduleFillEntry file_add child else .ok fs)
        scheduleLoop file_add mdata fuel (fs.next child) fs

/-- `mcachefs_metadata_schedule_fill_child_entries`. -/
def scheduleFillChildEntries (file_add : Fs Hash -> Fh) (mdata : Id) (fs : Fs Hash) :
    Except Fault (Fs Hash) := do
  let (child, fs) ← fs.getChild env mdata
  scheduleLoop file_add mdata env.fuel child fs

/-- `mcachefs_metadata_fill_entry` up to where it has read the directory.  One that
cannot be read may still have been opened; then no names are found. -/
def fillStart (opened : Bool) (metaid : Id) (fs : Fs Hash) :
    Except Fault (Option Filling × Fs Hash) :=
  if metaid = 0 then .error .nullPointer
  else do
    let virgindir := (fs.entries metaid).child = .unread
    let des ← fs.recurseOpen env metaid
    let fs := { fs with reads := fs.reads + 1 }
    if des = none ∧ opened = false then .ok (none, fs)
    else .ok (some ⟨metaid, virgindir, browseDir (des.getD [])⟩, fs)

/-- One turn of the loop over the names; `mcachefs_metadata_compare_entries` only
writes to the log. -/
def fillTurn (filling : Filling) (fs : Fs Hash) (name : Component × Stat) :
    Except Fault (Fs Hash) := do
  let existingmeta ←
    (if filling.virgindir then .ok 0 else fs.dirGetChild env filling.metaid name.1)
  if existingmeta ≠ 0 then .ok fs
  else
    let (newid, fs) := fs.allocate
    let fs := fs.modify newid fun entry => { entry with d_name := name.1, st := name.2 }
    .ok (fs.doAddChild env filling.metaid newid)

/-- `mcachefs_metadata_fill_entry` from where it has read the directory. -/
def fillEnd (file_add : Fs Hash -> Fh) (filling : Filling) (fs : Fs Hash) :
    Except Fault (Fs Hash) := do
  let fs ← filling.names.foldlM (fillTurn env filling) fs
  fs.scheduleFillChildEntries env file_add filling.metaid

/-- `mcachefs_metadata_fill_entry`, when no other call comes between. -/
def fillEntry (file_add : Fs Hash -> Fh) (opened : Bool) (metaid : Id) (fs : Fs Hash) :
    Except Fault (Fs Hash) := do
  match ← fs.fillStart env opened metaid with
  | (none, fs) => .ok fs
  | (some filling, fs) => fs.fillEnd env file_add filling

end Fs

variable {Hash : Type}

/-! ## Open files -/

/-- Nothing has changed but the open files of entries. -/
structure Opened (fs next : Fs Hash) : Prop where
  entries : forall id, next.entries id = { fs.entries id with fh := (next.entries id).fh }
  unlinked : forall id, id ∉ fs.index -> next.entries id = fs.entries id
  alloced_nb : next.alloced_nb = fs.alloced_nb
  first_free : next.first_free = fs.first_free
  index : next.index = fs.index
  reads : next.reads = fs.reads

namespace Opened

variable {fs middle next : Fs Hash}

theorem refl (fs : Fs Hash) : Opened fs fs :=
  ⟨fun _ => rfl, fun _ _ => rfl, rfl, rfl, rfl, rfl⟩

theorem trans (one : Opened fs middle) (two : Opened middle next) : Opened fs next := by
  refine ⟨fun id => ?_, fun id away => ?_, two.alloced_nb.trans one.alloced_nb,
    two.first_free.trans one.first_free, two.index.trans one.index, two.reads.trans one.reads⟩
  · have last := two.entries id
    rwa [one.entries id] at last
  · rw [two.unlinked id (one.index.symm ▸ away), one.unlinked id away]

theorem father (opened : Opened fs next) : next.father = fs.father :=
  funext fun id => (congrArg Entry.father (opened.entries id)).trans rfl

theorem next_eq (opened : Opened fs next) : next.next = fs.next :=
  funext fun id => (congrArg Entry.next (opened.entries id)).trans rfl

theorem child (opened : Opened fs next) (id : Id) :
    (next.entries id).child = (fs.entries id).child :=
  (congrArg Entry.child (opened.entries id)).trans rfl

theorem first (opened : Opened fs next) : next.first = fs.first :=
  funext fun id => congrArg Child.id (opened.child id)

theorem d_name (opened : Opened fs next) (id : Id) :
    (next.entries id).d_name = (fs.entries id).d_name :=
  (congrArg Entry.d_name (opened.entries id)).trans rfl

theorem tree [Inhabited Hash] {kids : Id -> List Id} {free : List Id} (opened : Opened fs next)
    (tree : Tree fs kids free) : Tree next kids free := by
  refine tree.congr opened.alloced_nb opened.first_free (.of_eq opened.index) (fun id _ => ?_)
    fun id member => opened.unlinked id fun linked => (tree.mem_index.mp linked).2.2 member
  rw [opened.father, opened.next_eq, opened.first]
  exact ⟨rfl, rfl, rfl⟩

theorem isTree [Inhabited Hash] (opened : Opened fs next) (isTree : IsTree fs) : IsTree next := by
  obtain ⟨kids, free, tree⟩ := isTree
  exact ⟨kids, free, opened.tree tree⟩

end Opened

section Open

variable {fs next : Fs Hash} {file_add : Fs Hash -> Fh} {mdata child : Id}

theorem fileidGet_opened {path : Option Path} {type : FileType} {fh : Fh}
    (linked : mdata ∈ fs.index) (result : fs.fileidGet file_add mdata path type = .ok (fh, next)) :
    Opened fs next := by
  unfold Fs.fileidGet at result
  simp only at result
  split at result
  · split at result
    · cases result
    · split at result
      · cases result
      · split at result
        · cases result
        · obtain ⟨-, rfl⟩ := Prod.mk.inj (Except.ok.inj result)
          exact ⟨fun _ => rfl, fun _ _ => rfl, rfl, rfl, rfl, rfl⟩
  · obtain ⟨mypath, -, result⟩ := bind_eq_ok.mp result
    obtain ⟨-, rfl⟩ := Prod.mk.inj (Except.ok.inj result)
    refine ⟨fun id => ?_, fun id away => ?_, rfl, rfl, rfl, rfl⟩
    · by_cases same : id = mdata
      · subst same
        simp only [modify_self]
      · simp only [modify_other same]
    · have apart : id ≠ mdata := fun same => away (by rw [same]; exact linked)
      exact Function.update_of_ne apart _ _

theorem scheduleFillEntry_opened (linked : mdata ∈ fs.index)
    (result : fs.scheduleFillEntry file_add mdata = .ok next) : Opened fs next := by
  unfold Fs.scheduleFillEntry at result
  cases got : fs.fileidGet file_add mdata none .dir with
  | error fault =>
      rw [got] at result
      cases result
  | ok both =>
      rw [got] at result
      obtain rfl := Except.ok.inj result
      exact fileidGet_opened linked got

theorem scheduleLoop_opened [Inhabited Hash] {fuel : Nat} (isTree : IsTree fs)
    (known : child = 0 ∨ child ∈ fs.index)
    (result : fs.scheduleLoop file_add mdata fuel child = .ok next) : Opened fs next := by
  induction fuel generalizing fs child with
  | zero => cases result
  | succ fuel inductionHypothesis =>
      unfold Fs.scheduleLoop at result
      split at result
      · exact Except.ok.inj result ▸ .refl _
      · next present =>
          have linked := known.resolve_left present
          obtain ⟨middle, scheduled, result⟩ := bind_eq_ok.mp result
          have step : Opened fs middle := by
            split at scheduled
            · exact scheduleFillEntry_opened linked scheduled
            · exact Except.ok.inj scheduled ▸ .refl _
          refine step.trans (inductionHypothesis (step.isTree isTree) ?_ result)
          rw [step.next_eq, step.index]
          by_cases last : fs.next child = 0
          · exact Or.inl last
          · exact Or.inr (isTree.sibling linked last).1

end Open

/-! ## Names of children -/

/-- A directory has a child of this name. -/
def HasName (fs : Fs Hash) (father : Id) (name : Component) : Prop :=
  Exists fun child => Forest.Reaches fs.first fs.next rootId child ∧ child ≠ rootId ∧
    fs.father child = father ∧ (fs.entries child).d_name = name

section Names

variable [Inhabited Hash] {env : Env Hash} {fs next : Fs Hash} {father metaid : Id}
  {name : Component}

/-- In a tree the index has what the links lead to. -/
theorem IsTree.reaches_iff (isTree : IsTree fs) {id : Id} :
    Forest.Reaches fs.first fs.next rootId id ↔ id ∈ fs.index := by
  obtain ⟨kids, free, tree⟩ := isTree
  rw [tree.mem_index]
  exact tree.shape.forest.reaches_iff tree.shape.root (fun id _ => or_iff_left (nomatch ·))
    tree.shape.rootNext id

theorem IsTree.hasName_iff (isTree : IsTree fs) :
    HasName fs father name ↔ Exists fun child => child ∈ fs.index ∧ child ≠ rootId ∧
      fs.father child = father ∧ (fs.entries child).d_name = name :=
  exists_congr fun _ => and_congr_left fun _ => isTree.reaches_iff

theorem Opened.hasName (opened : Opened fs next) (isTree : IsTree fs) :
    HasName next father name ↔ HasName fs father name := by
  rw [(opened.isTree isTree).hasName_iff, isTree.hasName_iff]
  simp only [opened.index, opened.father, opened.d_name]

/-- A new entry leaves the others where they are. -/
theorem Added.placed {kids : Id -> List Id} {free rest : List Id} {id old : Id} {st : Stat}
    {child : Child} (added : Added env fs kids free father id name st child next rest)
    (oldNode : Node fs free old) : next.father old = fs.father old ∧
      (next.entries old).d_name = (fs.entries old).d_name := by
  rw [Fs.father, Fs.father]
  by_cases same : old = father
  · subst same
    rw [added.above]
    exact ⟨rfl, rfl⟩
  · rw [added.kept old oldNode same]
    exact ⟨rfl, rfl⟩

/-- A new entry adds its name to its father. -/
theorem Added.hasName {kids : Id -> List Id} {free rest : List Id} {id other : Id}
    {fresh : Component} {st : Stat} {child : Child} (tree : Tree fs kids free)
    (added : Added env fs kids free father id fresh st child next rest) :
    HasName next other name ↔ HasName fs other name ∨ other = father ∧ name = fresh := by
  have isTree : IsTree fs := ⟨kids, free, tree⟩
  have nextTree : IsTree next := ⟨_, rest, added.tree⟩
  rw [nextTree.hasName_iff, isTree.hasName_iff]
  constructor
  · rintro ⟨child, linked, notRoot, above, named⟩
    rcases (added.nodes child).mp (added.tree.mem_index.mp linked) with old | rfl
    · obtain ⟨sameFather, sameName⟩ := added.placed old
      exact Or.inl ⟨child, tree.mem_index.mpr old, notRoot, sameFather.symm.trans above,
        sameName.symm.trans named⟩
    · rw [Fs.father, added.entry] at above
      rw [added.entry] at named
      exact Or.inr ⟨above.symm, named.symm⟩
  · rintro (⟨child, linked, notRoot, above, named⟩ | ⟨rfl, rfl⟩)
    · have old := tree.mem_index.mp linked
      obtain ⟨sameFather, sameName⟩ := added.placed old
      exact ⟨child, added.tree.mem_index.mpr ((added.nodes child).mpr (Or.inl old)), notRoot,
        sameFather.trans above, sameName.trans named⟩
    · refine ⟨id, added.tree.mem_index.mpr ((added.nodes id).mpr (Or.inr rfl)), fun isRoot => ?_,
        by rw [Fs.father, added.entry], by rw [added.entry]⟩
      exact added.fresh (isRoot ▸ tree.shape.root)

variable [DecidableEq Hash]

omit [DecidableEq Hash] in
/-- What `mcachefs_metadata_dir_get_child` finds. -/
theorem dirGetChild_hasName (isTree : IsTree fs) (linked : father ∈ fs.index) {found : Id}
    (present : found ≠ 0) (result : fs.dirGetChild env father name = .ok found) :
    HasName fs father name := by
  obtain ⟨foundLinked, notRoot, above, named⟩ :=
    (isTree.findSibling linked result).resolve_left present
  rw [isTree.hasName_iff]
  exact ⟨found, foundLinked, notRoot, above, of_decide_eq_true named⟩

omit [DecidableEq Hash] in
/-- One turn of the loop over the names. -/
theorem fillTurn_hasName {filling : Filling} {de : Component × Stat} (isTree : IsTree fs)
    (linked : filling.metaid ∈ fs.index) (result : fs.fillTurn env filling de = .ok next) :
    IsTree next ∧ filling.metaid ∈ next.index ∧
      ((fs.entries filling.metaid).child ≠ .unread ->
        (next.entries filling.metaid).child ≠ .unread) ∧
      forall other name, filling.virgindir = false ->
        (HasName next other name ↔
          HasName fs other name ∨ other = filling.metaid ∧ name = de.1) := by
  obtain ⟨existing, search, result⟩ := bind_eq_ok.mp result
  split at result
  · next present =>
      obtain rfl := Except.ok.inj result
      refine ⟨isTree, linked, fun known => known, fun other name checked => ?_⟩
      rw [checked, if_neg (by simp)] at search
      have there := dirGetChild_hasName isTree linked present search
      refine ⟨Or.inl, ?_⟩
      rintro (old | ⟨rfl, rfl⟩)
      · exact old
      · exact there
  · obtain ⟨kids, free, tree⟩ := isTree
    have isNode := tree.mem_index.mp linked
    obtain ⟨id, rest, taken, allocation, allocated⟩ := tree.shape.allocate
    rw [allocation] at result
    obtain rfl := Except.ok.inj result
    have added : Added env fs kids free filling.metaid id de.1 de.2 .unread
        ((taken.modify id fun entry => { entry with d_name := de.1, st := de.2 }).doAddChild env
          filling.metaid id) rest := allocated.doAddChild tree isNode rfl
    refine ⟨⟨_, rest, added.tree⟩,
      added.tree.mem_index.mpr ((added.nodes filling.metaid).mpr (Or.inl isNode)), fun _ => ?_,
      fun other name _ => added.hasName tree⟩
    rw [added.above]
    exact (nomatch ·)

omit [DecidableEq Hash] in
/-- The loop over the names. -/
theorem fillTurns_hasName {filling : Filling} {names : List (Component × Stat)}
    (isTree : IsTree fs) (linked : filling.metaid ∈ fs.index)
    (result : names.foldlM (Fs.fillTurn env filling) fs = .ok next) :
    IsTree next ∧ filling.metaid ∈ next.index ∧
      ((fs.entries filling.metaid).child ≠ .unread ->
        (next.entries filling.metaid).child ≠ .unread) ∧
      forall other name, filling.virgindir = false ->
        (HasName next other name ↔ HasName fs other name ∨
          other = filling.metaid ∧ Exists fun de => de ∈ names ∧ name = de.1) := by
  induction names generalizing fs with
  | nil =>
      obtain rfl := Except.ok.inj result
      exact ⟨isTree, linked, fun known => known, fun other name _ => by simp⟩
  | cons de names inductionHypothesis =>
      obtain ⟨middle, turn, result⟩ := bind_eq_ok.mp result
      obtain ⟨middleTree, middleLinked, middleKnown, middleNames⟩ :=
        fillTurn_hasName isTree linked turn
      obtain ⟨nextTree, nextLinked, known, nextNames⟩ :=
        inductionHypothesis middleTree middleLinked result
      refine ⟨nextTree, nextLinked, fun old => known (middleKnown old), fun other name checked => ?_⟩
      rw [nextNames other name checked, middleNames other name checked, or_assoc]
      simp only [List.mem_cons, exists_eq_or_imp, and_or_left]

omit [DecidableEq Hash] in
/-- Scheduling a populated directory opens children only. -/
theorem scheduleFillChildEntries_opened {file_add : Fs Hash -> Fh} (isTree : IsTree fs)
    (linked : metaid ∈ fs.index) (populated : (fs.entries metaid).child ≠ .unread)
    (result : fs.scheduleFillChildEntries env file_add metaid = .ok next) : Opened fs next := by
  obtain ⟨⟨child, middle⟩, read, result⟩ := bind_eq_ok.mp result
  have known : middle = fs ∧ child = fs.first metaid := by
    unfold Fs.getChild at read
    split at read
    · next empty =>
        obtain ⟨rfl, rfl⟩ := Prod.mk.inj (Except.ok.inj read)
        exact ⟨rfl, by rw [Fs.first, empty]; rfl⟩
    · next first =>
        obtain ⟨rfl, rfl⟩ := Prod.mk.inj (Except.ok.inj read)
        exact ⟨rfl, by rw [Fs.first, first]; rfl⟩
    · next unread => exact absurd unread populated
  obtain ⟨rfl, rfl⟩ := known
  refine scheduleLoop_opened isTree ?_ result
  by_cases none : middle.first metaid = 0
  · exact Or.inl none
  · exact Or.inr (isTree.first linked none).1

omit [DecidableEq Hash] in
/-- Filling a populated directory leaves the names of its children as they were
exactly when every name that the source has there is one of them. -/
theorem fillEntry_keeps_names_iff (file_add : Fs Hash -> Fh) (opened : Bool) (isTree : IsTree fs)
    (linked : metaid ∈ fs.index) (populated : (fs.entries metaid).child ≠ .unread)
    (result : fs.fillEntry env file_add opened metaid = .ok next) :
    (forall name, HasName next metaid name ↔ HasName fs metaid name) ↔
      forall names top des, fs.climb env.fuel metaid = some (names, top) ->
        env.source fs.reads names = some des -> forall de, de ∈ des -> de.1 ≠ dot ->
          de.1 ≠ dotdot -> HasName fs metaid de.1 := by
  obtain ⟨⟨filling, middle⟩, start, result⟩ := bind_eq_ok.mp result
  unfold Fs.fillStart at start
  rw [if_neg (isTree.ne_zero linked)] at start
  obtain ⟨answer, opening, start⟩ := bind_eq_ok.mp start
  unfold Fs.recurseOpen at opening
  split at opening
  · cases opening
  · next way top climbed =>
      obtain rfl := Except.ok.inj opening
      -- What the directory has is what the loop meets.
      have listed : forall names top des, fs.climb env.fuel metaid = some (names, top) ->
          env.source fs.reads names = some des -> env.source fs.reads way = some des := by
        intro names other des climbed' answered
        obtain ⟨rfl, rfl⟩ := Prod.mk.inj (Option.some.inj (climbed.symm.trans climbed'))
        exact answered
      simp only at start
      split at start
      · next failed =>
          obtain ⟨rfl, rfl⟩ := Prod.mk.inj (Except.ok.inj start)
          obtain rfl := Except.ok.inj result
          refine iff_of_true (fun name => Iff.rfl) fun names other des climbed' answered => ?_
          have here := listed names other des climbed' answered
          rw [failed.1] at here
          cases here
      · obtain ⟨rfl, rfl⟩ := Prod.mk.inj (Except.ok.inj start)
        obtain ⟨last, turns, schedule⟩ := bind_eq_ok.mp result
        have counted : IsTree { fs with reads := fs.reads + 1 } := by
          obtain ⟨kids, free, tree⟩ := isTree
          exact ⟨kids, free, tree.congr rfl rfl (.refl _) (fun _ _ => ⟨rfl, rfl, rfl⟩)
            fun _ _ => rfl⟩
        obtain ⟨lastTree, lastLinked, known, names⟩ := fillTurns_hasName counted linked turns
        have openings := scheduleFillChildEntries_opened lastTree lastLinked (known populated)
          schedule
        have checked : decide ((fs.entries metaid).child = .unread) = false :=
          decide_eq_false populated
        have after : forall name, HasName next metaid name ↔ HasName fs metaid name ∨
            Exists fun de => de ∈ browseDir ((env.source fs.reads way).getD []) ∧ name = de.1 := by
          intro name
          rw [openings.hasName lastTree, names metaid name checked]
          exact or_congr Iff.rfl (and_iff_right rfl)
        have met : forall de, de ∈ browseDir ((env.source fs.reads way).getD []) ↔
            Exists fun des => env.source fs.reads way = some des ∧ de ∈ des ∧ de.1 ≠ dot ∧
              de.1 ≠ dotdot := by
          intro de
          cases env.source fs.reads way with
          | none => simp [browseDir]
          | some des => simp [browseDir, not_or]
        constructor
        · intro same names other des climbed' answered de member notDot notDotdot
          refine (same de.1).mp ((after de.1).mpr (Or.inr ⟨de, (met de).mpr ?_, rfl⟩))
          exact ⟨des, listed names other des climbed' answered, member, notDot, notDotdot⟩
        · intro all name
          rw [after]
          refine ⟨?_, Or.inl⟩
          rintro (old | ⟨de, member, rfl⟩)
          · exact old
          · obtain ⟨des, answered, member, notDot, notDotdot⟩ := (met de).mp member
            exact all way top des climbed answered de member notDot notDotdot

end Names

/-! ## A removed name -/

/-- A source that has one regular file. -/
def oneFile : Env UInt32 :=
  { emptySource with
    source := fun _ names =>
      if names = [] then some [(ascii "a", { Stat.zero with st_mode := S_IFREG })] else some [] }

/-- Filling the root that has just been read. -/
theorem fillEntry_keeps_names_read :
    Exists fun fs => Exists fun next => fs.fillEntry oneFile (fun _ => 1) true rootId = .ok next ∧
      ((forall name, HasName next rootId name ↔ HasName fs rootId name) ↔
        forall names top des, fs.climb oneFile.fuel rootId = some (names, top) ->
          oneFile.source fs.reads names = some des -> forall de, de ∈ des -> de.1 ≠ dot ->
            de.1 ≠ dotdot -> HasName fs rootId de.1) := by
  have evaluated : (do
      let read ← (Fs.format oneFile directoryStat).getChild oneFile rootId
      let _ ← read.2.fillEntry oneFile (fun _ => 1) true rootId
      return decide ((read.2.entries rootId).child = .unread) : Except Fault Bool) = .ok false := by
    decide +kernel
  obtain ⟨⟨child, fs⟩, read, rest⟩ := bind_eq_ok.mp evaluated
  obtain ⟨next, filled, rest⟩ := bind_eq_ok.mp rest
  have formatTree := (format_isTree oneFile directoryStat).1
  have isTree := getChild_isTree formatTree formatTree.root read
  exact ⟨fs, next, filled, fillEntry_keeps_names_iff (fun _ => 1) true isTree isTree.root
    (of_decide_eq_false (Except.ok.inj rest)) filled⟩

/-- After `/a` was read and unlinked, filling the root adds it again. -/
theorem fill_adds_removed :
    Exists fun fs => Exists fun next =>
      (do
        let fs ← TreeCall.run oneFile (Fs.format oneFile directoryStat) (.getChild rootId)
        TreeCall.run oneFile fs (.rmdirUnlink (ascii "/a") false)) = .ok fs ∧
      fs.fillEntry oneFile (fun _ => 1) true rootId = .ok next ∧
      ¬ HasName fs rootId (ascii "a") ∧ HasName next rootId (ascii "a") := by
  have evaluated : (do
      let read ← TreeCall.run oneFile (Fs.format oneFile directoryStat) (.getChild rootId)
      let lookup ← read.findLocked oneFile (ascii "/a")
      let fs ← TreeCall.run oneFile read (.rmdirUnlink (ascii "/a") false)
      let next ← fs.fillEntry oneFile (fun _ => 1) true rootId
      return (lookup.2.first lookup.1, fs.index, next.first rootId, next.father 2,
        (next.entries 2).d_name) : Except Fault (Id × List Id × Id × Id × Component)) =
      .ok (0, [rootId], 2, rootId, ascii "a") := by decide +kernel
  obtain ⟨read, reading, rest⟩ := bind_eq_ok.mp evaluated
  obtain ⟨⟨mdata, found⟩, lookup, rest⟩ := bind_eq_ok.mp rest
  obtain ⟨fs, unlink, rest⟩ := bind_eq_ok.mp rest
  obtain ⟨next, filled, rest⟩ := bind_eq_ok.mp rest
  simp only [pure, Except.pure, Except.ok.injEq, Prod.mk.injEq] at rest
  obtain ⟨leaf, index, first, father, named⟩ := rest
  obtain ⟨formatTree, formatLinks⟩ := format_isTree oneFile directoryStat
  obtain ⟨readTree, readLinks⟩ :=
    TreeCall.run_isTree formatTree formatLinks (by trivial) (by trivial) reading
  have leaves : TreeCall.Leaf oneFile read (.rmdirUnlink (ascii "/a") false) := by
    intro id state _ lookup' _
    obtain ⟨rfl, rfl⟩ := Prod.mk.inj (Except.ok.inj (lookup.symm.trans lookup'))
    exact leaf
  obtain ⟨isTree, -⟩ := TreeCall.run_isTree readTree readLinks (by trivial) leaves unlink
  refine ⟨fs, next, by rw [reading]; exact unlink, filled, ?_, ?_⟩
  · rw [isTree.hasName_iff]
    rintro ⟨child, linked, notRoot, -⟩
    rw [index] at linked
    exact notRoot (List.mem_singleton.mp linked)
  · refine ⟨2, ?_, by decide, father, named⟩
    rw [← first]
    exact .child .root (by rw [first]; decide)

end Metadata
end Mcachefs
