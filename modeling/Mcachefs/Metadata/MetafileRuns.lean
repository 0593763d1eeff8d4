import Mcachefs.Metadata.MetafileBlocks
import Mcachefs.Metadata.Partition

namespace Mcachefs
namespace MetadataMap

open Library Metadata

/-!
# Runs on the metafile

The metafile is opened, its entries are read, changed, allocated and removed, blocks are
released at the end of each locked section, and the program ends and another one opens the
file again.  What all of them see is the image.
-/

variable {Hash : Type} {metafile : Metafile Hash} {image : Image Hash}

theorem Image.Frees.used_root {free : List Id} (frees : image.Frees free)
    (root : rootId < image.alloced_nb) : image.Used rootId :=
  frees.used_iff.mpr ⟨le_rfl, root, fun member =>
    absurd (frees.range _ member).1 (lt_irrefl rootId)⟩

/-! ## Releasing blocks -/

section Release

variable (forceUnmap : Bool) (ttl now : Int)

/-- A cell after `mcachefs_metadata_release_all`. -/
def Cell.released (cell : Cell) : Cell :=
  if Metafile.Stale forceUnmap ttl now cell then { cell with map := none } else cell

theorem releaseBlocks_eq (cells : List Cell) :
    Metafile.releaseBlocks forceUnmap ttl now cells.length cells =
      .ok (cells.map (Cell.released forceUnmap ttl now),
        (cells.countP fun cell => decide (Metafile.Stale forceUnmap ttl now cell) : Nat)) := by
  induction cells with
  | nil => rfl
  | cons cell cells inductionHypothesis =>
      rw [List.length_cons, Metafile.releaseBlocks, inductionHypothesis]
      simp only [Except.map, List.map_cons, Cell.released, List.countP_cons]
      by_cases stale : Metafile.Stale forceUnmap ttl now cell
      · simp only [stale, decide_true, if_true, Nat.cast_add, Nat.cast_one]
      · simp only [stale, decide_false, Bool.false_eq_true, if_false, Nat.add_zero]

theorem countP_released (cells : List Cell) :
    (cells.map (Cell.released forceUnmap ttl now)).countP (fun cell => cell.map.isSome) +
        cells.countP (fun cell => decide (Metafile.Stale forceUnmap ttl now cell)) =
      cells.countP fun cell => cell.map.isSome := by
  induction cells with
  | nil => rfl
  | cons cell cells inductionHypothesis =>
      have one : (if (cell.released forceUnmap ttl now).map.isSome then 1 else 0) +
          (if decide (Metafile.Stale forceUnmap ttl now cell) then 1 else 0) =
            if cell.map.isSome then 1 else 0 := by
        by_cases stale : Metafile.Stale forceUnmap ttl now cell
        · have mapped := Option.isSome_iff_ne_none.mpr stale.1
          simp [Cell.released, stale, mapped]
        · simp [Cell.released, stale]
      simp only [List.map_cons, List.countP_cons]
      omega

theorem Cell.released_map (cell : Cell) :
    (cell.released forceUnmap ttl now).map = none ∨
      (cell.released forceUnmap ttl now).map = cell.map := by
  unfold Cell.released
  split
  · exact Or.inl rfl
  · exact Or.inr rfl

/-- What `mcachefs_metadata_release_all` does to the map. -/
theorem Mapped.releaseAll (mapped : Mapped metafile image) :
    Exists fun next => metafile.releaseAll forceUnmap ttl now = .ok next ∧ Mapped next image ∧
      next.file = metafile.file ∧
      (if forceUnmap = false ∧ now - ttl ≤ metafile.last_release then next = metafile
      else next.metadata_map = metafile.metadata_map.map (Cell.released forceUnmap ttl now) ∧
        next.last_release = now) := by
  unfold Metafile.releaseAll
  by_cases early : forceUnmap = false ∧ now - ttl ≤ metafile.last_release
  · rw [if_pos early]
    exact ⟨metafile, rfl, mapped, rfl, (if_pos early).mpr rfl⟩
  · rw [if_neg early, mapped.holds.alloced_nb, ← mapped.length, releaseBlocks_eq]
    refine ⟨_, rfl, mapped.remap rfl (List.length_map ..) (fun block cell here => ?_) ?_, rfl,
      (if_neg early).mpr ⟨rfl, rfl⟩⟩
    · simp only [List.getElem?_map] at here
      obtain ⟨old, there, rfl⟩ := Option.map_eq_some_iff.mp here
      rcases old.released_map forceUnmap ttl now with gone | same
      · exact Or.inl gone
      · rw [same]
        exact mapped.cells block old there
    · have counted := countP_released forceUnmap ttl now metafile.metadata_map
      simp only [mapped.count]
      omega

/-- Closing unmaps all of it. -/
theorem Mapped.close (mapped : Mapped metafile image) :
    Exists fun last_release => metafile.close ttl now =
      .ok ⟨some metafile.file, 0, last_release⟩ := by
  obtain ⟨next, result, own, file, cells, -⟩ := mapped.releaseAll true ttl now
  refine ⟨next.last_release, ?_⟩
  have none : next.metadata_map.countP (fun cell => cell.map.isSome) = 0 := by
    rw [List.countP_eq_zero, cells]
    intro cell member
    obtain ⟨old, -, rfl⟩ := List.mem_map.mp member
    unfold Cell.released
    split
    · exact Bool.false_ne_true
    · next kept =>
        have unmapped : old.map = Option.none := not_not.mp fun mapped => kept ⟨mapped, Or.inl rfl⟩
        rw [unmapped]
        exact Bool.false_ne_true
  rw [Metafile.close, result]
  simp only [Except.map, file, own.count, none]
  rfl

end Release

/-! ## Opening -/

/-- No open file in one entry. -/
def Fields.closed (fields : Fields Hash) : Fields Hash :=
  { fields with entry := { fields.entry with fh := 0 } }

theorem Keeps.closed {free : List Id} (frees : image.Frees free) (id : Nat)
    (above : rootId ≤ id) (inside : id < image.alloced_nb) :
    (image.modify id Fields.closed).Frees free ∧ Keeps image (image.modify id Fields.closed) ∧
      (image.modify id Fields.closed).resetFh = image.resetFh := by
  have next : (image.modify id Fields.closed).next = image.next := by
    funext other
    by_cases same : other = id
    · simp only [Image.next, Image.modify, same, Function.update_self]
      rfl
    · simp only [Image.next, Image.modify, Function.update_of_ne same]
  have still : (image.modify id Fields.closed).Frees free :=
    ⟨next ▸ frees.list, frees.range⟩
  have reset : (image.modify id Fields.closed).resetFh = image.resetFh := by
    have fields : (image.modify id Fields.closed).resetFh.fields = image.resetFh.fields := by
      funext other
      by_cases same : other = id
      · subst same
        have inRange : rootId ≤ other ∧ other < image.alloced_nb := ⟨above, inside⟩
        simp only [Image.resetFh, Image.modify, Function.update_self]
        rw [if_pos inRange, if_pos inRange]
        rfl
      · simp only [Image.resetFh, Image.modify, Function.update_of_ne same]
    simp only [Image.resetFh] at fields ⊢
    rw [fields]
    rfl
  refine ⟨still, ⟨rfl, fun other => ?_, fun other _ => congrFun (congrArg Image.fields reset) other⟩,
    reset⟩
  rw [still.used_iff, frees.used_iff]
  rfl

/-- The loop of `mcachefs_metadata_reset_fh`. -/
theorem Mapped.resetFhs (sys : Sys) (now : Int) (count first : Nat) {metafile : Metafile Hash}
    {image : Image Hash} (mapped : Mapped metafile image) {free : List Id}
    (frees : image.Frees free) (above : rootId ≤ first)
    (inside : first + count ≤ image.alloced_nb) :
    Ends (Left sys image)
      (fun next => Exists fun after => Mapped next after ∧ after.Frees free ∧
        after.resetFh = image.resetFh ∧ after.alloced_nb = image.alloced_nb ∧
        (forall id, first ≤ id -> id < first + count ->
          (after.fields id).entry.fh = 0) ∧
        (forall id, id < first -> after.fields id = image.fields id))
      (metafile.resetFhs sys now (List.range' first count)) := by
  induction count generalizing first metafile image with
  | zero =>
      exact ⟨image, mapped, frees, rfl, rfl, fun id lower upper => absurd upper (by omega),
        fun _ _ => rfl⟩
  | succ count inductionHypothesis =>
      have below : first < image.alloced_nb := by omega
      obtain ⟨still, keeps, reset⟩ := Keeps.closed frees first above below
      rw [List.range'_succ, Metafile.resetFhs]
      refine Ends.bind ((mapped.put sys now _ Fields.closed rfl above below).weaken
        fun file exits => mapped.left frees exits) fun middle own => ?_
      refine (inductionHypothesis (first + 1) own still (Nat.le_succ_of_le above) (by
        show first + 1 + count ≤ image.alloced_nb
        omega)).mono ?_ ?_
      · rintro file ⟨failed, part, after, rfl, holds, sound, kept⟩
        exact ⟨failed, part, after, rfl, holds, sound, keeps.trans kept⟩
      · rintro next ⟨after, there, list, again, alloced_nb, closed, before⟩
        refine ⟨after, there, list, again.trans reset, alloced_nb, fun id lower upper => ?_,
          fun id early => ?_⟩
        · by_cases same : id = first
          · rw [same, before first (Nat.lt_succ_self first)]
            simp only [Image.modify, Function.update_self]
            rfl
          · exact closed id (by omega) (by omega)
        · rw [before id (Nat.lt_succ_of_lt early)]
          exact Function.update_of_ne (Nat.ne_of_lt early) _ _

theorem Image.resetFh_eq_self
    (closed : forall id, rootId ≤ id -> id < image.alloced_nb -> (image.fields id).entry.fh = 0) :
    image.resetFh = image := by
  have fields : image.resetFh.fields = image.fields := by
    funext id
    simp only [Image.resetFh]
    split
    · next range =>
        have zero := closed id range.1 range.2
        calc
          _ = { image.fields id with entry :=
                { (image.fields id).entry with fh := (image.fields id).entry.fh } } := by rw [zero]
          _ = image.fields id := rfl
    · rfl
  calc
    image.resetFh = { image with fields := image.resetFh.fields } := rfl
    _ = image := by rw [fields]

theorem Mapped.resetFh (mapped : Mapped metafile image) {free : List Id}
    (frees : image.Frees free) (sys : Sys) (now : Int) :
    Ends (Left sys image) (fun next => Mapped next image.resetFh) (metafile.resetFh sys now) := by
  have root := mapped.holds.root
  have whole : rootId + (image.alloced_nb - rootId) = image.alloced_nb :=
    Nat.add_sub_cancel' root.le
  rw [Metafile.resetFh, mapped.holds.alloced_nb]
  refine (mapped.resetFhs sys now _ rootId frees le_rfl whole.le).mono (fun _ exits => exits) ?_
  rintro next ⟨after, there, -, reset, alloced_nb, closed, -⟩
  have same : after.resetFh = after := Image.resetFh_eq_self fun id above inside =>
    closed id above (inside.trans_eq (alloced_nb.trans whole.symm))
  rwa [← reset, same]

/-- A file that is mapped for the first time. -/
theorem Holds.opened {file : File Hash} (holds : Holds file image) {free : List Id}
    (frees : image.Frees free) (sys : Sys) (now last_release : Int) :
    Ends (Left sys image) (fun next => Mapped next image.resetFh) (do
      if sys.mmapsHead then
        let metafile : Metafile Hash := ⟨file, [], 0, last_release⟩
        let metafile ← metafile.resizeMap
        metafile.resetFh sys now
      else .error (.exit (some file))) := by
  by_cases mmaps : sys.mmapsHead = true
  · rw [if_pos mmaps]
    have none : forall (block : Nat) cell, ([] : List Cell)[block]? = some cell ->
        cell.map = Option.none ∨ cell.map = some block := by
      intro block cell here
      cases here
    let fresh : Metafile Hash := ⟨file, [], 0, last_release⟩
    have same : Holds fresh.file image := holds
    obtain ⟨resized, result, own, -⟩ := Mapped.resizeMap same (Nat.zero_le _) none rfl
    dsimp only
    rw [result]
    exact own.resetFh frees sys now
  · rw [if_neg mmaps]
    exact ⟨fun fine => mmaps fine.mmapsHead, file, image, rfl, holds, ⟨free, frees⟩, .refl image⟩

/-- Where `mcachefs_metadata_format` ends the program: before it has written anything, or with
the head written and an entry still missing. -/
def FormatExits (sys : Sys) (file : File Hash) (left : Option (File Hash)) : Prop :=
  Exists fun part => left = some part ∧
    (sys.pwrites 0 = false ∧ part = file ∨
      sys.pwrites 0 = true ∧ part.head = Head.formatted ∧ HEAD_BYTES ≤ part.size ∧
      (sys.source = none ∨ Exists fun stop => stop < BLOCK_ENTRY_COUNT ∧
        sys.pwrites stop = false) ∧
      Exists fun missing : Nat => rootId ≤ missing ∧ missing < BLOCK_ENTRY_COUNT ∧
        part.slots missing = file.slots missing)

theorem FormatExits.not_fine {sys : Sys} {file : File Hash} {left : Option (File Hash)}
    (exits : FormatExits sys file left) : ¬ sys.Fine := by
  intro fine
  obtain ⟨part, -, ⟨failed, -⟩ | ⟨-, -, -, none | ⟨stop, -, failed⟩, -⟩⟩ := exits
  · exact Bool.false_ne_true (failed.symm.trans (fine.pwrites 0))
  · exact fine.source none
  · exact Bool.false_ne_true (failed.symm.trans (fine.pwrites stop))

section Entries

variable [Inhabited Hash]

/-- A file with the entries of an image is opened as it is, but that no entry has an open file, if
its head can be read. -/
theorem Holds.openMetafile {file : File Hash} (holds : Holds file image) {free : List Id}
    (frees : image.Frees free) (env : Env Hash) {sys : Sys} (reads : sys.reads = true)
    (now last_release : Int) :
    Ends (Left sys image) (fun next => Mapped next image.resetFh)
      (Metafile.openMetafile env sys now ⟨some file, 0, last_release⟩) := by
  obtain ⟨stats, preads⟩ := Bool.and_eq_true_iff.mp reads
  have some : file.size ≠ 0 := (Nat.lt_of_lt_of_le (by decide) holds.valid.1).ne'
  have present : (Option.some file).filter (fun file => file.size ≠ 0) = Option.some file := by
    simp [Option.filter, some]
  rw [Metafile.openMetafile, Metafile.openFile]
  simp only [stats, if_true, present, if_pos (And.intro preads holds.valid)]
  by_cases opens : sys.opens = true
  · rw [if_pos opens]
    exact holds.opened frees sys now last_release
  · rw [if_neg opens]
    exact ⟨fun fine => opens fine.opens, file, image, rfl, holds, ⟨free, frees⟩, .refl image⟩

/-- The head of a formatted file is accepted. -/
theorem formatted_magic : strcmpEqual Head.formatted.magic METADATA_MAGIC = some true := by
  decide +kernel

/-- `mcachefs_metadata_format` overwrites whatever the file has. -/
theorem File.format_holds (env : Env Hash) (sys : Sys) (file : File Hash) :
    Ends (FormatExits sys file)
      (fun next => Exists fun st => sys.source = some st ∧ Holds next (Image.format env st) ∧
        forall id : Nat, id < BLOCK_ENTRY_COUNT -> sys.pwrites id = true)
      (file.format env sys) := by
  rw [File.format]
  by_cases head : sys.pwrites 0 = true
  · rw [if_pos head]
    cases source : sys.source with
    | none =>
        exact ⟨_, rfl, Or.inr ⟨head, rfl, Nat.le_max_right _ _, Or.inl source, rootId, le_rfl,
          by decide, rfl⟩⟩
    | some st =>
        by_cases root : sys.pwrites rootId = true
        · simp only [if_pos root, File.extendFreeEntries]
          refine (formatEntries_ends sys BLOCK_ENTRY_COUNT (BLOCK_ENTRY_COUNT - 2) 2 _).mono ?_ ?_
          · rintro left ⟨stop, above, below, failed, part, rfl, same, slots, size⟩
            refine ⟨part, rfl, Or.inr ⟨head, same, (Nat.le_max_right _ _).trans
              ((Nat.le_max_left _ _).trans size), Or.inr ⟨stop, below, failed⟩, stop,
              Nat.le_of_succ_le above, below, ?_⟩⟩
            rw [slots stop (Or.inr le_rfl), File.pwrite]
            exact Function.update_of_ne (Nat.ne_of_gt above) _ _
          · rintro next ⟨same, slots, size, whole, others⟩
            refine ⟨st, rfl, ⟨⟨?_, ?_⟩, ?_, ?_, ?_, fun id above inside => ?_, whole (by decide),
              Nat.dvd_refl _, (by decide : rootId < BLOCK_ENTRY_COUNT)⟩, fun id below => ?_⟩
            · exact (Nat.le_max_right _ _).trans ((Nat.le_max_left _ _).trans size)
            · exact (congrArg (fun head : Head => strcmpEqual head.magic METADATA_MAGIC) same).trans
                formatted_magic
            · exact congrArg Head.alloced_nb same
            · exact congrArg Head.first_free same
            · exact congrArg Head.hash_root same
            · refine (slots id).trans ?_
              have last : 2 + (BLOCK_ENTRY_COUNT - 2) = BLOCK_ENTRY_COUNT := rfl
              simp only [Image.format, Image.extend, last]
              by_cases free : 2 ≤ id ∧ id < BLOCK_ENTRY_COUNT
              · rw [if_pos free, if_pos free]
              · have isRoot : id = rootId :=
                  (Nat.eq_or_lt_of_le above).elim Eq.symm fun more => absurd ⟨more, inside⟩ free
                rw [if_neg free, if_neg free, isRoot, Function.update_self]
                exact Function.update_self rootId
                  (⟨rootId, Fs.rootEntry env st, .zero⟩ : Slot Hash) file.slots
            · by_cases isHead : id = 0
              · exact isHead ▸ head
              by_cases isRoot : id = rootId
              · exact isRoot ▸ root
              · have above : rootId < id :=
                  Nat.lt_of_le_of_ne (Nat.pos_of_ne_zero isHead) (Ne.symm isRoot)
                exact others id above below
        · simp only [if_neg root]
          exact ⟨_, rfl, Or.inr ⟨head, rfl, Nat.le_max_right _ _,
            Or.inr ⟨rootId, by decide, Bool.eq_false_iff.mpr root⟩, rootId, le_rfl, by decide, rfl⟩⟩
  · rw [if_neg head]
    exact ⟨file, rfl, Or.inl ⟨Bool.eq_false_iff.mpr head, rfl⟩⟩

theorem Image.format_frees (env : Env Hash) (st : Stat) :
    (Image.format env st).Frees (List.range' 2 (BLOCK_ENTRY_COUNT - 2)) := by
  let rest : Fs Hash := Fs.format env st
  have list := Shape.extendFreeEntries_list 2 (BLOCK_ENTRY_COUNT - 3)
    (Image.fs { fields := Function.update (fun _ => .free 0) rootId ⟨Fs.rootEntry env st, .zero⟩
                alloced_nb := BLOCK_ENTRY_COUNT, first_free := 2, hash_root := 1 } rest) (by decide)
  rw [← Image.fs_extend] at list
  refine ⟨list, fun id member => ?_⟩
  have range := List.mem_range'_1.mp member
  exact ⟨range.1, range.2⟩

theorem Image.format_closed (env : Env Hash) (st : Stat) :
    (Image.format env st).resetFh = Image.format env st := by
  refine Image.resetFh_eq_self fun id _ _ => ?_
  simp only [Image.format, Image.extend]
  split
  · rfl
  · by_cases same : id = rootId
    · rw [same, Function.update_self]
      rfl
    · rw [Function.update_of_ne same]
      rfl

theorem formatFile_holds (env : Env Hash) (sys : Sys) (file : File Hash) :
    Ends (fun _ => ¬ sys.Fine)
      (fun next => Exists fun st => sys.source = some st ∧ Holds next (Image.format env st))
      (Metafile.formatFile env sys file) := by
  rw [Metafile.formatFile]
  refine Ends.bind ((file.format_holds env sys).weaken fun left exits => exits.not_fine) ?_
  rintro next ⟨st, source, holds, -⟩
  by_cases fstats : sys.fstats = true
  · rw [if_pos fstats]
    exact ⟨st, source, holds⟩
  · rw [if_neg fstats]
    exact fun fine => fstats fine.fstats

/-- A file that is not there, cannot be read or is not one of this format, is formatted. -/
theorem openMetafile_formats (env : Env Hash) (sys : Sys) (now last_release : Int)
    {file : Option (File Hash)}
    (other : sys.reads = true -> forall part, file = some part ->
      part.size = 0 ∨ ¬ Metafile.Valid part) :
    Ends (fun _ => ¬ sys.Fine)
      (fun next => Exists fun st => sys.source = some st ∧ Mapped next (Image.format env st))
      (Metafile.openMetafile env sys now ⟨file, 0, last_release⟩) := by
  rw [Metafile.openMetafile]
  by_cases opens : sys.opens = true
  · obtain ⟨base, formats⟩ : Exists fun base : File Hash =>
        Metafile.openFile env sys file = Metafile.formatFile env sys base := by
      unfold Metafile.openFile
      split
      · next part seen =>
          refine ⟨part, (if_pos opens).trans (if_neg ?_)⟩
          rintro ⟨preads, valid⟩
          split at seen
          · next stats =>
              obtain ⟨same, some⟩ := Option.filter_eq_some_iff.mp seen
              have present : part.size ≠ 0 := by simpa using some
              exact (other (Bool.and_eq_true_iff.mpr ⟨stats, preads⟩) part same).elim present
                fun invalid => invalid valid
          · cases seen
      · exact ⟨_, if_pos opens⟩
    dsimp only
    rw [formats]
    refine (formatFile_holds env sys base).bind ?_
    rintro part ⟨st, source, holds⟩
    refine (holds.opened (Image.format_frees env st) sys now last_release).mono
      (fun file left => left.1) fun next own => ⟨st, source, ?_⟩
    rwa [Image.format_closed] at own
  · have exits : Exists fun left =>
        Metafile.openFile env sys file = .error (.exit left) := by
      unfold Metafile.openFile
      split
      · exact ⟨_, if_neg opens⟩
      · exact ⟨_, if_neg opens⟩
    obtain ⟨left, exits⟩ := exits
    rw [exits]
    exact fun fine => opens fine.opens

/-- Either way, a file with the entries of an image. -/
theorem Holds.reopen {file : File Hash} (holds : Holds file image) {free : List Id}
    (frees : image.Frees free) (env : Env Hash) (sys : Sys) (now last_release : Int) :
    Ends (fun left => ¬ sys.Fine ∧ (sys.reads = true -> Left sys image left))
      (fun next => if sys.reads then Mapped next image.resetFh
        else Exists fun st => sys.source = some st ∧ Mapped next (Image.format env st))
      (Metafile.openMetafile env sys now ⟨some file, 0, last_release⟩) := by
  by_cases reads : sys.reads = true
  · simp only [if_pos reads]
    exact (holds.openMetafile frees env reads now last_release).weaken
      fun left exits => ⟨exits.1, fun _ => exits⟩
  · simp only [if_neg reads]
    exact (openMetafile_formats env sys now last_release fun possible => absurd possible reads).weaken
      fun left failed => ⟨failed, fun possible => absurd possible reads⟩

/-! ## Events -/

/-- What the rest of the program does with the metafile. -/
inductive Action (Hash : Type)
  /-- `mcachefs_metadata_do_get`, to read the entry. -/
  | get (id : Id)
  /-- The same, to change the entry. -/
  | put (id : Id) (change : Fields Hash -> Fields Hash)
  | setHashRoot (id : Id)
  | allocate
  | remove (id : Id)
  /-- `mcachefs_metadata_unlock`. -/
  | unlock
  /-- The program ends, and starts again. -/
  | remount
  | flush (truncates unlinks : Bool)

/-- An action, what the system calls do in it, the clock, and `metadata_map_ttl`. -/
structure Event (Hash : Type) where
  action : Action Hash
  sys : Sys
  now : Int
  ttl : Int

/-- What an action returns. -/
inductive Result (Hash : Type)
  | done
  | slot (slot : Slot Hash)
  | id (id : Id)

/-- One event. -/
def Event.step (env : Env Hash) (event : Event Hash) (metafile : Metafile Hash) :
    Except (Stop Hash) (Result Hash × Metafile Hash) :=
  let sys := event.sys
  let now := event.now
  match event.action with
  | .get id => (metafile.get sys now id).map fun (slot, metafile) => (.slot slot, metafile)
  | .put id change =>
      (metafile.put sys now id fun slot => { slot with fields := change slot.fields }).map (.done, ·)
  | .setHashRoot id =>
      (metafile.get sys now id).map fun (newroot, metafile) =>
        (.done, metafile.setHead fun head => { head with hash_root := newroot.id })
  | .allocate => (metafile.allocate sys now).map fun (id, metafile) => (.id id, metafile)
  | .remove id => (metafile.remove sys now id).map (.done, ·)
  | .unlock => (Metafile.faulty (metafile.releaseAll false event.ttl now)).map (.done, ·)
  | .remount => (Metafile.openMetafile env sys now ⟨some metafile.file, 0, 0⟩).map (.done, ·)
  | .flush truncates unlinks =>
      (metafile.flush env sys truncates unlinks event.ttl now).map (.done, ·)

/-- The metafile is thrown away, or cannot be read. -/
def Event.discards (event : Event Hash) : Bool :=
  match event.action with
  | .remount => !event.sys.reads
  | .flush truncates unlinks => truncates || unlinks || !event.sys.reads
  | _ => false

/-- What is there when the metafile is opened again. -/
def Image.reopen (env : Env Hash) (source : Option Stat) (discards : Bool) (image : Image Hash) :
    Result Hash × Image Hash :=
  if discards then
    match source with
    | some st => (.done, Image.format env st)
    | none => (.done, image)
  else (.done, image.resetFh)

/-- The same event on the image. -/
def Image.step (env : Env Hash) (event : Event Hash) (image : Image Hash) :
    Result Hash × Image Hash :=
  match event.action with
  | .get id => (.slot ⟨id, image.fields id⟩, image)
  | .put id change => (.done, image.modify id change)
  | .setHashRoot id => (.done, { image with hash_root := id })
  | .allocate => (.id image.allocate.1, image.allocate.2)
  | .remove id => (.done, image.remove id)
  | .unlock => (.done, image)
  | .remount | .flush _ _ => image.reopen env event.sys.source event.discards

/-- Entries are read where there are any, and changed and removed while they are in use. -/
def Image.Allows (image : Image Hash) (event : Event Hash) : Prop :=
  match event.action with
  | .get id => rootId ≤ id ∧ id < image.alloced_nb
  | .put id _ => image.Used id
  | .setHashRoot id => image.Used id
  | .remove id => image.Used id ∧ id ≠ rootId
  | _ => True

/-- The events of a run. -/
def Metafile.run (env : Env Hash) : List (Event Hash) -> Metafile Hash ->
    Except (Stop Hash) (List (Result Hash) × Metafile Hash)
  | [], metafile => .ok ([], metafile)
  | event :: events, metafile => do
      let (result, metafile) ← event.step env metafile
      let (results, metafile) ← run env events metafile
      return (result :: results, metafile)

def Image.run (env : Env Hash) : List (Event Hash) -> Image Hash ->
    List (Result Hash) × Image Hash
  | [], image => ([], image)
  | event :: events, image =>
      let (result, image) := image.step env event
      let (results, image) := run env events image
      (result :: results, image)

def Image.AllowsAll (env : Env Hash) : Image Hash -> List (Event Hash) -> Prop
  | _, [] => True
  | image, event :: events => image.Allows event ∧ AllowsAll env (image.step env event).2 events

/-! ## Steps -/

theorem Mapped.flush (mapped : Mapped metafile image) {free : List Id} (frees : image.Frees free)
    (env : Env Hash) (sys : Sys) (truncates unlinks : Bool) (ttl now : Int) :
    Ends (fun file => ¬ sys.Fine ∧
        ((truncates || unlinks || !sys.reads) = false -> Left sys image file))
      (fun next => if truncates || unlinks || !sys.reads then
        Exists fun st => sys.source = some st ∧ Mapped next (Image.format env st)
        else Mapped next image.resetFh)
      (metafile.flush env sys truncates unlinks ttl now) := by
  obtain ⟨last_release, closed⟩ := mapped.close ttl now
  rw [Metafile.flush, closed]
  cases unlinks with
  | true =>
      have gone : sys.reads = true -> forall part, (none : Option (File Hash)) = some part ->
          part.size = 0 ∨ ¬ Metafile.Valid part := by
        intro _ part there
        cases there
      simp only [Bool.or_true, Bool.true_or, if_true, Bool.true_eq_false, false_implies, and_true]
      exact openMetafile_formats env sys now last_release gone
  | false =>
      cases truncates with
      | true =>
          have emptied : sys.reads = true -> forall part,
              some { metafile.file with size := 0 } = some part ->
                part.size = 0 ∨ ¬ Metafile.Valid part := by
            intro _ part there
            exact Or.inl (congrArg File.size (Option.some.inj there)).symm
          simp only [Bool.true_or, if_true, Bool.true_eq_false, false_implies, and_true]
          exact openMetafile_formats env sys now last_release emptied
      | false =>
          refine (mapped.holds.reopen frees env sys now last_release).mono
            (fun file left => ⟨left.1, fun kept => left.2 ?_⟩) fun next own => ?_
          · simpa using kept
          · cases reads : sys.reads with
            | true =>
                rw [reads] at own
                exact own
            | false =>
                rw [reads] at own
                exact own

theorem Image.Frees.remove {free : List Id} (frees : image.Frees free) {id : Id}
    (apart : id ∉ free) (above : rootId < id) (inside : id < image.alloced_nb) :
    (image.remove id).Frees (id :: free) := by
  have next : (image.remove id).next = Function.update image.next id image.first_free := by
    funext other
    by_cases same : other = id
    · simp only [Image.next, Image.remove, Image.modify, same, Function.update_self]
      rfl
    · simp only [Image.next, Image.remove, Image.modify, Function.update_of_ne same]
  refine ⟨next ▸ frees.list.push (Nat.zero_lt_of_lt above).ne' apart, fun other member => ?_⟩
  rcases List.mem_cons.mp member with rfl | old
  · exact ⟨above, inside⟩
  · exact frees.range other old

theorem Image.Frees.allocate {free : List Id} (frees : image.Frees free)
    (root : rootId < image.alloced_nb) :
    Exists fun others => image.grow.Frees (image.allocate.1 :: others) ∧
      image.allocate.2.Frees others := by
  obtain ⟨others, grown, present, -⟩ := frees.grow root
  cases others with
  | nil => exact absurd grown.list.nil_inv present
  | cons id others =>
      obtain ⟨first, -, rest⟩ := grown.list.cons_inv
      have same : image.allocate.1 = id := first
      refine ⟨others, same ▸ grown, ?_, fun other member => ?_⟩
      · rw [← first] at rest
        exact rest
      · exact grown.range other (List.mem_cons_of_mem _ member)

/-- An exit in one event. -/
def Event.Exits (event : Event Hash) (image : Image Hash) (file : Option (File Hash)) : Prop :=
  ¬ event.sys.Fine ∧ (event.discards = false -> Left event.sys image file)

/-- Each event does to the mapped file what it does to the image. -/
theorem Mapped.step (mapped : Mapped metafile image) {free : List Id} (frees : image.Frees free)
    (env : Env Hash) (event : Event Hash) (allows : image.Allows event) :
    Ends (event.Exits image)
      (fun (result, next) => result = (image.step env event).1 ∧
        Mapped next (image.step env event).2 ∧ Exists (image.step env event).2.Frees)
      (event.step env metafile) := by
  obtain ⟨action, sys, now, ttl⟩ := event
  have kept {file : Option (File Hash)} (exits : Unmapped sys metafile.file file) :
      ¬ sys.Fine ∧ (false = false -> Left sys image file) :=
    have left := mapped.left frees exits
    ⟨left.1, fun _ => left⟩
  have reopened {next : Metafile Hash} {away : Bool}
      (opened : if away then Exists fun st => sys.source = some st ∧
          Mapped next (Image.format env st)
        else Mapped next image.resetFh) :
      Result.done = (image.reopen env sys.source away).1 ∧
        Mapped next (image.reopen env sys.source away).2 ∧
        Exists (image.reopen env sys.source away).2.Frees := by
    cases away with
    | true =>
        obtain ⟨st, source, own⟩ := opened
        simp only [Image.reopen, if_true, source]
        exact ⟨trivial, own, _, Image.format_frees env st⟩
    | false => exact ⟨rfl, opened, free, frees.resetFh⟩
  cases action with
  | get id =>
      obtain ⟨above, inside⟩ := allows
      refine ((mapped.get sys now above inside).weaken fun _ => kept).map ?_
      rintro ⟨slot, next⟩ ⟨rfl, own, -⟩
      exact ⟨rfl, own, free, frees⟩
  | put id change =>
      obtain ⟨above, inside, apart⟩ := frees.used_iff.mp allows
      refine ((mapped.put sys now _ change rfl above inside).weaken fun _ => kept).map ?_
      exact fun next own => ⟨rfl, own, free, frees.modify apart change⟩
  | setHashRoot id =>
      obtain ⟨above, inside, -⟩ := frees.used_iff.mp allows
      refine ((mapped.get sys now above inside).weaken fun _ => kept).map ?_
      rintro ⟨slot, next⟩ ⟨rfl, own, -⟩
      exact ⟨rfl, own.setHead _ rfl ⟨own.holds.alloced_nb, own.holds.first_free, rfl⟩ rfl rfl,
        free, frees.list, frees.range⟩
  | allocate =>
      refine ((mapped.allocate frees sys now).weaken
        fun file left => ⟨left.1, fun _ => left⟩).map ?_
      rintro ⟨id, next⟩ ⟨rfl, own⟩
      obtain ⟨others, -, rest⟩ := frees.allocate mapped.holds.root
      exact ⟨rfl, own, others, rest⟩
  | remove id =>
      obtain ⟨inUse, notRoot⟩ := allows
      obtain ⟨above, inside, apart⟩ := frees.used_iff.mp inUse
      refine ((mapped.remove sys now above inside).weaken fun _ => kept).map ?_
      exact fun next own =>
        ⟨rfl, own, _, frees.remove apart (Nat.lt_of_le_of_ne above notRoot.symm) inside⟩
  | unlock =>
      obtain ⟨next, result, own, -, -⟩ := mapped.releaseAll false ttl now
      simp only [Event.step, result]
      exact ⟨rfl, own, free, frees⟩
  | remount =>
      refine ((mapped.holds.reopen frees env sys now 0).weaken
        fun file exits => ⟨exits.1, fun keeps => exits.2 (by simpa [Event.discards] using keeps)⟩).map ?_
      intro next opened
      refine reopened ?_
      show if (!sys.reads) = true then _ else _
      cases reads : sys.reads with
      | true =>
          rw [reads] at opened
          exact opened
      | false =>
          rw [reads] at opened
          exact opened
  | flush truncates unlinks =>
      refine (mapped.flush frees env sys truncates unlinks ttl now).map ?_
      intro next flushed
      exact reopened flushed

/-! ## Runs -/

/-- An exit in one event of a run. -/
def RunExits (env : Env Hash) (image : Image Hash) (events : List (Event Hash))
    (file : Option (File Hash)) : Prop :=
  Exists fun before => Exists fun event => Exists fun rest => events = before ++ event :: rest ∧
    event.Exits (image.run env before).2 file

theorem RunExits.not_fine {env : Env Hash} {events : List (Event Hash)} {file : Option (File Hash)}
    (exits : RunExits env image events file) :
    Exists fun event => event ∈ events ∧ ¬ event.sys.Fine := by
  obtain ⟨before, event, rest, rfl, failed, -⟩ := exits
  exact ⟨event, List.mem_append_right _ List.mem_cons_self, failed⟩

/-- In a whole run every event returns what it returns on the image. -/
theorem Mapped.run (env : Env Hash) (events : List (Event Hash)) {metafile : Metafile Hash}
    {image : Image Hash} (mapped : Mapped metafile image) (frees : Exists image.Frees)
    (legal : image.AllowsAll env events) :
    Ends (RunExits env image events)
      (fun (results, last) => results = (image.run env events).1 ∧
        Mapped last (image.run env events).2 ∧ Exists (image.run env events).2.Frees)
      (metafile.run env events) := by
  induction events generalizing metafile image with
  | nil => exact ⟨rfl, mapped, frees⟩
  | cons event events inductionHypothesis =>
      obtain ⟨allows, later⟩ := legal
      obtain ⟨free, list⟩ := frees
      rw [Metafile.run]
      refine Ends.bind ((mapped.step list env event allows).weaken fun file exits =>
        ⟨[], event, events, rfl, exits⟩) ?_
      rintro ⟨result, middle⟩ ⟨rfl, own, still⟩
      refine Ends.bind ((inductionHypothesis own still later).weaken ?_) ?_
      · rintro file ⟨before, other, rest, rfl, exits⟩
        exact ⟨event :: before, other, rest, rfl, exits⟩
      · rintro ⟨results, last⟩ ⟨rfl, there, lists⟩
        exact ⟨rfl, there, lists⟩

/-- From the first time the metafile is opened, and whatever is mapped when, no entry is read or
written out of bounds, `metadata_map` and its count are exact, and what the program reads is what
it wrote, in this mount or in one before it, as long as each mount could read the metafile. -/
theorem opened_run (env : Env Hash) (sys : Sys) (now last_release : Int) {file : Option (File Hash)}
    (other : forall part, file = some part -> part.size = 0 ∨ ¬ Metafile.Valid part)
    (events : List (Event Hash))
    (legal : forall st, sys.source = some st -> (Image.format env st).AllowsAll env events) :
    Ends (fun _ => ¬ sys.Fine ∨ Exists fun event => event ∈ events ∧ ¬ event.sys.Fine)
      (fun (results, last) => Exists fun st => sys.source = some st ∧
        results = ((Image.format env st).run env events).1 ∧
        Mapped last ((Image.format env st).run env events).2)
      (do
        let metafile ← Metafile.openMetafile env sys now ⟨file, 0, last_release⟩
        metafile.run env events) := by
  refine Ends.bind ((openMetafile_formats env sys now last_release fun _ => other).weaken
    fun _ failed => Or.inl failed) ?_
  rintro metafile ⟨st, source, mapped⟩
  refine (mapped.run env events ⟨_, Image.format_frees env st⟩ (legal st source)).mono ?_ ?_
  · exact fun left exits => Or.inr exits.not_fine
  · rintro ⟨results, last⟩ ⟨same, own, -⟩
    exact ⟨st, source, same, own⟩

/-- All system calls succeed, and the source is a directory. -/
@[irreducible] def workingCalls : Sys where
  stats := true
  opens := true
  preads := true
  pwrites _ := true
  fstats := true
  mmapsHead := true
  mmaps _ := true
  source := some directoryStat

theorem workingCalls_source : workingCalls.source = some directoryStat := by
  unfold workingCalls
  rfl

theorem workingCalls_fine : workingCalls.Fine := by
  unfold workingCalls
  exact ⟨rfl, rfl, fun _ => rfl, rfl, rfl, fun _ => rfl, fun absent => by cases absent⟩

/-- A first mount in which the root gets an open file and an entry is allocated, and a second one
that reads both. -/
def mountedTwice : List (Event UInt32) :=
  [⟨.put rootId fun fields => { fields with entry := { fields.entry with fh := 7 } },
      workingCalls, 1, 60⟩,
    ⟨.allocate, workingCalls, 2, 60⟩, ⟨.unlock, workingCalls, 100, 60⟩,
    ⟨.remount, workingCalls, 5, 60⟩, ⟨.get rootId, workingCalls, 6, 60⟩,
    ⟨.get 2, workingCalls, 7, 60⟩]

theorem mountedTwice_allowed (st : Stat) :
    (Image.format emptySource st).AllowsAll emptySource mountedTwice := by
  have root := (Image.format_frees emptySource st).used_root (by decide : rootId < BLOCK_ENTRY_COUNT)
  have remount : forall image : Image UInt32,
      (image.step emptySource ⟨.remount, workingCalls, 5, 60⟩).2 = image.resetFh := by
    intro image
    simp only [Image.step, Image.reopen, Event.discards, workingCalls_fine.reads]
    rfl
  simp only [mountedTwice, Image.AllowsAll, remount]
  exact ⟨root, trivial, trivial, trivial, ⟨le_rfl, (by decide : rootId < BLOCK_ENTRY_COUNT)⟩,
    ⟨(by decide : rootId ≤ 2), (by decide : 2 < BLOCK_ENTRY_COUNT)⟩, trivial⟩

theorem no_file : forall part, (none : Option (File UInt32)) = some part ->
    part.size = 0 ∨ ¬ Metafile.Valid part := by
  intro part absent
  cases absent

theorem opened_run_mountedTwice :
    Ends (fun _ => ¬ workingCalls.Fine ∨ Exists fun event => event ∈ mountedTwice ∧
        ¬ event.sys.Fine)
      (fun (results, last) => Exists fun st => workingCalls.source = some st ∧
        results = ((Image.format emptySource st).run emptySource mountedTwice).1 ∧
        Mapped last ((Image.format emptySource st).run emptySource mountedTwice).2)
      (do
        let metafile ← Metafile.openMetafile emptySource workingCalls 0 ⟨none, 0, 0⟩
        metafile.run emptySource mountedTwice) :=
  opened_run emptySource workingCalls 0 0 no_file mountedTwice fun st _ => mountedTwice_allowed st

/-! ## After an exit -/

/-- A failed system call may end the program in any event that neither throws the metafile away nor
formats over what it cannot read: the next mount finds the entries that were in use. -/
theorem exit_reopens (env : Env Hash) (events : List (Event Hash)) {metafile : Metafile Hash}
    {image : Image Hash} (mapped : Mapped metafile image) (frees : Exists image.Frees)
    (legal : image.AllowsAll env events)
    (keeping : forall event, event ∈ events -> event.discards = false)
    {file : Option (File Hash)} (exits : metafile.run env events = .error (.exit file))
    {again : Sys} (fine : again.Fine) (now : Int) :
    Exists fun before => before <+: events ∧
      Exists fun next => Exists fun after =>
        Metafile.openMetafile env again now ⟨file, 0, 0⟩ = .ok next ∧ Mapped next after ∧
          Exists after.Frees ∧ Keeps (image.run env before).2 after := by
  have run := mapped.run env events frees legal
  rw [exits] at run
  obtain ⟨before, event, rest, rfl, -, left⟩ := run
  obtain ⟨-, part, after, rfl, holds, ⟨free, list⟩, keeps⟩ :=
    left (keeping event (List.mem_append_right _ List.mem_cons_self))
  refine ⟨before, List.prefix_append _ _, ?_⟩
  obtain ⟨next, opened, own⟩ :=
    (holds.openMetafile list env fine.reads now 0).succeeds fun _ left => left.1 fine
  exact ⟨next, after.resetFh, opened, own, ⟨free, list.resetFh⟩, keeps.trans (.resetFh list)⟩

end Entries

theorem workingCalls_opened : Exists fun metafile =>
    Metafile.openMetafile emptySource workingCalls 0 ⟨none, 0, 0⟩ = .ok metafile ∧
      Mapped metafile (Image.format emptySource directoryStat) := by
  obtain ⟨metafile, opened, st, source, mapped⟩ :=
    (openMetafile_formats emptySource workingCalls 0 0 fun _ => no_file).succeeds fun _ failed =>
      failed workingCalls_fine
  obtain rfl := Option.some.inj (source.symm.trans workingCalls_source)
  exact ⟨metafile, opened, mapped⟩

/-- One block of entries, none of them free. -/
def fullImage : Image UInt32 where
  fields _ := ⟨{ (Entry.zero : Entry UInt32) with d_name := ascii "x" }, .zero⟩
  alloced_nb := BLOCK_ENTRY_COUNT
  first_free := 0
  hash_root := rootId

/-- It is on the disk, and its block is not mapped. -/
def fullMetafile : Metafile UInt32 where
  file := ⟨{ Head.formatted with first_free := 0 }, fun id => ⟨id, fullImage.fields id⟩,
    ENTRY_SIZE * BLOCK_ENTRY_COUNT⟩
  metadata_map := [⟨none, 0⟩]
  metadata_map_mmap_count := 0
  last_release := 0

theorem fullMetafile_mapped : Mapped fullMetafile fullImage where
  holds := ⟨⟨by decide, formatted_magic⟩, rfl, rfl, rfl, fun _ _ _ => rfl, by decide,
    Nat.dvd_refl _, (by decide : rootId < BLOCK_ENTRY_COUNT)⟩
  length := rfl
  cells block cell here := by
    rw [List.mem_singleton.mp (List.mem_of_getElem? here)]
    exact Or.inl rfl
  count := rfl

theorem fullImage_frees : fullImage.Frees [] := ⟨.nil _, fun _ member => by cases member⟩

/-- A store to the root, and an allocation for which the disk becomes full. -/
def storedAndGrown : List (Event UInt32) :=
  [⟨.put rootId fun fields => { fields with entry := { fields.entry with fh := 7 } },
      workingCalls, 1, 60⟩,
    ⟨.allocate, { workingCalls with pwrites := fun id => id ≠ 300 }, 2, 60⟩]

/-- The program ends when 44 of the new entries are written. -/
theorem exit_reopens_growing : Exists fun file => Exists fun before => Exists fun next =>
    Exists fun after =>
      fullMetafile.run emptySource storedAndGrown = .error (.exit file) ∧
        before <+: storedAndGrown ∧
        Metafile.openMetafile emptySource workingCalls 9 ⟨file, 0, 0⟩ = .ok next ∧
        Mapped next after ∧ Keeps (fullImage.run emptySource before).2 after := by
  have exits : Exists fun file =>
      fullMetafile.run emptySource storedAndGrown = .error (.exit file) := by
    unfold storedAndGrown workingCalls
    exact ⟨_, rfl⟩
  obtain ⟨file, exits⟩ := exits
  have legal : fullImage.AllowsAll emptySource storedAndGrown :=
    ⟨fullImage_frees.used_root (by decide), trivial, trivial⟩
  have keeping : forall event, event ∈ storedAndGrown -> event.discards = false := by
    intro event member
    rcases List.mem_cons.mp member with rfl | member
    · rfl
    · rw [List.mem_singleton.mp member]
      rfl
  obtain ⟨before, front, next, after, again, own, -, keeps⟩ :=
    exit_reopens emptySource storedAndGrown fullMetafile_mapped ⟨_, fullImage_frees⟩ legal keeping
      exits workingCalls_fine 9
  exact ⟨file, before, next, after, exits, front, again, own, keeps⟩

end MetadataMap
end Mcachefs
