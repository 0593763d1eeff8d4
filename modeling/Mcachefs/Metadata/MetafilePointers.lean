import Mcachefs.Metadata.MetafileMounts

namespace Mcachefs
namespace MetadataMap

open Library Metadata

/-!
# Pointers to entries, and the age of blocks

Blocks are unmapped when the lock is given back, and nowhere else but in a flush.  Up to
then a pointer to an entry leads there, also behind `mcachefs_metadata_allocate`, which may
move `metadata_map`.  A block that nobody uses goes at the latest after two times to live.
-/

variable {Hash : Type} {metafile middle next : Metafile Hash} {image : Image Hash}

/-- What can happen at one time while nothing is unmapped: each mapped block stays where it is, and
its time of use is now or what it was. -/
structure Within (now : Int) (metafile next : Metafile Hash) : Prop where
  kept : forall (place block : Id), metafile.metadata_map[place]?.bind Cell.map = some block ->
    next.metadata_map[place]?.bind Cell.map = some block
  size : metafile.file.size ≤ next.file.size
  aged : forall (place : Id) (cell : Cell), next.metadata_map[place]? = some cell ->
    cell.map ≠ none -> cell.last_used = now ∨ metafile.metadata_map[place]? = some cell
  last_release : next.last_release = metafile.last_release

namespace Within

variable {now : Int}

theorem refl (metafile : Metafile Hash) : Within now metafile metafile :=
  ⟨fun _ _ => id, le_rfl, fun _ _ here _ => Or.inr here, rfl⟩

theorem trans (one : Within now metafile middle) (two : Within now middle next) :
    Within now metafile next where
  kept place block here := two.kept place block (one.kept place block here)
  size := one.size.trans two.size
  aged place cell here mapped := by
    rcases two.aged place cell here mapped with used | before
    · exact Or.inl used
    · exact one.aged place cell before mapped
  last_release := two.last_release.trans one.last_release

/-- The map is the same. -/
theorem ofFile (map : next.metadata_map = metafile.metadata_map)
    (size : metafile.file.size ≤ next.file.size)
    (last_release : next.last_release = metafile.last_release) : Within now metafile next := by
  refine ⟨fun place block => ?_, size, fun place cell here _ => ?_, last_release⟩
  · rw [map]
    exact fun here => here
  · rw [map] at here
    exact Or.inr here

/-- A pointer leads where it led. -/
theorem leads (within : Within now metafile next) {pointer : Pointer} {id : Id}
    (leads : Leads pointer id metafile) : Leads pointer id next := by
  unfold Leads Metafile.place at leads ⊢
  cases here : metafile.metadata_map[pointer.block]?.bind Cell.map with
  | none =>
      rw [here] at leads
      cases leads
  | some block =>
      rw [here] at leads
      rw [within.kept pointer.block block here]
      simp only at leads ⊢
      split at leads
      · next page =>
          rw [if_pos (page.trans_le within.size)]
          exact leads
      · cases leads

end Within

theorem faulty_eq_ok {Value : Type} {result : Except MapFault Value} {value : Value} :
    (Metafile.faulty result : Except (Stop Hash) Value) = .ok value ↔ result = .ok value := by
  cases result with
  | error fault => exact ⟨fun done => (by cases done), fun done => (by cases done)⟩
  | ok other => exact ⟨fun done => congrArg _ (Except.ok.inj done),
      fun done => congrArg _ (Except.ok.inj done)⟩

/-! ## One event -/

section Within

variable {now : Int} {sys : Sys} {id : Id}

/-- The cell of a block after `mcachefs_metadata_do_get`. -/
theorem within_modifyCell {block : Id} {change : Cell -> Cell}
    (map : forall cell, metafile.metadata_map[block]? = some cell ->
      cell.map = none ∨ (change cell).map = cell.map)
    (used : forall cell, (change cell).last_used = now) :
    Within now metafile (metafile.modifyCell block change) := by
  refine ⟨fun place other here => ?_, le_rfl, fun place cell here mapped => ?_, rfl⟩
  · simp only [Metafile.modifyCell, List.getElem?_modify]
    obtain ⟨cell, there, whole⟩ := Option.bind_eq_some_iff.mp here
    simp only [there, Option.map_eq_map, Option.map_some, Option.bind_some]
    by_cases same : block = place
    · rw [if_pos same]
      have held := (map cell (same ▸ there)).resolve_left fun away => by
        rw [away] at whole
        cases whole
      exact held.trans whole
    · rw [if_neg same]
      exact whole
  · simp only [Metafile.modifyCell, List.getElem?_modify] at here
    obtain ⟨old, there, rfl⟩ := Option.map_eq_some_iff.mp here
    by_cases same : block = place
    · rw [if_pos same]
      exact Or.inl (used old)
    · rw [if_neg same]
      exact Or.inr there

theorem doGet_within {pointer : Option Pointer}
    (got : metafile.doGet sys now id = .ok (pointer, next)) : Within now metafile next := by
  unfold Metafile.doGet at got
  split at got
  · rw [← (Prod.mk.inj (Except.ok.inj got)).2]
    exact .refl metafile
  · simp only at got
    split at got
    · cases got
    · next cell here =>
        obtain ⟨middle, mapped, same⟩ := map_eq_ok got
        rw [← (Prod.mk.inj same).2]
        split at mapped
        · next away =>
            rw [Metafile.mmapBlock] at mapped
            split at mapped
            · obtain rfl := Except.ok.inj mapped
              have both : Within now metafile (metafile.modifyCell (id / BLOCK_ENTRY_COUNT)
                  fun _ => ⟨some (id / BLOCK_ENTRY_COUNT), now⟩) :=
                within_modifyCell (fun other there => Or.inl (by
                  rw [here] at there
                  rw [← Option.some.inj there, away])) fun _ => rfl
              obtain ⟨kept, size, aged, -⟩ := both
              simp only [Metafile.modifyCell, List.modify_modify_eq] at kept aged ⊢
              exact ⟨kept, size, aged, rfl⟩
            · cases mapped
        · obtain rfl := Except.ok.inj mapped
          exact within_modifyCell (fun _ _ => Or.inr rfl) fun _ => rfl

theorem read_within {id : Id} {slot : Slot Hash}
    (got : metafile.get sys now id = .ok (slot, next)) : Within now metafile next := by
  obtain ⟨⟨pointer, middle⟩, found, stored⟩ := bind_eq_ok.mp got
  cases pointer with
  | none => cases stored
  | some pointer =>
      obtain ⟨slot, read, same⟩ := bind_eq_ok.mp stored
      rw [← (Prod.mk.inj (Except.ok.inj same)).2]
      exact doGet_within found

theorem put_within {change : Slot Hash -> Slot Hash}
    (done : metafile.put sys now id change = .ok next) : Within now metafile next := by
  obtain ⟨⟨pointer, middle⟩, found, stored⟩ := bind_eq_ok.mp done
  cases pointer with
  | none => cases stored
  | some pointer =>
      obtain ⟨place, -, rfl⟩ := map_eq_ok (faulty_eq_ok.mp stored)
      exact (doGet_within found).trans (.ofFile rfl le_rfl rfl)

theorem resizeMap_within (done : metafile.resizeMap = .ok next) : Within now metafile next := by
  rw [Metafile.resizeMap] at done
  split at done
  · cases done
  · obtain rfl := Except.ok.inj done
    refine ⟨fun place block here => ?_, le_rfl, fun place cell here mapped => ?_, rfl⟩
    · obtain ⟨cell, there, whole⟩ := Option.bind_eq_some_iff.mp here
      have inside := (List.getElem?_eq_some_iff.mp there).1
      rw [List.getElem?_append_left inside]
      exact here
    · by_cases inside : place < metafile.metadata_map.length
      · rw [List.getElem?_append_left inside] at here
        exact Or.inr here
      · rw [List.getElem?_append_right (not_lt.mp inside)] at here
        rw [List.eq_of_mem_replicate (List.mem_of_getElem? here)] at mapped
        exact absurd rfl mapped

theorem allocate_within [Inhabited Hash] {id : Id}
    (done : metafile.allocate sys now = .ok (id, next)) : Within now metafile next := by
  obtain ⟨grown, grows, rest⟩ := bind_eq_ok.mp done
  have first : Within now metafile grown := by
    split at grows
    · obtain ⟨file, extended, resized⟩ := bind_eq_ok.mp grows
      have formatted := formatEntries_ends sys
        (metafile.file.head.alloced_nb + BLOCK_ENTRY_COUNT)
        (metafile.file.head.alloced_nb + BLOCK_ENTRY_COUNT - metafile.file.head.alloced_nb)
        metafile.file.head.alloced_nb metafile.file
      have longer := (formatted.returned extended).2.2.1
      refine Within.trans ?_ (resizeMap_within resized)
      exact .ofFile rfl longer rfl
    · obtain rfl := Except.ok.inj grows
      exact .refl metafile
  obtain ⟨⟨slot, last⟩, got, ends⟩ := bind_eq_ok.mp rest
  simp only at ends
  split at ends
  · cases ends
  · rw [← (Prod.mk.inj (Except.ok.inj ends)).2]
    exact first.trans ((read_within got).trans (.ofFile rfl le_rfl rfl))

theorem remove_within [Inhabited Hash] (done : metafile.remove sys now id = .ok next) :
    Within now metafile next := by
  obtain ⟨⟨slot, middle⟩, got, rest⟩ := bind_eq_ok.mp done
  obtain ⟨last, put, ends⟩ := bind_eq_ok.mp rest
  obtain rfl := Except.ok.inj ends
  exact (read_within got).trans ((put_within put).trans (.ofFile rfl le_rfl rfl))

/-- Nothing is unmapped in the event: it is in a section that holds the metadata lock. -/
def Event.inSection (event : Event Hash) : Bool :=
  match event.action with
  | .unlock | .remount | .flush _ _ => false
  | _ => true

theorem step_within [Inhabited Hash] {env : Env Hash} {event : Event Hash} {result : Result Hash}
    (locked : event.inSection = true) (done : event.step env metafile = .ok (result, next)) :
    Within event.now metafile next := by
  obtain ⟨action, sys, now, ttl⟩ := event
  cases action with
  | get id =>
      obtain ⟨⟨slot, last⟩, got, same⟩ := map_eq_ok done
      exact (Prod.mk.inj same).2 ▸ read_within got
  | put id change =>
      obtain ⟨last, put, same⟩ := map_eq_ok done
      exact (Prod.mk.inj same).2 ▸ put_within put
  | setHashRoot id =>
      obtain ⟨⟨slot, last⟩, got, same⟩ := map_eq_ok done
      exact (Prod.mk.inj same).2 ▸ (read_within got).trans (.ofFile rfl le_rfl rfl)
  | allocate =>
      obtain ⟨⟨id, last⟩, allocated, same⟩ := map_eq_ok done
      exact (Prod.mk.inj same).2 ▸ allocate_within allocated
  | remove id =>
      obtain ⟨last, removed, same⟩ := map_eq_ok done
      exact (Prod.mk.inj same).2 ▸ remove_within removed
  | unlock => cases locked
  | remount => cases locked
  | flush truncates unlinks => cases locked

end Within

/-! ## A locked section -/

section Sections

variable [Inhabited Hash] (env : Env Hash)

theorem Image.grow_alloced (image : Image Hash) : image.alloced_nb ≤ image.grow.alloced_nb := by
  unfold Image.grow
  split
  · exact Nat.le_add_right _ _
  · exact le_rfl

theorem Image.step_alloced {event : Event Hash} (locked : event.inSection = true)
    (image : Image Hash) : image.alloced_nb ≤ (image.step env event).2.alloced_nb := by
  obtain ⟨action, sys, now, ttl⟩ := event
  cases action with
  | get id => exact le_rfl
  | put id change => exact le_rfl
  | setHashRoot id => exact le_rfl
  | allocate => exact image.grow_alloced
  | remove id => exact le_rfl
  | unlock => cases locked
  | remount => cases locked
  | flush truncates unlinks => cases locked

/-- The entries of an image are still there after events in one section. -/
theorem Image.run_alloced (events : List (Event Hash))
    (locked : forall event, event ∈ events -> event.inSection = true) (image : Image Hash) :
    image.alloced_nb ≤ (image.run env events).2.alloced_nb := by
  induction events generalizing image with
  | nil => exact le_rfl
  | cons event events inductionHypothesis =>
      have step := image.step_alloced env (locked event List.mem_cons_self)
      exact step.trans (inductionHypothesis
        (fun other member => locked other (List.mem_cons_of_mem _ member)) _)

variable {env} in
theorem run_cons {event : Event Hash} {events : List (Event Hash)} {metafile last : Metafile Hash}
    {results : List (Result Hash)} (done : metafile.run env (event :: events) = .ok (results, last)) :
    Exists fun result => Exists fun middle => Exists fun others =>
      event.step env metafile = .ok (result, middle) ∧
        middle.run env events = .ok (others, last) := by
  obtain ⟨⟨result, middle⟩, step, rest⟩ := bind_eq_ok.mp done
  obtain ⟨⟨others, final⟩, run, same⟩ := bind_eq_ok.mp rest
  obtain ⟨-, rfl⟩ := Prod.mk.inj (Except.ok.inj same)
  exact ⟨result, middle, others, step, run⟩

theorem run_leads {pointer : Pointer} {id : Id} (events : List (Event Hash))
    {metafile last : Metafile Hash} {results : List (Result Hash)}
    (locked : forall event, event ∈ events -> event.inSection = true)
    (leads : Leads pointer id metafile) (done : metafile.run env events = .ok (results, last)) :
    Leads pointer id last := by
  induction events generalizing metafile results with
  | nil =>
      obtain ⟨-, rfl⟩ := Prod.mk.inj (Except.ok.inj done)
      exact leads
  | cons event events inductionHypothesis =>
      obtain ⟨result, middle, others, step, run⟩ := run_cons done
      have still := (step_within (locked event List.mem_cons_self) step).leads leads
      exact inductionHypothesis (fun other member => locked other (List.mem_cons_of_mem _ member))
        still run

/-- A pointer that `mcachefs_metadata_do_get` returned leads to its entry until the lock is given
back: what is read through it is what the entry holds by then, also behind the growth of
`metadata_map` in an allocation. -/
theorem pointer_kept {metafile next last : Metafile Hash} {image : Image Hash}
    (mapped : Mapped metafile image) (frees : Exists image.Frees) (sys : Sys) (now : Int) {id : Id}
    (above : rootId ≤ id) (inside : id < image.alloced_nb) {pointer : Pointer}
    (got : metafile.doGet sys now id = .ok (some pointer, next)) {events : List (Event Hash)}
    (legal : image.AllowsAll env events)
    (locked : forall event, event ∈ events -> event.inSection = true)
    {results : List (Result Hash)} (done : next.run env events = .ok (results, last)) :
    last.read pointer = .ok ⟨id, (image.run env events).2.fields id⟩ := by
  obtain ⟨own, -, there, same, leads⟩ := (mapped.doGet sys now above inside).returned got
  obtain rfl := Option.some.inj same
  have still := run_leads env events locked leads done
  obtain ⟨-, after, -⟩ := (own.run env events frees legal).returned done
  have allocated := inside.trans_le (image.run_alloced env events locked)
  rw [Metafile.read, show last.place pointer = .ok id from still]
  exact congrArg _ (after.holds.slots id above allocated)

/-- A store to the root, and an allocation. -/
def storedAndAllocated : List (Event UInt32) :=
  [⟨.put rootId fun fields => { fields with entry := { fields.entry with fh := 7 } },
      workingCalls, 1, 60⟩,
    ⟨.allocate, workingCalls, 2, 60⟩]

end Sections

theorem storedAndAllocated_fine : forall event, event ∈ storedAndAllocated ->
    event.inSection = true ∧ event.sys.Fine := by
  intro event member
  rcases List.mem_cons.mp member with rfl | member
  · exact ⟨rfl, workingCalls_fine⟩
  · rw [List.mem_singleton.mp member]
    exact ⟨rfl, workingCalls_fine⟩

/-- The pointer to the root shows what was stored through another one. -/
theorem pointer_kept_storedAndAllocated :
    Exists fun (metafile : Metafile UInt32) => Exists fun (next : Metafile UInt32) =>
      Exists fun (last : Metafile UInt32) => Exists fun pointer => Exists fun results =>
      Metafile.openMetafile emptySource workingCalls 0 ⟨none, 0, 0⟩ = .ok metafile ∧
        metafile.doGet workingCalls 0 rootId = .ok (some pointer, next) ∧
        next.run emptySource storedAndAllocated = .ok (results, last) ∧
        last.read pointer = .ok ⟨rootId,
          ((Image.format emptySource directoryStat).run emptySource storedAndAllocated).2.fields
            rootId⟩ := by
  obtain ⟨metafile, opened, mapped⟩ := workingCalls_opened
  have root : rootId < BLOCK_ENTRY_COUNT := by decide
  obtain ⟨⟨_, next⟩, got, own, -, pointer, rfl, -⟩ :=
    (mapped.doGet workingCalls 0 le_rfl root).succeeds fun _ failed =>
      failed.1.elim fun block fails =>
        Bool.false_ne_true (fails.symm.trans (workingCalls_fine.mmaps block))
  have frees := Image.format_frees emptySource directoryStat
  have legal : (Image.format emptySource directoryStat).AllowsAll emptySource storedAndAllocated :=
    ⟨frees.used_root root, trivial, trivial⟩
  obtain ⟨⟨results, last⟩, done, -⟩ :=
    (own.run emptySource storedAndAllocated ⟨_, frees⟩ legal).succeeds fun _ exits => by
      obtain ⟨event, member, failed⟩ := exits.not_fine
      exact failed (storedAndAllocated_fine event member).2
  exact ⟨metafile, next, last, pointer, results, opened, got, done,
    pointer_kept emptySource mapped ⟨_, frees⟩ workingCalls 0 le_rfl root got legal
      (fun event member => (storedAndAllocated_fine event member).1) done⟩

/-! ## The age of blocks -/

section Ages

variable {ttl now : Int}

/-- Each mapped block was used after the last release, or less than a time to live before it. -/
def Young (ttl : Int) (metafile : Metafile Hash) : Prop :=
  forall (place : Id) (cell : Cell), metafile.metadata_map[place]? = some cell ->
    cell.map ≠ none -> metafile.last_release - ttl < cell.last_used

/-- What the clock shows before an event: a program that starts again has not read it yet. -/
def Event.before (event : Event Hash) (time : Int) : Int :=
  match event.action with
  | .remount => 0
  | _ => time

/-- Within each mount the clock does not go back. -/
def Clocked (now : Int) : Int -> List (Event Hash) -> Prop
  | time, [] => time ≤ now
  | time, event :: events => event.before time ≤ event.now ∧ Clocked now event.now events

theorem Young.within (young : Young ttl metafile) (within : Within now metafile next)
    (positive : 0 < ttl) (clock : metafile.last_release ≤ now) : Young ttl next := by
  intro place cell here mapped
  rw [within.last_release]
  rcases within.aged place cell here mapped with used | before
  · rw [used]
    omega
  · exact young place cell before mapped

/-- A release drops what is old, unless the last one is less than a time to live ago. -/
theorem Young.release (young : Young ttl metafile) (mapped : Mapped metafile image)
    (positive : 0 < ttl) (clock : metafile.last_release ≤ now)
    (released : metafile.releaseAll false ttl now = .ok next) :
    Young ttl next ∧ now - ttl ≤ next.last_release ∧ next.last_release ≤ now := by
  obtain ⟨other, done, -, -, cells⟩ := mapped.releaseAll false ttl now
  obtain rfl := Except.ok.inj (done.symm.trans released)
  by_cases early : false = false ∧ now - ttl ≤ metafile.last_release
  · obtain rfl := (if_pos early).mp cells
    exact ⟨young, early.2, clock⟩
  · obtain ⟨map, last_release⟩ := (if_neg early).mp cells
    refine ⟨fun place cell here kept => ?_, by omega, last_release.le⟩
    rw [map, List.getElem?_map] at here
    obtain ⟨old, -, rfl⟩ := Option.map_eq_some_iff.mp here
    unfold Cell.released at kept ⊢
    split
    · next stale =>
        rw [if_pos stale] at kept
        exact absurd rfl kept
    · next fresh =>
        rw [if_neg fresh] at kept
        have recent : ¬ ttl ≤ now - old.last_used := fun late => fresh ⟨kept, Or.inr late⟩
        omega

theorem resetFhs_within {sys : Sys} (places : List Id) {metafile next : Metafile Hash}
    (done : metafile.resetFhs sys now places = .ok next) : Within now metafile next := by
  induction places generalizing metafile with
  | nil =>
      obtain rfl := Except.ok.inj done
      exact .refl metafile
  | cons id places inductionHypothesis =>
      obtain ⟨middle, put, rest⟩ := bind_eq_ok.mp done
      exact (put_within put).trans (inductionHypothesis rest)

/-- Where the file is opened, no block is mapped before the open files are reset. -/
theorem openMetafile_young [Inhabited Hash] {env : Env Hash} {sys : Sys} {closed : Closed Hash}
    (positive : 0 < ttl) (clock : closed.last_release ≤ now)
    (done : Metafile.openMetafile env sys now closed = .ok next) :
    Young ttl next ∧ next.last_release = closed.last_release := by
  obtain ⟨file, -, mapped⟩ := bind_eq_ok.mp done
  simp only at mapped
  split at mapped
  · obtain ⟨resized, sized, reset⟩ := bind_eq_ok.mp mapped
    have empty : Within now _ resized := resizeMap_within sized
    have within := resetFhs_within _ reset
    have young : Young ttl resized := by
      refine Young.within ?_ empty positive clock
      intro place cell here
      exact absurd here (by simp)
    have same := within.last_release.trans empty.last_release
    exact ⟨young.within within positive (empty.last_release.le.trans clock), same⟩
  · cases mapped

theorem flush_young [Inhabited Hash] {env : Env Hash} {sys : Sys} {truncates unlinks : Bool}
    {atTime : Int} (mapped : Mapped metafile image) (positive : 0 < ttl)
    (done : metafile.flush env sys truncates unlinks atTime now = .ok next) :
    Young ttl next ∧ next.last_release = now := by
  obtain ⟨closed, closes, opened⟩ := bind_eq_ok.mp done
  obtain ⟨other, released, -, -, cells⟩ := mapped.releaseAll true atTime now
  have last := ((if_neg fun early => Bool.false_ne_true early.1.symm).mp cells).2
  have closes := faulty_eq_ok.mp closes
  rw [Metafile.close, released] at closes
  obtain rfl := Except.ok.inj closes
  obtain ⟨young, same⟩ := openMetafile_young positive last.le opened
  exact ⟨young, same.trans last⟩

theorem Young.step [Inhabited Hash] {env : Env Hash} {event : Event Hash} {result : Result Hash}
    (young : Young event.ttl metafile) (mapped : Mapped metafile image) (positive : 0 < event.ttl)
    (clock : event.before metafile.last_release ≤ event.now)
    (done : event.step env metafile = .ok (result, next)) :
    Young event.ttl next ∧ next.last_release ≤ event.now := by
  by_cases locked : event.inSection = true
  · have within := step_within locked done
    have clock : metafile.last_release ≤ event.now := by
      unfold Event.before at clock
      split at clock
      · next remount =>
          rw [Event.inSection, remount] at locked
          cases locked
      · exact clock
    rw [within.last_release]
    exact ⟨young.within within positive clock, clock⟩
  · obtain ⟨action, sys, now, ttl⟩ := event
    cases action with
    | get | put | setHashRoot | allocate | remove => exact absurd rfl locked
    | unlock =>
        obtain ⟨last, released, same⟩ := map_eq_ok done
        obtain rfl := (Prod.mk.inj same).2
        obtain ⟨still, -, bound⟩ :=
          young.release mapped positive clock (faulty_eq_ok.mp released)
        exact ⟨still, bound⟩
    | remount =>
        obtain ⟨last, opened, same⟩ := map_eq_ok done
        obtain rfl := (Prod.mk.inj same).2
        obtain ⟨still, zero⟩ := openMetafile_young positive clock opened
        exact ⟨still, zero.le.trans clock⟩
    | flush truncates unlinks =>
        obtain ⟨last, flushed, same⟩ := map_eq_ok done
        obtain rfl := (Prod.mk.inj same).2
        obtain ⟨still, last_release⟩ := flush_young mapped positive flushed
        exact ⟨still, last_release.le⟩

theorem Young.run [Inhabited Hash] (env : Env Hash) (events : List (Event Hash))
    {metafile last : Metafile Hash} {image : Image Hash} {results : List (Result Hash)} {time : Int}
    (young : Young ttl metafile) (mapped : Mapped metafile image) (frees : Exists image.Frees)
    (legal : image.AllowsAll env events) (positive : 0 < ttl)
    (same : forall event, event ∈ events -> event.ttl = ttl) (past : metafile.last_release ≤ time)
    (clock : Clocked now time events) (done : metafile.run env events = .ok (results, last)) :
    Young ttl last ∧ last.last_release ≤ now ∧ Exists (Mapped last) := by
  induction events generalizing metafile image results time with
  | nil =>
      obtain ⟨-, rfl⟩ := Prod.mk.inj (Except.ok.inj done)
      exact ⟨young, past.trans clock, image, mapped⟩
  | cons event events inductionHypothesis =>
      obtain ⟨result, middle, others, step, run⟩ := run_cons done
      obtain ⟨allows, later⟩ := legal
      obtain ⟨free, list⟩ := frees
      obtain ⟨-, own, lists⟩ := (mapped.step list env event allows).returned step
      obtain ⟨onward, clock⟩ := clock
      have shown : event.before metafile.last_release ≤ event.now := by
        refine le_trans ?_ onward
        unfold Event.before
        split
        · exact le_rfl
        · exact past
      obtain rfl := same event List.mem_cons_self
      obtain ⟨still, bound⟩ := young.step mapped positive shown step
      exact inductionHypothesis still own lists later
        (fun other member => same other (List.mem_cons_of_mem _ member)) bound clock run

/-- When the lock is given back, each block that stays mapped was used less than two times to live
ago, however rarely that happens. -/
theorem blocks_age [Inhabited Hash] (env : Env Hash) {sys : Sys} {start : Int}
    {file : Option (File Hash)} {metafile middle last : Metafile Hash} {image : Image Hash}
    (opened : Metafile.openMetafile env sys start ⟨file, 0, 0⟩ = .ok metafile)
    (mapped : Mapped metafile image) (frees : Exists image.Frees) {events : List (Event Hash)}
    (legal : image.AllowsAll env events) (positive : 0 < ttl)
    (same : forall event, event ∈ events -> event.ttl = ttl)
    (begun : 0 ≤ start) (clock : Clocked now start events)
    {results : List (Result Hash)} (done : metafile.run env events = .ok (results, middle))
    (released : middle.releaseAll false ttl now = .ok last) {place : Id} {cell : Cell}
    (here : last.metadata_map[place]? = some cell) (kept : cell.map ≠ none) :
    now - cell.last_used < 2 * ttl := by
  obtain ⟨young, zero⟩ := openMetafile_young positive begun opened
  obtain ⟨still, bound, image, own⟩ :=
    young.run env events mapped frees legal positive same (zero.le.trans begun) clock done
  obtain ⟨youngest, recent, -⟩ := still.release own positive bound released
  have used := youngest place cell here kept
  omega

end Ages

theorem get_leads {sys : Sys} {id : Id} {slot : Slot Hash} {now : Int}
    (mapped : Mapped metafile image) (above : rootId ≤ id) (inside : id < image.alloced_nb)
    (got : metafile.get sys now id = .ok (slot, next)) :
    Exists fun pointer => Leads pointer id next := by
  obtain ⟨⟨pointer, middle⟩, found, stored⟩ := bind_eq_ok.mp got
  obtain ⟨-, -, there, rfl, leads⟩ := (mapped.doGet sys now above inside).returned found
  obtain ⟨slot, read, same⟩ := bind_eq_ok.mp stored
  exact ⟨there, (Prod.mk.inj (Except.ok.inj same)).2 ▸ leads⟩

theorem Leads.cell {pointer : Pointer} {id : Id} (leads : Leads pointer id metafile) :
    Exists fun cell => metafile.metadata_map[pointer.block]? = some cell ∧ cell.map ≠ none := by
  unfold Leads Metafile.place at leads
  cases here : metafile.metadata_map[pointer.block]?.bind Cell.map with
  | none =>
      rw [here] at leads
      cases leads
  | some block =>
      obtain ⟨cell, there, whole⟩ := Option.bind_eq_some_iff.mp here
      exact ⟨cell, there, Option.ne_none_iff_exists'.mpr ⟨block, whole⟩⟩

/-- The root is read half a minute after the mount, and its block is mapped another half later. -/
theorem blocks_age_read :
    Exists fun (middle : Metafile UInt32) => Exists fun (place : Id) => Exists fun (cell : Cell) =>
      middle.releaseAll false 60 59 = .ok middle ∧ middle.metadata_map[place]? = some cell ∧
        cell.map ≠ none ∧ 59 - cell.last_used < 2 * 60 := by
  obtain ⟨metafile, opened, mapped⟩ := workingCalls_opened
  let events : List (Event UInt32) := [⟨.get rootId, workingCalls, 30, 60⟩]
  have single : forall event, event ∈ events -> event.sys.Fine ∧ event.ttl = 60 := by
    intro event member
    rw [List.mem_singleton.mp member]
    exact ⟨workingCalls_fine, rfl⟩
  have root : rootId < BLOCK_ENTRY_COUNT := by decide
  have frees := Image.format_frees emptySource directoryStat
  have legal : (Image.format emptySource directoryStat).AllowsAll emptySource events :=
    ⟨⟨le_rfl, root⟩, trivial⟩
  obtain ⟨⟨results, middle⟩, done, -⟩ :=
    (mapped.run emptySource events ⟨_, frees⟩ legal).succeeds fun _ exits => by
      obtain ⟨event, member, failed⟩ := exits.not_fine
      exact failed (single event member).1
  obtain ⟨result, other, others, step, rest⟩ := run_cons done
  obtain rfl := (Prod.mk.inj (Except.ok.inj rest)).2
  obtain ⟨⟨slot, next⟩, got, same⟩ := map_eq_ok step
  obtain rfl := (Prod.mk.inj same).2
  obtain ⟨pointer, leads⟩ := get_leads mapped le_rfl root got
  obtain ⟨cell, here, kept⟩ := leads.cell
  have zero : next.last_release = 0 := (read_within got).last_release.trans
    (openMetafile_young (by decide : (0 : Int) < 60) le_rfl opened).2
  have released : next.releaseAll false 60 59 = .ok next := by
    rw [Metafile.releaseAll, zero, if_pos ⟨rfl, by decide⟩]
  exact ⟨next, pointer.block, cell, released, here, kept,
    blocks_age emptySource opened mapped ⟨_, frees⟩ legal (by decide)
      (fun event member => (single event member).2) le_rfl
      ⟨by decide, (by decide : (30 : Int) ≤ 59)⟩ done released here kept⟩

end MetadataMap
end Mcachefs
