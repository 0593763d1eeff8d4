import Mcachefs.Metadata.Metafile

namespace Mcachefs
namespace MetadataMap

open Library Metadata

/-!
# The blocks of the metafile

What each function on the mapped file does to the image, for any outcome of the system
calls.  A function either returns, or the program exits and leaves a file behind that has
the same entries in use; it never reads or writes out of bounds.
-/

variable {Hash : Type}

/-- The function returns something good or exits with such a file; it does not fault. -/
def Ends {Value : Type} (exits : Option (File Hash) -> Prop) (good : Value -> Prop) :
    Except (Stop Hash) Value -> Prop
  | .ok value => good value
  | .error (.exit file) => exits file
  | .error (.fault _) => False

section Ends

variable {Value Other : Type} {exits more : Option (File Hash) -> Prop} {good : Value -> Prop}

theorem Ends.bind {result : Except (Stop Hash) Value}
    {continuation : Value -> Except (Stop Hash) Other} {better : Other -> Prop}
    (ends : Ends exits good result)
    (next : forall value, good value -> Ends exits better (continuation value)) :
    Ends exits better (result >>= continuation) := by
  cases result with
  | ok value => exact next value ends
  | error stop =>
      cases stop with
      | exit file => exact ends
      | fault fault => exact ends

theorem Ends.map {result : Except (Stop Hash) Value} {change : Value -> Other}
    {better : Other -> Prop} (ends : Ends exits good result)
    (next : forall value, good value -> better (change value)) :
    Ends exits better (result.map change) := by
  cases result with
  | ok value => exact next value ends
  | error stop =>
      cases stop with
      | exit file => exact ends
      | fault fault => exact ends

theorem Ends.mono {result : Except (Stop Hash) Value} {better : Value -> Prop}
    (ends : Ends exits good result) (worse : forall file, exits file -> more file)
    (next : forall value, good value -> better value) : Ends more better result := by
  cases result with
  | ok value => exact next value ends
  | error stop =>
      cases stop with
      | exit file => exact worse file ends
      | fault fault => exact ends

theorem Ends.weaken {result : Except (Stop Hash) Value} (ends : Ends exits good result)
    (worse : forall file, exits file -> more file) : Ends more good result :=
  ends.mono worse fun _ there => there

theorem Ends.exited {result : Except (Stop Hash) Value} {file : Option (File Hash)}
    (ends : Ends exits good result) (exit : result = .error (.exit file)) : exits file := by
  rw [exit] at ends
  exact ends

theorem Ends.returned {result : Except (Stop Hash) Value} {value : Value}
    (ends : Ends exits good result) (returned : result = .ok value) : good value := by
  rw [returned] at ends
  exact ends

theorem Ends.succeeds {result : Except (Stop Hash) Value} (ends : Ends exits good result)
    (never : forall file, ¬ exits file) : Exists fun value => result = .ok value ∧ good value := by
  cases result with
  | ok value => exact ⟨value, rfl, ends⟩
  | error stop =>
      cases stop with
      | exit file => exact absurd ends (never file)
      | fault fault => exact ends.elim

end Ends

/-! ## Files and maps that hold an image -/

/-- The file has the head and the entries of the image, all of them whole. -/
structure Holds (file : File Hash) (image : Image Hash) : Prop where
  valid : Metafile.Valid file
  alloced_nb : file.head.alloced_nb = image.alloced_nb
  first_free : file.head.first_free = image.first_free
  hash_root : file.head.hash_root = image.hash_root
  slots : forall id, rootId ≤ id -> id < image.alloced_nb -> file.slots id = ⟨id, image.fields id⟩
  size : ENTRY_SIZE * (image.alloced_nb - 1) + SLOT_BYTES ≤ file.size
  whole : BLOCK_ENTRY_COUNT ∣ image.alloced_nb
  root : rootId < image.alloced_nb

/-- The file holds the image, and `metadata_map` has a cell for each of its blocks. -/
structure Mapped (metafile : Metafile Hash) (image : Image Hash) : Prop where
  holds : Holds metafile.file image
  length : metafile.metadata_map.length = image.alloced_nb / BLOCK_ENTRY_COUNT
  cells : forall (block : Id) cell, metafile.metadata_map[block]? = some cell ->
    cell.map = none ∨ cell.map = some block
  count : metafile.metadata_map_mmap_count =
    (metafile.metadata_map.countP fun cell => cell.map.isSome : Nat)

variable {metafile : Metafile Hash} {image : Image Hash} {id : Id}

theorem Mapped.block_lt (mapped : Mapped metafile image) (inside : id < image.alloced_nb) :
    id / BLOCK_ENTRY_COUNT < metafile.metadata_map.length := by
  rw [mapped.length]
  obtain ⟨blocks, whole⟩ := mapped.holds.whole
  rw [whole, Nat.mul_div_cancel_left blocks (by decide)]
  exact Nat.div_lt_of_lt_mul (whole ▸ inside)

/-- The page of an entry starts inside the file. -/
theorem Holds.page_lt {file : File Hash} (holds : Holds file image)
    (inside : id < image.alloced_nb) :
    ENTRY_SIZE * id / PAGE_SIZE * PAGE_SIZE < file.size := by
  have size := holds.size
  have below := Nat.le_sub_one_of_lt inside
  simp only [ENTRY_SIZE, SLOT_BYTES, PAGE_SIZE] at size ⊢
  omega

/-- Only the cells of `metadata_map` differ, and each of them as it may. -/
theorem Mapped.remap {next : Metafile Hash} (mapped : Mapped metafile image)
    (file : next.file = metafile.file)
    (length : next.metadata_map.length = metafile.metadata_map.length)
    (cells : forall (block : Id) cell, next.metadata_map[block]? = some cell ->
      cell.map = none ∨ cell.map = some block)
    (count : next.metadata_map_mmap_count =
      (next.metadata_map.countP fun cell => cell.map.isSome : Nat)) : Mapped next image :=
  ⟨file ▸ mapped.holds, length.trans mapped.length, cells, count⟩

theorem countP_modify {Value : Type} (good : Value -> Bool) (change : Value -> Value)
    {values : List Value} {place : Nat} {value : Value} (here : values[place]? = some value) :
    (values.modify place change).countP good + (if good value then 1 else 0) =
      values.countP good + (if good (change value) then 1 else 0) := by
  obtain ⟨before, other, after, whole, long, changed⟩ :=
    List.exists_of_modify change (List.getElem?_eq_some_iff.mp here).1
  have same : other = value := by
    rw [whole, ← long, List.getElem?_append_right le_rfl, Nat.sub_self] at here
    exact Option.some.inj here
  rw [changed, whole, same]
  simp only [List.countP_append, List.countP_cons]
  omega

theorem Mapped.used (mapped : Mapped metafile image) (block : Id) (now : Int) :
    Mapped (metafile.modifyCell block fun cell => { cell with last_used := now }) image := by
  refine mapped.remap rfl (List.length_modify ..) (fun other cell here => ?_) ?_
  · simp only [Metafile.modifyCell, List.getElem?_modify] at here
    obtain ⟨old, there, rfl⟩ := Option.map_eq_some_iff.mp here
    have own := mapped.cells other old there
    split
    · exact own
    · exact own
  · refine mapped.count.trans (congrArg Nat.cast ?_)
    cases here : metafile.metadata_map[block]? with
    | none =>
        rw [Metafile.modifyCell, List.modify_eq_self (List.getElem?_eq_none_iff.mp here)]
    | some cell =>
        have counted := countP_modify (fun cell => cell.map.isSome)
          (fun cell => { cell with last_used := now }) here
        exact (Nat.add_right_cancel counted).symm

/-- A block could not be mapped, and the file is as it was. -/
def Unmapped (sys : Sys) (file : File Hash) (left : Option (File Hash)) : Prop :=
  (Exists fun block => sys.mmaps block = false) ∧ left = some file

/-- `mcachefs_metadata_mmap_block` on a block that is not mapped. -/
theorem Mapped.mmapBlock (mapped : Mapped metafile image) (sys : Sys) {block : Id} {cell : Cell}
    (here : metafile.metadata_map[block]? = some cell) (away : cell.map = none) :
    Ends (Unmapped sys metafile.file)
      (fun next => Mapped next image ∧ next.file = metafile.file ∧
        next.metadata_map = metafile.metadata_map.modify block
          (fun cell => { cell with map := some block }) ∧
        next.last_release = metafile.last_release)
      (metafile.mmapBlock sys block) := by
  unfold Metafile.mmapBlock
  by_cases mmaps : sys.mmaps block = true
  · rw [if_pos mmaps]
    refine ⟨mapped.remap rfl (List.length_modify ..) (fun other cell here => ?_) ?_, rfl, rfl, rfl⟩
    · simp only [Metafile.modifyCell, List.getElem?_modify] at here
      obtain ⟨old, there, rfl⟩ := Option.map_eq_some_iff.mp here
      by_cases same : block = other
      · rw [if_pos same]
        exact Or.inr (congrArg some same)
      · rw [if_neg same]
        exact mapped.cells other old there
    · have counted := countP_modify (fun cell => cell.map.isSome)
        (fun cell => { cell with map := some block }) here
      simp only [away, Option.isSome_none, Option.isSome_some, Bool.false_eq_true, if_false, if_true,
        Nat.add_zero] at counted
      simp only [Metafile.modifyCell, counted, mapped.count]
      rfl
  · rw [if_neg mmaps]
    exact ⟨⟨block, Bool.eq_false_iff.mpr mmaps⟩, rfl⟩

/-- Where `mcachefs_metadata_do_get` leads, while its block stays mapped. -/
def Leads (pointer : Pointer) (id : Id) (metafile : Metafile Hash) : Prop :=
  metafile.place pointer = .ok id

/-- `mcachefs_metadata_do_get` maps the block if it has to, and its pointer leads to the entry. -/
theorem Mapped.doGet (mapped : Mapped metafile image) (sys : Sys) (now : Int)
    (above : rootId ≤ id) (inside : id < image.alloced_nb) :
    Ends (Unmapped sys metafile.file)
      (fun (pointer, next) => Mapped next image ∧ next.file = metafile.file ∧
        Exists fun there => pointer = some there ∧ Leads there id next)
      (metafile.doGet sys now id) := by
  have present : id ≠ 0 := (Nat.zero_lt_of_lt above).ne'
  obtain ⟨cell, here⟩ : Exists fun cell =>
      metafile.metadata_map[id / BLOCK_ENTRY_COUNT]? = some cell :=
    ⟨_, List.getElem?_eq_getElem (mapped.block_lt inside)⟩
  -- Once the block is mapped, all that is left is the time of its use.
  have finish (middle : Metafile Hash) (own : Mapped middle image)
      (file : middle.file = metafile.file)
      (block : middle.metadata_map[id / BLOCK_ENTRY_COUNT]?.bind Cell.map =
        some (id / BLOCK_ENTRY_COUNT)) :
      Leads ⟨id / BLOCK_ENTRY_COUNT, id % BLOCK_ENTRY_COUNT⟩ id
        (middle.modifyCell (id / BLOCK_ENTRY_COUNT) fun cell => { cell with last_used := now }) := by
    have still : (middle.metadata_map.modify (id / BLOCK_ENTRY_COUNT)
        fun cell => { cell with last_used := now })[id / BLOCK_ENTRY_COUNT]?.bind Cell.map =
          some (id / BLOCK_ENTRY_COUNT) := by
      rw [List.getElem?_modify_eq, Option.map_eq_map, Option.bind_map]
      exact block
    have whole : id / BLOCK_ENTRY_COUNT * BLOCK_ENTRY_COUNT + id % BLOCK_ENTRY_COUNT = id :=
      Nat.div_add_mod' id BLOCK_ENTRY_COUNT
    have page := own.holds.page_lt inside
    simp only [Leads, Metafile.place, Metafile.modifyCell, still, whole, if_pos page]
  rw [Metafile.doGet, if_neg present]
  simp only [here]
  by_cases away : cell.map = none
  · rw [if_pos away]
    refine (mapped.mmapBlock sys here away).map fun middle ⟨own, file, map, _⟩ => ?_
    refine ⟨own.used _ now, file, _, rfl, finish middle own file ?_⟩
    rw [map, List.getElem?_modify_eq, here]
    rfl
  · rw [if_neg away]
    refine ⟨mapped.used _ now, rfl, _, rfl, finish metafile mapped rfl ?_⟩
    rw [here]
    exact (mapped.cells _ cell here).resolve_left away

theorem Mapped.get (mapped : Mapped metafile image) (sys : Sys) (now : Int)
    (above : rootId ≤ id) (inside : id < image.alloced_nb) :
    Ends (Unmapped sys metafile.file)
      (fun (slot, next) => slot = ⟨id, image.fields id⟩ ∧ Mapped next image ∧
        next.file = metafile.file)
      (metafile.get sys now id) := by
  refine (mapped.doGet sys now above inside).bind fun (pointer, next) found => ?_
  obtain ⟨own, file, there, rfl, leads⟩ := found
  have slot : Metafile.read there next = .ok ⟨id, image.fields id⟩ := by
    rw [Metafile.read, leads, ← own.holds.slots id above inside]
    rfl
  simp only [slot, Metafile.faulty]
  exact ⟨rfl, own, file⟩

/-- Stores to the fields of an entry. -/
theorem Holds.update {file : File Hash} (holds : Holds file image) (id : Id)
    (change : Slot Hash -> Slot Hash) {fields : Fields Hash -> Fields Hash}
    (kept : change ⟨id, image.fields id⟩ = ⟨id, fields (image.fields id)⟩)
    (above : rootId ≤ id) (inside : id < image.alloced_nb) :
    Holds { file with slots := Function.update file.slots id (change (file.slots id)) }
      (image.modify id fields) := by
  refine ⟨holds.valid, holds.alloced_nb, holds.first_free, holds.hash_root,
    fun other otherAbove otherInside => ?_, holds.size, holds.whole, holds.root⟩
  by_cases same : other = id
  · subst same
    simp only [Image.modify, Function.update_self]
    rw [holds.slots other above inside, kept]
  · simp only [Image.modify, Function.update_of_ne same]
    exact holds.slots other otherAbove otherInside

theorem Mapped.put (mapped : Mapped metafile image) (sys : Sys) (now : Int)
    (change : Slot Hash -> Slot Hash) (fields : Fields Hash -> Fields Hash)
    (kept : change ⟨id, image.fields id⟩ = ⟨id, fields (image.fields id)⟩)
    (above : rootId ≤ id) (inside : id < image.alloced_nb) :
    Ends (Unmapped sys metafile.file)
      (fun next => Mapped next (image.modify id fields))
      (metafile.put sys now id change) := by
  refine (mapped.doGet sys now above inside).bind fun (pointer, next) found => ?_
  obtain ⟨own, file, there, rfl, leads⟩ := found
  have placed : Metafile.place there next = .ok id := leads
  simp only [Metafile.write, placed, Metafile.faulty]
  exact ⟨own.holds.update id change kept above inside, own.length, own.cells, own.count⟩

theorem Mapped.setHead {next : Image Hash} (mapped : Mapped metafile image) (change : Head -> Head)
    (magic : (change metafile.file.head).magic = metafile.file.head.magic)
    (head : (change metafile.file.head).alloced_nb = image.alloced_nb ∧
      (change metafile.file.head).first_free = next.first_free ∧
      (change metafile.file.head).hash_root = next.hash_root)
    (alloced_nb : next.alloced_nb = image.alloced_nb) (fields : next.fields = image.fields) :
    Mapped (metafile.setHead change) next := by
  obtain ⟨holds, length, cells, count⟩ := mapped
  refine ⟨⟨⟨holds.valid.1, ?_⟩, head.1.trans alloced_nb.symm, head.2.1, head.2.2, ?_, ?_, ?_, ?_⟩,
    ?_, cells, count⟩
  · exact (congrArg (strcmpEqual · METADATA_MAGIC) magic).trans holds.valid.2
  · rw [alloced_nb, fields]
    exact holds.slots
  · exact alloced_nb ▸ holds.size
  · exact alloced_nb ▸ holds.whole
  · exact alloced_nb ▸ holds.root
  · exact alloced_nb ▸ length

/-! ## What an exit leaves -/

/-- All system calls succeed. -/
structure Sys.Fine (sys : Sys) : Prop where
  reads : sys.reads = true
  opens : sys.opens = true
  pwrites : forall id, sys.pwrites id = true
  fstats : sys.fstats = true
  mmapsHead : sys.mmapsHead = true
  mmaps : forall block, sys.mmaps block = true
  source : sys.source ≠ none

/-- The two images have the same entries in use, but for open files. -/
structure Keeps (image after : Image Hash) : Prop where
  hash_root : after.hash_root = image.hash_root
  used : forall id, after.Used id ↔ image.Used id
  fields : forall id, image.Used id -> after.resetFh.fields id = image.resetFh.fields id

/-- A failed system call ended the program, and the file has the entries that it had. -/
def Left (sys : Sys) (image : Image Hash) (file : Option (File Hash)) : Prop :=
  ¬ sys.Fine ∧ Exists fun part => Exists fun after => file = some part ∧ Holds part after ∧
    Exists after.Frees ∧ Keeps image after

theorem Keeps.refl (image : Image Hash) : Keeps image image :=
  ⟨rfl, fun _ => Iff.rfl, fun _ _ => rfl⟩

theorem Keeps.trans {middle last : Image Hash} (one : Keeps image middle) (two : Keeps middle last) :
    Keeps image last where
  hash_root := two.hash_root.trans one.hash_root
  used id := (two.used id).trans (one.used id)
  fields id inUse := (two.fields id ((one.used id).mpr inUse)).trans (one.fields id inUse)

theorem Keeps.resetFh {free : List Id} (frees : image.Frees free) : Keeps image image.resetFh where
  hash_root := rfl
  used id := by
    rw [frees.resetFh.used_iff, frees.used_iff]
    rfl
  fields id inUse := by
    have range : rootId ≤ id ∧ id < image.resetFh.alloced_nb := ⟨inUse.1, inUse.2.1⟩
    have same : rootId ≤ id ∧ id < image.alloced_nb := range
    simp only [Image.resetFh]
    rw [if_pos same, if_pos same]

/-- Nothing was written yet. -/
theorem Mapped.left (mapped : Mapped metafile image) {free : List Id} (frees : image.Frees free)
    {sys : Sys} {file : Option (File Hash)}
    (exits : Unmapped sys metafile.file file) : Left sys image file :=
  ⟨fun fine => exits.1.elim fun block failed =>
      Bool.false_ne_true (failed.symm.trans (fine.mmaps block)),
    metafile.file, image, exits.2, mapped.holds, ⟨free, frees⟩, .refl image⟩

/-- `mcachefs_resize_metadata_map`, where there are no fewer blocks than before. -/
theorem Mapped.resizeMap {next : Image Hash}
    (holds : Holds metafile.file next)
    (length : metafile.metadata_map.length ≤ next.alloced_nb / BLOCK_ENTRY_COUNT)
    (cells : forall (block : Id) cell, metafile.metadata_map[block]? = some cell ->
      cell.map = none ∨ cell.map = some block)
    (count : metafile.metadata_map_mmap_count =
      (metafile.metadata_map.countP fun cell => cell.map.isSome : Nat)) :
    Exists fun resized => metafile.resizeMap = .ok resized ∧ Mapped resized next ∧
      resized.file = metafile.file ∧ resized.last_release = metafile.last_release := by
  rw [Metafile.resizeMap, holds.alloced_nb, if_neg (Nat.not_lt.mpr length)]
  refine ⟨_, rfl, ⟨holds, ?_, fun block cell here => ?_, ?_⟩, rfl, rfl⟩
  · rw [List.length_append, List.length_replicate]
    exact Nat.add_sub_cancel' length
  · by_cases old : block < metafile.metadata_map.length
    · exact cells block cell ((List.getElem?_append_left old).symm.trans here)
    · rw [List.getElem?_append_right (not_lt.mp old)] at here
      rw [List.eq_of_mem_replicate (List.mem_of_getElem? here)]
      exact Or.inl rfl
  · rw [List.countP_append, List.countP_replicate]
    simpa using count

/-! ## A new block -/

section Entries

variable [Inhabited Hash]

/-- The loop stops at the first write that fails, and what is behind that is as it was. -/
theorem formatEntries_ends (sys : Sys) (last : Nat) (count first : Nat) (file : File Hash) :
    Ends (fun left => Exists fun stop : Nat => first ≤ stop ∧ stop < first + count ∧
        sys.pwrites stop = false ∧ Exists fun part => left = some part ∧ part.head = file.head ∧
        (forall id : Nat, id < first ∨ stop ≤ id -> part.slots id = file.slots id) ∧
        file.size ≤ part.size)
      (fun next => next.head = file.head ∧
        (forall id : Nat, next.slots id = if first ≤ id ∧ id < first + count then
          ⟨id, .free (if id < last - 1 then id + 1 else 0)⟩ else file.slots id) ∧
        file.size ≤ next.size ∧
        (count ≠ 0 -> ENTRY_SIZE * (first + count - 1) + SLOT_BYTES ≤ next.size) ∧
        forall id : Nat, first ≤ id -> id < first + count -> sys.pwrites id = true)
      (file.formatEntries sys last (List.range' first count)) := by
  induction count generalizing first file with
  | zero =>
      exact ⟨rfl, fun id => (if_neg (by omega)).symm, le_rfl, fun some => absurd rfl some,
        fun id above below => absurd below (by omega)⟩
  | succ count inductionHypothesis =>
      rw [List.range'_succ, File.formatEntries]
      by_cases pwrites : sys.pwrites first = true
      · rw [if_pos pwrites]
        refine (inductionHypothesis (first + 1) _).mono ?_ ?_
        · rintro left ⟨stop, above, below, failed, part, rfl, head, slots, size⟩
          refine ⟨stop, by omega, by omega, failed, part, rfl, head, fun id apart => ?_,
            (Nat.le_max_left _ _).trans size⟩
          rw [slots id (by omega), File.pwrite]
          exact Function.update_of_ne (show id ≠ first by omega) _ _
        · rintro next ⟨head, slots, size, whole, others⟩
          refine ⟨head, fun id => ?_, (Nat.le_max_left _ _).trans size, fun _ => ?_,
            fun id above below => ?_⟩
          · rw [slots id, File.pwrite]
            by_cases same : id = first
            · rw [if_neg (show ¬ (first + 1 ≤ id ∧ id < first + 1 + count) by omega),
                if_pos (show first ≤ id ∧ id < first + (count + 1) by omega), same]
              exact Function.update_self ..
            · simp only [Function.update_of_ne same]
              by_cases inside : first + 1 ≤ id ∧ id < first + 1 + count
              · rw [if_pos inside, if_pos (show first ≤ id ∧ id < first + (count + 1) by omega)]
              · rw [if_neg inside,
                  if_neg (show ¬ (first ≤ id ∧ id < first + (count + 1)) by omega)]
          · by_cases more : count = 0
            · subst more
              exact (Nat.le_max_right _ _).trans size
            · have long := whole more
              rwa [show first + 1 + count - 1 = first + (count + 1) - 1 by omega] at long
          · by_cases same : id = first
            · exact same ▸ pwrites
            · exact others id (by omega) (by omega)
      · rw [if_neg pwrites]
        exact ⟨first, le_rfl, by omega, Bool.eq_false_iff.mpr pwrites, file, rfl, rfl,
          fun _ _ => rfl, le_rfl⟩

/-- A new block of entries leaves the old ones as they are. -/
theorem Image.Frees.grow {free : List Id} (frees : image.Frees free)
    (root : rootId < image.alloced_nb) :
    Exists fun others => image.grow.Frees others ∧ image.grow.first_free ≠ 0 ∧
      Keeps image image.grow := by
  by_cases none : image.first_free = 0
  · have empty : free = [] := frees.list.head_zero_iff.mp none
    let rest : Fs Hash := ⟨fun _ => .zero, 0, 0, [], fun _ => Option.none, 0⟩
    have grown : image.grow =
        { image.extend image.alloced_nb (image.alloced_nb + BLOCK_ENTRY_COUNT) with
          first_free := image.alloced_nb
          alloced_nb := image.alloced_nb + BLOCK_ENTRY_COUNT } := if_pos none
    have list := Shape.extendFreeEntries_list image.alloced_nb (BLOCK_ENTRY_COUNT - 1)
      (image.fs rest) (Nat.zero_lt_of_lt root).ne'
    rw [← Image.fs_extend] at list
    have others : image.grow.Frees (List.range' image.alloced_nb BLOCK_ENTRY_COUNT) := by
      rw [grown]
      refine ⟨list, fun id member => ?_⟩
      have range := List.mem_range'_1.mp member
      exact ⟨root.trans_le range.1, range.2⟩
    refine ⟨_, others, ?_, ?_, fun id => ?_, fun id inUse => ?_⟩
    · rw [grown]
      exact (Nat.zero_lt_of_lt root).ne'
    · rw [grown]
      rfl
    · rw [others.used_iff, frees.used_iff, empty, grown, List.mem_range'_1]
      have range : image.alloced_nb ≤ image.alloced_nb + BLOCK_ENTRY_COUNT := Nat.le_add_right _ _
      constructor
      · rintro ⟨above, below, apart⟩
        exact ⟨above, not_le.mp fun fresh => apart ⟨fresh, below⟩, List.not_mem_nil⟩
      · rintro ⟨above, below, -⟩
        exact ⟨above, below.trans_le range, fun fresh => absurd below (not_lt.mpr fresh.1)⟩
    · have below := inUse.2.1
      have old : ¬ (image.alloced_nb ≤ id ∧ id < image.alloced_nb + BLOCK_ENTRY_COUNT) :=
        fun fresh => absurd below (not_lt.mpr fresh.1)
      rw [grown]
      simp only [Image.resetFh, Image.extend, if_neg old]
      rw [if_pos ⟨inUse.1, below.trans_le (Nat.le_add_right _ _)⟩, if_pos ⟨inUse.1, below⟩]
  · rw [show image.grow = image from if_neg none]
    exact ⟨free, frees, none, .refl image⟩

/-- The first part of `mcachefs_metadata_allocate`. -/
theorem Mapped.grow (mapped : Mapped metafile image) {free : List Id} (frees : image.Frees free)
    (sys : Sys) :
    Ends (Left sys image) (fun next => Mapped next image.grow)
      (if metafile.file.head.first_free = 0 then do
        let first_alloced := metafile.file.head.alloced_nb
        let last_alloced := first_alloced + BLOCK_ENTRY_COUNT
        let file ← metafile.file.extendFreeEntries sys first_alloced last_alloced
        let metafile := { metafile with file := file }
        (metafile.setHead fun head =>
          { head with first_free := first_alloced, alloced_nb := last_alloced }).resizeMap
      else .ok metafile) := by
  obtain ⟨holds, length, cells, count⟩ := mapped
  rw [holds.first_free, holds.alloced_nb]
  by_cases none : image.first_free = 0
  · rw [if_pos none]
    have count_eq : image.alloced_nb + BLOCK_ENTRY_COUNT - image.alloced_nb = BLOCK_ENTRY_COUNT :=
      Nat.add_sub_cancel_left ..
    simp only [File.extendFreeEntries, count_eq]
    refine Ends.bind ((formatEntries_ends sys _ BLOCK_ENTRY_COUNT image.alloced_nb
      metafile.file).weaken ?_) fun file ⟨head, slots, size, whole, _⟩ => ?_
    · rintro left ⟨stop, -, -, failed, part, rfl, head, slots, size⟩
      have notFine : ¬ sys.Fine := fun fine =>
        Bool.false_ne_true (failed.symm.trans (fine.pwrites stop))
      refine ⟨notFine, part, image, rfl, ⟨⟨holds.valid.1.trans size, ?_⟩, ?_, ?_, ?_,
        fun id above inside => ?_, holds.size.trans size, holds.whole, holds.root⟩, ⟨free, frees⟩,
        .refl image⟩
      · exact (congrArg (fun head : Head => strcmpEqual head.magic METADATA_MAGIC) head).trans
          holds.valid.2
      · exact (congrArg Head.alloced_nb head).trans holds.alloced_nb
      · exact (congrArg Head.first_free head).trans holds.first_free
      · exact (congrArg Head.hash_root head).trans holds.hash_root
      · rw [slots id (Or.inl inside)]
        exact holds.slots id above inside
    · have grown : image.grow =
          { image.extend image.alloced_nb (image.alloced_nb + BLOCK_ENTRY_COUNT) with
            first_free := image.alloced_nb
            alloced_nb := image.alloced_nb + BLOCK_ENTRY_COUNT } := if_pos none
      have blocks : (image.alloced_nb + BLOCK_ENTRY_COUNT) / BLOCK_ENTRY_COUNT =
          image.alloced_nb / BLOCK_ENTRY_COUNT + 1 := Nat.add_div_right _ (by decide)
      let middle : Metafile Hash := Metafile.setHead (fun head =>
          { head with
            first_free := image.alloced_nb, alloced_nb := image.alloced_nb + BLOCK_ENTRY_COUNT })
        { metafile with file := file }
      have next : Holds middle.file image.grow := by
        rw [grown]
        refine ⟨⟨holds.valid.1.trans size, ?_⟩, rfl, rfl, ?_, fun id above inside => ?_,
          whole (by decide), Nat.dvd_add holds.whole (Nat.dvd_refl _),
          holds.root.trans_le (Nat.le_add_right _ _)⟩
        · exact (congrArg (fun head : Head => strcmpEqual head.magic METADATA_MAGIC) head).trans
            holds.valid.2
        · exact (congrArg Head.hash_root head).trans holds.hash_root
        · refine (slots id).trans ?_
          simp only [Image.extend]
          by_cases fresh : image.alloced_nb ≤ id ∧ id < image.alloced_nb + BLOCK_ENTRY_COUNT
          · rw [if_pos fresh, if_pos fresh]
          · rw [if_neg fresh, if_neg fresh]
            exact holds.slots id above (not_le.mp fun beyond => fresh ⟨beyond, inside⟩)
      have more : middle.metadata_map.length ≤ image.grow.alloced_nb / BLOCK_ENTRY_COUNT := by
        rw [grown]
        exact (length.trans_le (Nat.le_succ _)).trans_eq blocks.symm
      obtain ⟨resized, result, own, -⟩ := Mapped.resizeMap next more cells count
      rw [result]
      exact own
  · rw [if_neg none, show image.grow = image from if_neg none]
    exact ⟨holds, length, cells, count⟩

/-- `mcachefs_metadata_allocate` takes the first free entry. -/
theorem Mapped.allocate (mapped : Mapped metafile image) {free : List Id}
    (frees : image.Frees free) (sys : Sys) (now : Int) :
    Ends (Left sys image)
      (fun (id, next) => id = image.allocate.1 ∧ Mapped next image.allocate.2)
      (metafile.allocate sys now) := by
  obtain ⟨others, grownFrees, present, keeps⟩ := frees.grow mapped.holds.root
  refine (mapped.grow frees sys).bind fun middle own => ?_
  obtain ⟨above, inside⟩ := grownFrees.first_free_lt present
  rw [own.holds.first_free]
  refine Ends.bind ((own.get sys now above inside).weaken fun file exits => ?_)
    fun (next, last) ⟨slot, there, _⟩ => ?_
  · obtain ⟨failed, part, after, rfl, holds, sound, kept⟩ := own.left grownFrees exits
    exact ⟨failed, part, after, rfl, holds, sound, keeps.trans kept⟩
  · subst slot
    dsimp only
    rw [if_neg present]
    refine ⟨rfl, ?_⟩
    exact there.setHead
      (fun head => { head with first_free := image.grow.next image.grow.first_free }) rfl
      ⟨there.holds.alloced_nb, rfl, there.holds.hash_root⟩ rfl rfl

/-- `mcachefs_metadata_remove` puts the entry in front of the free ones. -/
theorem Mapped.remove (mapped : Mapped metafile image) (sys : Sys) (now : Int)
    (above : rootId ≤ id) (inside : id < image.alloced_nb) :
    Ends (Unmapped sys metafile.file)
      (fun next => Mapped next (image.remove id)) (metafile.remove sys now id) := by
  refine (mapped.get sys now above inside).bind fun (slot, middle) ⟨whole, own, file⟩ => ?_
  subst whole
  have put := own.put sys now (fun metadata => ⟨metadata.id, .free middle.file.head.first_free⟩)
    (fun _ => .free middle.file.head.first_free) rfl above inside
  rw [← file]
  dsimp only
  refine put.bind fun last there => ?_
  refine there.setHead (fun head => { head with first_free := id }) rfl
    ⟨there.holds.alloced_nb, rfl, there.holds.hash_root⟩ rfl ?_
  rw [file, mapped.holds.first_free]
  rfl

end Entries

end MetadataMap
end Mcachefs
