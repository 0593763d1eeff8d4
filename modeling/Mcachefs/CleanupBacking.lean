import Mcachefs.CString
import Mcachefs.Library.Exchanges
import Mcachefs.Library.LinkedList
import Mcachefs.Library.Runs

namespace Mcachefs
namespace CleanupBacking

open Library

/-!
# Sorting the files of the cache

`mcachefs_cleanup_backing` lists the files of the cache, looks up how old each of
them is, and sorts the list by age.  The list is doubly linked; a pointer to a file
is a number, and the null pointer is `0`.
-/

abbrev Pointer := Nat

/-- `struct mcachefs_backing_file`. -/
structure BackingFile where
  path : Path
  age : Int
  size : Int
  previous : Pointer
  next : Pointer
  deriving DecidableEq, Repr

/-- `struct mcachefs_backing_files`, with the memory that its pointers lead to. -/
structure BackingFiles where
  files : Pointer -> BackingFile
  head : Pointer
  tail : Pointer

inductive Fault
  | nullPointer
  | fuel
  deriving DecidableEq, Repr

namespace BackingFiles

/-- An empty list. -/
def empty : BackingFiles where
  files := fun _ => ⟨[], 0, 0, 0, 0⟩
  head := 0
  tail := 0

def modify (filelist : BackingFiles) (file : Pointer) (change : BackingFile -> BackingFile) :
    BackingFiles :=
  { filelist with files := Function.update filelist.files file (change (filelist.files file)) }

def setPrevious (filelist : BackingFiles) (file previous : Pointer) : BackingFiles :=
  filelist.modify file fun entry => { entry with previous := previous }

def setNext (filelist : BackingFiles) (file next : Pointer) : BackingFiles :=
  filelist.modify file fun entry => { entry with next := next }

def setHead (filelist : BackingFiles) (file : Pointer) : BackingFiles :=
  { filelist with head := file }

def setTail (filelist : BackingFiles) (file : Pointer) : BackingFiles :=
  { filelist with tail := file }

def previous (filelist : BackingFiles) (file : Pointer) : Pointer :=
  (filelist.files file).previous

def next (filelist : BackingFiles) (file : Pointer) : Pointer :=
  (filelist.files file).next

def age (filelist : BackingFiles) (file : Pointer) : Int :=
  (filelist.files file).age

/-- `mcachefs_backing_append_file`; `file` is what `malloc` returns. -/
def appendFile (file : Pointer) (path : Path) (st_size : Int) (filelist : BackingFiles) :
    BackingFiles :=
  let filelist := filelist.modify file fun _ => ⟨path, 0, st_size, 0, 0⟩
  if filelist.head ≠ 0 then
    ((filelist.setNext file filelist.head).setPrevious filelist.head file).setHead file
  else (filelist.setTail file).setHead file

/-- What `mcachefs_backing_update_metadata` assigns. -/
def setAges (ages : Pointer -> Int) (filelist : BackingFiles) : BackingFiles :=
  { filelist with files := fun file => { filelist.files file with age := ages file } }

/-- The flip of `file` and `file->next` in `mcachefs_backing_sort`. -/
def flip (file : Pointer) (filelist : BackingFiles) : BackingFiles :=
  let file1 := filelist.next file
  let previous := filelist.previous file
  let next := filelist.next file1
  let filelist :=
    if previous ≠ 0 then filelist.setNext previous file1 else filelist.setHead file1
  let filelist := filelist.setPrevious file1 previous
  let filelist := filelist.setNext file1 file
  let filelist := filelist.setPrevious file file1
  let filelist := filelist.setNext file next
  if next ≠ 0 then filelist.setPrevious next file else filelist.setTail file

/-- One turn of the loop of `mcachefs_backing_sort`. -/
def sortTurn (file : Pointer) (filelist : BackingFiles) :
    Except Fault (Option Pointer × BackingFiles) :=
  if file = 0 then .error .nullPointer
  else if filelist.next file = 0 then .ok (none, filelist)
  else if filelist.age (filelist.next file) ≥ filelist.age file then
    .ok (some (filelist.next file), filelist)
  else
    let previous := filelist.previous file
    let filelist := filelist.flip file
    .ok (some (if previous ≠ 0 then previous else filelist.head), filelist)

/-- `mcachefs_backing_sort`. -/
def sort (fuel : Nat) (filelist : BackingFiles) : Except Fault BackingFiles :=
  if filelist.head = 0 then .ok filelist
  else iterate .fuel sortTurn fuel filelist.head filelist

/-! ## Fields -/

section Fields

variable (filelist : BackingFiles) (file link : Pointer)

@[simp] theorem setNext_next :
    (filelist.setNext file link).next = Function.update filelist.next file link := by
  funext other
  by_cases same : other = file
  · subst same
    simp [next, setNext, modify]
  · simp [next, setNext, modify, same]

@[simp] theorem setNext_previous : (filelist.setNext file link).previous = filelist.previous := by
  funext other
  by_cases same : other = file
  · subst same
    simp [previous, setNext, modify]
  · simp [previous, setNext, modify, same]

@[simp] theorem setPrevious_previous :
    (filelist.setPrevious file link).previous = Function.update filelist.previous file link := by
  funext other
  by_cases same : other = file
  · subst same
    simp [previous, setPrevious, modify]
  · simp [previous, setPrevious, modify, same]

@[simp] theorem setPrevious_next : (filelist.setPrevious file link).next = filelist.next := by
  funext other
  by_cases same : other = file
  · subst same
    simp [next, setPrevious, modify]
  · simp [next, setPrevious, modify, same]

@[simp] theorem setNext_head : (filelist.setNext file link).head = filelist.head := rfl

@[simp] theorem setPrevious_head : (filelist.setPrevious file link).head = filelist.head := rfl

@[simp] theorem setNext_tail : (filelist.setNext file link).tail = filelist.tail := rfl

@[simp] theorem setPrevious_tail : (filelist.setPrevious file link).tail = filelist.tail := rfl

@[simp] theorem setHead_next : (filelist.setHead file).next = filelist.next := rfl

@[simp] theorem setHead_previous : (filelist.setHead file).previous = filelist.previous := rfl

@[simp] theorem setHead_head : (filelist.setHead file).head = file := rfl

@[simp] theorem setHead_tail : (filelist.setHead file).tail = filelist.tail := rfl

@[simp] theorem setTail_next : (filelist.setTail file).next = filelist.next := rfl

@[simp] theorem setTail_previous : (filelist.setTail file).previous = filelist.previous := rfl

@[simp] theorem setTail_head : (filelist.setTail file).head = filelist.head := rfl

@[simp] theorem setTail_tail : (filelist.setTail file).tail = file := rfl

end Fields

/-- The files themselves are the same. -/
def SameFiles (filelist sorted : BackingFiles) : Prop :=
  forall file, (sorted.files file).path = (filelist.files file).path ∧
    (sorted.files file).age = (filelist.files file).age ∧
    (sorted.files file).size = (filelist.files file).size

theorem SameFiles.refl (filelist : BackingFiles) : SameFiles filelist filelist :=
  fun _ => ⟨rfl, rfl, rfl⟩

theorem SameFiles.trans {one two three : BackingFiles} (first : SameFiles one two)
    (second : SameFiles two three) : SameFiles one three := by
  intro file
  obtain ⟨path, age, size⟩ := first file
  obtain ⟨path', age', size'⟩ := second file
  exact ⟨path'.trans path, age'.trans age, size'.trans size⟩

theorem sameFiles_modify (filelist : BackingFiles) (file : Pointer)
    {change : BackingFile -> BackingFile}
    (same : forall entry, (change entry).path = entry.path ∧ (change entry).age = entry.age ∧
      (change entry).size = entry.size) : SameFiles filelist (filelist.modify file change) := by
  intro other
  by_cases here : other = file
  · subst here
    simpa [modify] using same (filelist.files other)
  · simp [modify, here]

theorem sameFiles_setNext (filelist : BackingFiles) (file link : Pointer) :
    SameFiles filelist (filelist.setNext file link) :=
  filelist.sameFiles_modify file fun _ => ⟨rfl, rfl, rfl⟩

theorem sameFiles_setPrevious (filelist : BackingFiles) (file link : Pointer) :
    SameFiles filelist (filelist.setPrevious file link) :=
  filelist.sameFiles_modify file fun _ => ⟨rfl, rfl, rfl⟩

theorem sameFiles_flip (file : Pointer) (filelist : BackingFiles) :
    SameFiles filelist (filelist.flip file) := by
  obtain ⟨linked, linkedEq⟩ : Exists fun linked => linked =
      if filelist.previous file ≠ 0 then
        filelist.setNext (filelist.previous file) (filelist.next file)
      else filelist.setHead (filelist.next file) := ⟨_, rfl⟩
  have first : SameFiles filelist linked := by
    rw [linkedEq]
    split
    · exact filelist.sameFiles_setNext _ _
    · exact .refl filelist
  have inner := ((first.trans (linked.sameFiles_setPrevious (filelist.next file)
    (filelist.previous file))).trans (sameFiles_setNext _ (filelist.next file) file)).trans
      ((sameFiles_setPrevious _ file (filelist.next file)).trans
        (sameFiles_setNext _ file (filelist.next (filelist.next file))))
  unfold flip
  simp only [← linkedEq]
  split
  · exact inner.trans (sameFiles_setPrevious _ _ _)
  · exact inner

theorem SameFiles.age_eq {filelist sorted : BackingFiles} (same : SameFiles filelist sorted) :
    sorted.age = filelist.age :=
  funext fun file => (same file).2.1

/-! ## Lists -/

/-- The files of the list from head to tail. -/
structure Holds (filelist : BackingFiles) (ids : List Pointer) : Prop where
  list : Doubly filelist.next filelist.previous filelist.head ids
  tail : filelist.tail = ids.getLastD 0

theorem empty_holds : empty.Holds [] :=
  ⟨.nil, rfl⟩

theorem Holds.appendFile {filelist : BackingFiles} {ids : List Pointer} {file : Pointer}
    (holds : filelist.Holds ids) (some : file ≠ 0) (fresh : file ∉ ids) (path : Path)
    (st_size : Int) : (filelist.appendFile file path st_size).Holds (file :: ids) := by
  obtain ⟨made, madeEq⟩ : Exists fun made => made =
    filelist.modify file fun _ => ⟨path, 0, st_size, 0, 0⟩ := ⟨_, rfl⟩
  have head : made.head = filelist.head := by rw [madeEq]; rfl
  have tail : made.tail = filelist.tail := by rw [madeEq]; rfl
  have list : Doubly made.next made.previous made.head ids := by
    rw [head]
    refine holds.list.congr (fun id member => ?_) fun id member => ?_
    all_goals
      have apart : id ≠ file := ne_of_mem_of_not_mem member fresh
      rw [madeEq]
      simp [next, previous, modify, apart]
  have alone : made.previous file = 0 ∧ made.next file = 0 := by
    rw [madeEq]
    simp [next, previous, modify]
  unfold BackingFiles.appendFile
  simp only [← madeEq]
  split
  · next present =>
      refine ⟨?_, ?_⟩
      · have pushed := list.push some fresh alone.1
        simpa using pushed
      · have nonempty : ids ≠ [] := fun none => present (list.forward.head_zero_iff.mpr none)
        rw [List.getLastD_cons]
        obtain ⟨front, last, rfl⟩ := (List.eq_nil_or_concat' ids).resolve_left nonempty
        simp only [setHead_tail, setPrevious_tail, setNext_tail, tail, holds.tail,
          List.getLastD_concat]
  · next absent =>
      have none : ids = [] := list.forward.head_zero_iff.mp (not_not.mp absent)
      subst none
      refine ⟨⟨.cons some ?_, alone.1, trivial⟩, rfl⟩
      change Segment made.next (made.next file) [] 0
      rw [alone.2]
      exact .nil 0

/-- The links after a flip, where the neighbours are files of their own. -/
theorem flip_next {filelist : BackingFiles} {file : Pointer} :
    (filelist.flip file).next =
      Function.update (Function.update
        (if filelist.previous file = 0 then filelist.next
          else Function.update filelist.next (filelist.previous file) (filelist.next file))
        (filelist.next file) file) file (filelist.next (filelist.next file)) := by
  unfold BackingFiles.flip
  by_cases first : filelist.previous file = 0 <;>
    by_cases last : filelist.next (filelist.next file) = 0 <;> simp [first, last]

theorem flip_previous {filelist : BackingFiles} {file : Pointer} :
    (filelist.flip file).previous =
      let back := Function.update (Function.update filelist.previous (filelist.next file)
        (filelist.previous file)) file (filelist.next file)
      if filelist.next (filelist.next file) = 0 then back
      else Function.update back (filelist.next (filelist.next file)) file := by
  unfold BackingFiles.flip
  by_cases first : filelist.previous file = 0 <;>
    by_cases last : filelist.next (filelist.next file) = 0 <;> simp [first, last]

theorem flip_head {filelist : BackingFiles} {file : Pointer} :
    (filelist.flip file).head =
      if filelist.previous file = 0 then filelist.next file else filelist.head := by
  unfold BackingFiles.flip
  by_cases first : filelist.previous file = 0 <;>
    by_cases last : filelist.next (filelist.next file) = 0 <;> simp [first, last]

theorem flip_tail {filelist : BackingFiles} {file : Pointer} :
    (filelist.flip file).tail =
      if filelist.next (filelist.next file) = 0 then file else filelist.tail := by
  unfold BackingFiles.flip
  by_cases first : filelist.previous file = 0 <;>
    by_cases last : filelist.next (filelist.next file) = 0 <;> simp [first, last]

/-- A flip exchanges a file with the next one. -/
theorem Holds.flip {filelist : BackingFiles} {before after : List Pointer} {file file1 : Pointer}
    (holds : filelist.Holds (before ++ file :: file1 :: after)) :
    (filelist.flip file).Holds (before ++ file1 :: file :: after) := by
  obtain ⟨list, tail⟩ := holds
  have whole : Doubly filelist.next filelist.previous filelist.head
      ((before ++ [file]) ++ file1 :: after) := by simpa using list
  have nodup := list.nodup
  have some : forall id, id ∈ before ++ file :: file1 :: after -> id ≠ 0 := fun id member =>
    list.forward.ne_zero member
  obtain rfl : filelist.next file = file1 := list.next_eq
  have follows : filelist.next (filelist.next file) = after.headD 0 := whole.next_eq
  have apart : filelist.next file ≠ file := by
    simp only [List.nodup_append, List.nodup_cons, List.mem_cons] at nodup
    grind
  have notFile : filelist.next (filelist.next file) ≠ file ∧
      filelist.next (filelist.next file) ≠ filelist.next file := by
    rw [follows]
    cases after with
    | nil => exact ⟨(some file (by simp)).symm, (some _ (by simp)).symm⟩
    | cons other after =>
        simp only [List.nodup_append, List.nodup_cons, List.mem_cons, List.headD_cons] at nodup ⊢
        grind
  refine ⟨list.exchange flip_head ?_ ?_ (fun id idSome one two => ?_) ?_ ?_
    (fun id idSome one two => ?_), ?_⟩
  · rw [flip_next, Function.update_self]
  · rw [flip_next, Function.update_of_ne apart, Function.update_self]
  · rw [flip_next, Function.update_of_ne one, Function.update_of_ne two]
    by_cases first : filelist.previous file = 0
    · rw [if_pos first, if_neg (first.symm ▸ idSome)]
    · rw [if_neg first, Function.update_apply]
  · rw [flip_previous]
    simp only
    split
    · rw [Function.update_self]
    · rw [Function.update_of_ne notFile.1.symm, Function.update_self]
  · rw [flip_previous]
    simp only
    split
    · rw [Function.update_of_ne apart, Function.update_self]
    · rw [Function.update_of_ne notFile.2.symm, Function.update_of_ne apart, Function.update_self]
  · rw [flip_previous]
    simp only
    by_cases last : filelist.next (filelist.next file) = 0
    · rw [if_pos last, if_neg (last.symm ▸ idSome), Function.update_of_ne one,
        Function.update_of_ne two]
    · rw [if_neg last, Function.update_apply, Function.update_of_ne one, Function.update_of_ne two]
  · rw [flip_tail, tail, follows]
    rcases List.eq_nil_or_concat' after with rfl | ⟨others, last, rfl⟩
    · have shape : before ++ [filelist.next file, file] =
          (before ++ [filelist.next file]) ++ [file] := by simp
      rw [shape, List.getLastD_concat, List.headD_nil, if_pos rfl]
    · have present : (others ++ [last]).headD 0 ≠ 0 := by
        rw [← follows]
        intro none
        exact absurd (whole.forward.suffix.cons_inv.2.2.head_zero_iff.mp none) (by simp)
      have shape : forall one two, before ++ one :: two :: (others ++ [last]) =
          (before ++ one :: two :: others) ++ [last] := by simp
      rw [if_neg present, shape, shape, List.getLastD_concat, List.getLastD_concat]

/-! ## The loop -/

/-- Where the loop is: the files up to the current one are in order. -/
structure SortedUpTo (filelist : BackingFiles) (before : List Pointer) (file : Pointer)
    (after : List Pointer) : Prop where
  holds : filelist.Holds (before ++ file :: after)
  ordered : (before ++ [file]).Pairwise fun one two => filelist.age one ≤ filelist.age two

/-- What the loop has made of a list when it ends. -/
structure Sorted (filelist : BackingFiles) (ids : List Pointer) (sorted : BackingFiles) : Prop where
  files : SameFiles filelist sorted
  list : Exists fun others => sorted.Holds others ∧ StablySorted filelist.age ids others

theorem sortTurn_last {filelist : BackingFiles} {before : List Pointer} {file : Pointer}
    (place : filelist.SortedUpTo before file []) :
    sortTurn file filelist = .ok (none, filelist) := by
  have some : file ≠ 0 := place.holds.list.forward.ne_zero (by simp)
  have last : filelist.next file = 0 := place.holds.list.next_eq
  rw [sortTurn, if_neg some, if_pos last]

theorem sortTurn_forward {filelist : BackingFiles} {before after : List Pointer}
    {file file1 : Pointer} (place : filelist.SortedUpTo before file (file1 :: after))
    (order : filelist.age file ≤ filelist.age file1) :
    sortTurn file filelist = .ok (some file1, filelist) ∧
      filelist.SortedUpTo (before ++ [file]) file1 after := by
  have fileSome : file ≠ 0 := place.holds.list.forward.ne_zero (by simp)
  have nextSome : file1 ≠ 0 := place.holds.list.forward.ne_zero (by simp)
  obtain rfl : filelist.next file = file1 := place.holds.list.next_eq
  refine ⟨?_, ?_, ?_⟩
  · rw [sortTurn, if_neg fileSome, if_neg nextSome, if_pos order]
  · simpa using place.holds
  · refine List.pairwise_append.mpr ⟨place.ordered, List.pairwise_singleton _ _, ?_⟩
    intro one member two isNext
    obtain rfl := List.mem_singleton.mp isNext
    rcases List.mem_append.mp member with earlier | here
    · exact ((List.pairwise_append.mp place.ordered).2.2 one earlier file
        List.mem_cons_self).trans order
    · exact List.mem_singleton.mp here ▸ order

theorem sortTurn_back {filelist : BackingFiles} {before after : List Pointer}
    {file file1 : Pointer} (place : filelist.SortedUpTo before file (file1 :: after))
    (less : filelist.age file1 < filelist.age file) :
    Exists fun front => Exists fun other => Exists fun rest =>
      front ++ other :: rest = before ++ file1 :: file :: after ∧
        sortTurn file filelist = .ok (some other, filelist.flip file) ∧
        (filelist.flip file).SortedUpTo front other rest := by
  have fileSome : file ≠ 0 := place.holds.list.forward.ne_zero (by simp)
  have nextSome : file1 ≠ 0 := place.holds.list.forward.ne_zero (by simp)
  have flipped := place.holds.flip
  have link : filelist.next file = file1 := place.holds.list.next_eq
  have precedes : filelist.previous file = before.getLastD 0 := place.holds.list.previous_eq
  have age := (filelist.sameFiles_flip file).age_eq
  have turn : sortTurn file filelist = .ok (some (if filelist.previous file ≠ 0 then
      filelist.previous file else (filelist.flip file).head), filelist.flip file) := by
    rw [sortTurn, if_neg fileSome, link, if_neg nextSome, if_neg (not_le.mpr less)]
  rcases List.eq_nil_or_concat' before with rfl | ⟨front, last, rfl⟩
  · have none : filelist.previous file = 0 := precedes
    have head : (filelist.flip file).head = file1 := by rw [flip_head, if_pos none, link]
    refine ⟨[], file1, file :: after, rfl, ?_, flipped, List.pairwise_singleton _ _⟩
    rw [turn, if_neg (not_not.mpr none), head]
  · rw [List.getLastD_concat] at precedes
    have lastSome : last ≠ 0 := place.holds.list.forward.ne_zero (by simp)
    refine ⟨front, last, file1 :: file :: after, by simp, ?_, by simpa using flipped, ?_⟩
    · rw [turn, precedes, if_pos lastSome]
    · rw [age]
      exact (List.pairwise_append.mp place.ordered).1

/-- The loop gets to the last file: a turn goes on, or leaves fewer inversions. -/
theorem sort_leads (count : Nat) (after : List Pointer) {filelist : BackingFiles}
    {before : List Pointer} {file : Pointer} (place : filelist.SortedUpTo before file after)
    (counted : inversions filelist.age (before ++ file :: after) = count) :
    Exists fun front => Exists fun other => Exists fun sorted =>
      Leads .fuel sortTurn file filelist other sorted ∧ sorted.SortedUpTo front other [] ∧
        SameFiles filelist sorted ∧
        Rearranged filelist.age (before ++ file :: after) (front ++ [other]) := by
  induction count using Nat.strong_induction_on generalizing after filelist before file with
  | h count outerHypothesis =>
      induction after generalizing before file with
      | nil => exact ⟨before, file, filelist, .refl, place, .refl _, .refl _⟩
      | cons file1 after inductionHypothesis =>
          rcases le_or_gt (filelist.age file) (filelist.age file1) with order | less
          · obtain ⟨turn, onward⟩ := sortTurn_forward place order
            have shape : (before ++ [file]) ++ file1 :: after = before ++ file :: file1 :: after := by
              simp
            have result := inductionHypothesis onward (shape.symm ▸ counted)
            obtain ⟨front, other, sorted, leads, rest⟩ := result
            exact ⟨front, other, sorted, (Leads.step turn).trans leads, shape ▸ rest⟩
          · have exchange := Exchange.swap before file file1 after less
            obtain ⟨front, other, rest, shape, turn, back⟩ := sortTurn_back place less
            have flipped := filelist.sameFiles_flip file
            have fewer : inversions (filelist.flip file).age (front ++ other :: rest) < count := by
              rw [flipped.age_eq, shape, ← counted]
              exact exchange.inversions_lt
            obtain ⟨last, final, sorted, leads, ended, same, rearranged⟩ :=
              outerHypothesis _ fewer rest back rfl
            rw [flipped.age_eq, shape] at rearranged
            exact ⟨last, final, sorted, (Leads.step turn).trans leads, ended, flipped.trans same,
              exchange.rearranged.trans rearranged⟩

/-- A list of any files is sorted. -/
theorem Holds.sort {filelist : BackingFiles} {ids : List Pointer} (holds : filelist.Holds ids) :
    Exists fun sorted => Returns (fun fuel => sort fuel filelist) sorted ∧
      filelist.Sorted ids sorted := by
  cases ids with
  | nil =>
      have none : filelist.head = 0 := holds.list.forward.nil_inv
      refine ⟨filelist, ⟨0, fun fuel _ => ?_⟩, .refl _, [], holds, .refl _, List.Pairwise.nil⟩
      simp only
      rw [BackingFiles.sort, if_pos none]
  | cons file after =>
      obtain ⟨head, some, -⟩ := holds.list.forward.cons_inv
      have start : filelist.SortedUpTo [] file after := ⟨holds, List.pairwise_singleton _ _⟩
      obtain ⟨front, last, sorted, leads, ended, same, rearranged⟩ := sort_leads _ after start rfl
      obtain ⟨enough, returns⟩ := leads.returns (sortTurn_last ended)
      refine ⟨sorted, ⟨enough, fun fuel large => ?_⟩, same, front ++ [last], ended.holds,
        rearranged, ?_⟩
      · have notNull : filelist.head ≠ 0 := head.symm ▸ some
        simp only
        rw [BackingFiles.sort, if_neg notNull, head]
        exact returns fuel large
      · rw [← same.age_eq]
        exact ended.ordered

/-! ## The list of the cache -/

/-- A call of `mcachefs_backing_append_file`, with what `malloc` returns. -/
structure Appended where
  file : Pointer
  path : Path
  st_size : Int

/-- The list that calls of `mcachefs_backing_append_file` build. -/
def build (calls : List Appended) : BackingFiles :=
  calls.foldl (fun filelist call => filelist.appendFile call.file call.path call.st_size) empty

theorem Holds.build {calls : List Appended} (some : forall call, call ∈ calls -> call.file ≠ 0)
    (fresh : (calls.map Appended.file).Nodup) :
    (build calls).Holds (calls.map Appended.file).reverse := by
  induction calls using List.reverseRecOn with
  | nil => exact empty_holds
  | append_singleton calls call inductionHypothesis =>
      rw [List.map_append, List.nodup_append] at fresh
      have before := inductionHypothesis (fun other member =>
        some other (List.mem_append_left _ member)) fresh.1
      have outside : call.file ∉ (calls.map Appended.file).reverse := fun member =>
        fresh.2.2 _ (List.mem_reverse.mp member) _ List.mem_cons_self rfl
      have next := before.appendFile (some call (by simp)) outside call.path call.st_size
      simpa [BackingFiles.build] using next

theorem Holds.setAges {filelist : BackingFiles} {ids : List Pointer} (holds : filelist.Holds ids)
    (ages : Pointer -> Int) : (filelist.setAges ages).Holds ids :=
  ⟨holds.list, holds.tail⟩

/-- `mcachefs_backing_sort` ends, and sorts the files of the cache by age: the last one that
was found comes first among files of one age. -/
theorem backingSort_sorts (calls : List Appended)
    (some : forall call, call ∈ calls -> call.file ≠ 0)
    (fresh : (calls.map Appended.file).Nodup) (ages : Pointer -> Int) :
    Exists fun sorted => Returns (fun fuel => sort fuel ((build calls).setAges ages)) sorted ∧
      ((build calls).setAges ages).Sorted (calls.map Appended.file).reverse sorted :=
  ((Holds.build some fresh).setAges ages).sort

/-- Three files, the second one younger than the others. -/
theorem backingSort_sorts_three :
    Exists fun sorted => Returns (fun fuel => sort fuel ((build [⟨1, ascii "/a", 0⟩,
        ⟨2, ascii "/b", 0⟩, ⟨3, ascii "/c", 0⟩]).setAges fun file => if file = 2 then 1 else 2))
        sorted ∧
      ((build [⟨1, ascii "/a", 0⟩, ⟨2, ascii "/b", 0⟩, ⟨3, ascii "/c", 0⟩]).setAges
        fun file => if file = 2 then 1 else 2).Sorted [3, 2, 1] sorted :=
  backingSort_sorts [⟨1, ascii "/a", 0⟩, ⟨2, ascii "/b", 0⟩, ⟨3, ascii "/c", 0⟩]
    (by decide) (by decide) _

end BackingFiles

end CleanupBacking
end Mcachefs
