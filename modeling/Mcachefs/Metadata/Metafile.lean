import Mcachefs.Metadata.Shape
import Mcachefs.Metadata.HashStore
import Mcachefs.CBuffer

namespace Mcachefs
namespace MetadataMap

open Library Metadata

/-!
# The metafile

The entries live in a file that is mapped into memory block by block, on demand, and
unmapped again when a block has not been used for a while.  `metadata_map` says which
blocks are mapped, and a pointer to an entry leads through it into the file.

What the rest of the program sees of all this is an image: the fields of the entries,
and the head.  The metadata tree and the hash index are two views of it.
-/

/-- The fields of an entry that make up the index, but for the hash. -/
structure IndexLinks where
  up : Id
  left : Id
  right : Id
  color : Color
  collision_next : Id
  collision_previous : Id
  deriving DecidableEq, Repr

/-- The fields of `struct mcachefs_metadata_t` other than `id`. -/
structure Fields (Hash : Type) where
  entry : Entry Hash
  links : IndexLinks
  deriving DecidableEq, Repr

/-- `struct mcachefs_metadata_t`. -/
structure Slot (Hash : Type) where
  id : Id
  fields : Fields Hash
  deriving DecidableEq, Repr

/-- `struct mcachefs_metadata_head_t`. -/
structure Head where
  magic : List Byte
  alloced_nb : Id
  first_free : Id
  hash_root : Id
  deriving DecidableEq, Repr

/-- The metafile: its head, the entry at each place, and how many bytes it has. -/
structure File (Hash : Type) where
  head : Head
  slots : Id -> Slot Hash
  size : Nat

/-- `struct mcachefs_metadata_map_t`; `map` is the block of the file that is mapped there. -/
structure Cell where
  map : Option Id
  last_used : Int
  deriving DecidableEq, Repr

/-- The metafile while it is open, and the static variables of the functions below. -/
structure Metafile (Hash : Type) where
  file : File Hash
  metadata_map : List Cell
  metadata_map_mmap_count : Int
  last_release : Int

/-- While it is closed: the file, if there is one of that name. -/
structure Closed (Hash : Type) where
  file : Option (File Hash)
  metadata_map_mmap_count : Int
  last_release : Int

/-- The address of an entry: the cell of its block, and where it is in it. -/
structure Pointer where
  block : Id
  block_idx : Id
  deriving DecidableEq, Repr

/-- Reads and writes that are out of bounds, and a call of `Bug`. -/
inductive MapFault
  /-- Beyond `metadata_map`. -/
  | pastMap
  /-- A page that the file does not reach. -/
  | pastFile
  | unmapped
  | nullPointer
  | negativeSize
  | invalidNext
  deriving DecidableEq, Repr

/-- Why a function does not return.  `exit` leaves the file behind. -/
inductive Stop (Hash : Type)
  | fault (fault : MapFault)
  | exit (file : Option (File Hash))

/-- Which system calls succeed: those on the metafile, `pwrite` by the place that is written and
`mmap` by the block that is mapped, and `stat` of the source. -/
structure Sys where
  stats : Bool
  opens : Bool
  preads : Bool
  pwrites : Id -> Bool
  fstats : Bool
  /-- `mmap` of the head. -/
  mmapsHead : Bool
  mmaps : Id -> Bool
  source : Option Stat

/-- The head of the metafile can be read. -/
def Sys.reads (sys : Sys) : Bool := sys.stats && sys.preads

/-- `MCACHEFS_METADATA_ENTRY_SIZE`. -/
def ENTRY_SIZE : Nat := 512

/-- `sizeof(struct mcachefs_metadata_t)` and `sizeof(struct mcachefs_metadata_head_t)`. -/
def SLOT_BYTES : Nat := 504

def HEAD_BYTES : Nat := 88

/-- What is mapped in one piece. -/
def PAGE_SIZE : Nat := 4096

/-- `MCACHEFS_METADATA_MAGIC`, with the hash algorithm that is compiled in. -/
def METADATA_MAGIC : Path := ascii "mcachefs.metafile.rbtree.4.32.6.16"

variable {Hash : Type}

section Fields

variable [Inhabited Hash]

/-- After `memset`; the colour `0` is `BLACK`. -/
def IndexLinks.zero : IndexLinks := ⟨0, 0, 0, .black, 0, 0⟩

/-- The fields of a free entry. -/
def Fields.free (next : Id) : Fields Hash := ⟨.free next, .zero⟩

def Slot.zero : Slot Hash := ⟨0, .free 0⟩

/-- A file without bytes. -/
def File.empty : File Hash := ⟨⟨[], 0, 0, 0⟩, fun _ => Slot.zero, 0⟩

end Fields

/-! ## Writing to the file -/

/-- `pwrite` of an entry at its place. -/
def File.pwrite (slot : Slot Hash) (file : File Hash) : File Hash :=
  { file with
    slots := Function.update file.slots slot.id slot
    size := max file.size (ENTRY_SIZE * slot.id + SLOT_BYTES) }

/-- The loop of `mcachefs_metadata_extend_free_entries`. -/
def File.formatEntries [Inhabited Hash] (sys : Sys) (last : Id) :
    List Id -> File Hash -> Except (Stop Hash) (File Hash)
  | [], file => .ok file
  | nfree :: rest, file =>
      if sys.pwrites nfree then
        (file.pwrite ⟨nfree, .free (if nfree < last - 1 then nfree + 1 else 0)⟩).formatEntries sys
          last rest
      else .error (.exit (some file))

/-- `mcachefs_metadata_extend_free_entries`. -/
def File.extendFreeEntries [Inhabited Hash] (sys : Sys) (first last : Id) (file : File Hash) :
    Except (Stop Hash) (File Hash) :=
  file.formatEntries sys last (List.range' first (last - first))

/-- The head that `mcachefs_metadata_format` writes. -/
def Head.formatted : Head where
  magic := METADATA_MAGIC ++ List.replicate (64 - METADATA_MAGIC.length) 0
  alloced_nb := BLOCK_ENTRY_COUNT
  first_free := 2
  hash_root := 1

/-- `mcachefs_metadata_format`. -/
def File.format [Inhabited Hash] (env : Env Hash) (sys : Sys) (file : File Hash) :
    Except (Stop Hash) (File Hash) :=
  if sys.pwrites 0 then
    let file := { file with head := Head.formatted, size := max file.size HEAD_BYTES }
    match sys.source with
    | none => .error (.exit (some file))
    | some st =>
        if sys.pwrites rootId then
          (file.pwrite ⟨rootId, Fs.rootEntry env st, .zero⟩).extendFreeEntries sys 2
            BLOCK_ENTRY_COUNT
        else .error (.exit (some file))
  else .error (.exit (some file))

namespace Metafile

/-! ## The map -/

/-- Change one cell of `metadata_map`. -/
def modifyCell (block : Id) (change : Cell -> Cell) (metafile : Metafile Hash) : Metafile Hash :=
  { metafile with metadata_map := metafile.metadata_map.modify block change }

/-- `mcachefs_metadata_mmap_block`. -/
def mmapBlock (sys : Sys) (block : Id) (metafile : Metafile Hash) :
    Except (Stop Hash) (Metafile Hash) :=
  if sys.mmaps block then
    .ok { metafile.modifyCell block fun cell => { cell with map := some block } with
      metadata_map_mmap_count := metafile.metadata_map_mmap_count + 1 }
  else .error (.exit (some metafile.file))

/-- `mcachefs_metadata_do_get`, which returns `NULL` for the null id. -/
def doGet (sys : Sys) (now : Int) (id : Id) (metafile : Metafile Hash) :
    Except (Stop Hash) (Option Pointer × Metafile Hash) :=
  if id = 0 then .ok (none, metafile)
  else
    let block := id / BLOCK_ENTRY_COUNT
    match metafile.metadata_map[block]? with
    | none => .error (.fault .pastMap)
    | some cell =>
        let mapped := if cell.map = none then metafile.mmapBlock sys block else .ok metafile
        mapped.map fun metafile =>
          (some ⟨block, id % BLOCK_ENTRY_COUNT⟩,
            metafile.modifyCell block fun cell => { cell with last_used := now })

/-- The place in the file that a pointer leads to. -/
def place (pointer : Pointer) (metafile : Metafile Hash) : Except MapFault Id :=
  match metafile.metadata_map[pointer.block]?.bind Cell.map with
  | none => .error .unmapped
  | some block =>
      let id := block * BLOCK_ENTRY_COUNT + pointer.block_idx
      if ENTRY_SIZE * id / PAGE_SIZE * PAGE_SIZE < metafile.file.size then .ok id
      else .error .pastFile

/-- What an entry holds that a pointer leads to. -/
def read (pointer : Pointer) (metafile : Metafile Hash) : Except MapFault (Slot Hash) :=
  (metafile.place pointer).map metafile.file.slots

/-- A store through a pointer. -/
def write (pointer : Pointer) (change : Slot Hash -> Slot Hash) (metafile : Metafile Hash) :
    Except MapFault (Metafile Hash) :=
  (metafile.place pointer).map fun id =>
    { metafile with file :=
      { metafile.file with
        slots := Function.update metafile.file.slots id (change (metafile.file.slots id)) } }

def setHead (change : Head -> Head) (metafile : Metafile Hash) : Metafile Hash :=
  { metafile with file := { metafile.file with head := change metafile.file.head } }

/-- A fault among the things that can stop a function. -/
def faulty {Value : Type} (result : Except MapFault Value) : Except (Stop Hash) Value :=
  result.mapError .fault

/-- `mcachefs_metadata_do_get` and a read of the entry. -/
def get (sys : Sys) (now : Int) (id : Id) (metafile : Metafile Hash) :
    Except (Stop Hash) (Slot Hash × Metafile Hash) := do
  let (pointer, metafile) ← metafile.doGet sys now id
  match pointer with
  | none => .error (.fault .nullPointer)
  | some pointer =>
      let slot ← faulty (metafile.read pointer)
      return (slot, metafile)

/-- `mcachefs_metadata_do_get` and stores to the entry. -/
def put (sys : Sys) (now : Int) (id : Id) (change : Slot Hash -> Slot Hash)
    (metafile : Metafile Hash) : Except (Stop Hash) (Metafile Hash) := do
  let (pointer, metafile) ← metafile.doGet sys now id
  match pointer with
  | none => .error (.fault .nullPointer)
  | some pointer => faulty (metafile.write pointer change)

/-- `mcachefs_resize_metadata_map`. -/
def resizeMap (metafile : Metafile Hash) : Except (Stop Hash) (Metafile Hash) :=
  let nbblocks := metafile.file.head.alloced_nb / BLOCK_ENTRY_COUNT
  if nbblocks < metafile.metadata_map.length then .error (.fault .negativeSize)
  else
    .ok { metafile with
      metadata_map := metafile.metadata_map ++
        List.replicate (nbblocks - metafile.metadata_map.length) ⟨none, 0⟩ }

/-- The loop of `mcachefs_metadata_reset_fh`. -/
def resetFhs (sys : Sys) (now : Int) : List Id -> Metafile Hash ->
    Except (Stop Hash) (Metafile Hash)
  | [], metafile => .ok metafile
  | id :: rest, metafile => do
      let metafile ← metafile.put sys now id fun mdata =>
        { mdata with fields := { mdata.fields with entry := { mdata.fields.entry with fh := 0 } } }
      resetFhs sys now rest metafile

/-- `mcachefs_metadata_reset_fh`. -/
def resetFh (sys : Sys) (now : Int) (metafile : Metafile Hash) :
    Except (Stop Hash) (Metafile Hash) :=
  metafile.resetFhs sys now (List.range' rootId (metafile.file.head.alloced_nb - rootId))

/-! ## Releasing blocks -/

/-- A cell whose block is unmapped in `mcachefs_metadata_release_all`. -/
def Stale (forceUnmap : Bool) (ttl now : Int) (cell : Cell) : Prop :=
  cell.map ≠ none ∧ (forceUnmap = true ∨ ttl ≤ now - cell.last_used)

instance (forceUnmap : Bool) (ttl now : Int) (cell : Cell) :
    Decidable (Stale forceUnmap ttl now cell) :=
  inferInstanceAs (Decidable (_ ∧ _))

/-- The loop of `mcachefs_metadata_release_all`, and what is taken off the count. -/
def releaseBlocks (forceUnmap : Bool) (ttl now : Int) :
    (nbblocks : Nat) -> List Cell -> Except MapFault (List Cell × Int)
  | 0, cells => .ok (cells, 0)
  | _ + 1, [] => .error .pastMap
  | nbblocks + 1, cell :: cells =>
      (releaseBlocks forceUnmap ttl now nbblocks cells).map fun (cells, released) =>
        if Stale forceUnmap ttl now cell then ({ cell with map := none } :: cells, released + 1)
        else (cell :: cells, released)

/-- `mcachefs_metadata_release_all`. -/
def releaseAll (forceUnmap : Bool) (ttl now : Int) (metafile : Metafile Hash) :
    Except MapFault (Metafile Hash) :=
  if forceUnmap = false ∧ now - ttl ≤ metafile.last_release then .ok metafile
  else
    (releaseBlocks forceUnmap ttl now (metafile.file.head.alloced_nb / BLOCK_ENTRY_COUNT)
        metafile.metadata_map).map fun (cells, released) =>
      { metafile with
        metadata_map := cells
        metadata_map_mmap_count := metafile.metadata_map_mmap_count - released
        last_release := now }

/-! ## Opening and closing -/

/-- The head that `mcachefs_metadata_open` accepts. -/
def Valid (file : File Hash) : Prop :=
  HEAD_BYTES ≤ file.size ∧ strcmpEqual file.head.magic METADATA_MAGIC = some true

instance (file : File Hash) : Decidable (Valid file) :=
  inferInstanceAs (Decidable (_ ∧ _))

section Entries

variable [Inhabited Hash]

/-- In `mcachefs_metadata_open`: `mcachefs_metadata_format`, and the `fstat` behind it. -/
def formatFile (env : Env Hash) (sys : Sys) (file : File Hash) :
    Except (Stop Hash) (File Hash) := do
  let file ← file.format env sys
  if sys.fstats then .ok file else .error (.exit (some file))

/-- `mcachefs_metadata_open`, up to the open file.  What `stat` does not show is truncated, and
what `pread` does not show is written over. -/
def openFile (env : Env Hash) (sys : Sys) (file : Option (File Hash)) :
    Except (Stop Hash) (File Hash) :=
  match if sys.stats then file.filter fun file => file.size ≠ 0 else none with
  | some file =>
      if sys.opens then
        if sys.preads = true ∧ Valid file then .ok file else formatFile env sys file
      else .error (.exit (some file))
  | none => if sys.opens then formatFile env sys File.empty else .error (.exit file)

/-- `mcachefs_metadata_open`. -/
def openMetafile (env : Env Hash) (sys : Sys) (now : Int) (closed : Closed Hash) :
    Except (Stop Hash) (Metafile Hash) := do
  let file ← openFile env sys closed.file
  if sys.mmapsHead then
    let metafile : Metafile Hash :=
      ⟨file, [], closed.metadata_map_mmap_count, closed.last_release⟩
    let metafile ← metafile.resizeMap
    metafile.resetFh sys now
  else .error (.exit (some file))

/-- `mcachefs_metadata_close`. -/
def close (ttl now : Int) (metafile : Metafile Hash) : Except MapFault (Closed Hash) :=
  (metafile.releaseAll true ttl now).map fun metafile =>
    ⟨some metafile.file, metafile.metadata_map_mmap_count, metafile.last_release⟩

/-- `mcachefs_metadata_flush`, from where it has the lock.  Neither a failed `truncate` nor a
failed `unlink` keeps it from going on. -/
def flush (env : Env Hash) (sys : Sys) (truncates unlinks : Bool) (ttl now : Int)
    (metafile : Metafile Hash) : Except (Stop Hash) (Metafile Hash) := do
  let closed ← faulty (metafile.close ttl now)
  let file := if truncates then closed.file.map fun file => { file with size := 0 } else closed.file
  let file := if unlinks then none else file
  openMetafile env sys now { closed with file := file }

/-! ## Allocating -/

/-- `mcachefs_metadata_allocate`. -/
def allocate (sys : Sys) (now : Int) (metafile : Metafile Hash) :
    Except (Stop Hash) (Id × Metafile Hash) := do
  let metafile ←
    (if metafile.file.head.first_free = 0 then do
      let first_alloced := metafile.file.head.alloced_nb
      let last_alloced := first_alloced + BLOCK_ENTRY_COUNT
      let file ← metafile.file.extendFreeEntries sys first_alloced last_alloced
      let metafile := { metafile with file := file }
      (metafile.setHead fun head =>
        { head with first_free := first_alloced, alloced_nb := last_alloced }).resizeMap
    else .ok metafile)
  let (next, metafile) ← metafile.get sys now metafile.file.head.first_free
  let metafile := metafile.setHead fun head => { head with first_free := next.fields.entry.next }
  if next.id = 0 then .error (.fault .invalidNext) else .ok (next.id, metafile)

/-- `mcachefs_metadata_remove`, without the open file. -/
def remove (sys : Sys) (now : Int) (id : Id) (metafile : Metafile Hash) :
    Except (Stop Hash) (Metafile Hash) := do
  let (metadata, metafile) ← metafile.get sys now id
  let metafile ← metafile.put sys now id fun metadata =>
    ⟨metadata.id, .free metafile.file.head.first_free⟩
  return metafile.setHead fun head => { head with first_free := metadata.id }

end Entries

end Metafile

/-! ## The image -/

/-- What a metafile holds: the fields of the entries and the head. -/
structure Image (Hash : Type) where
  fields : Id -> Fields Hash
  alloced_nb : Id
  first_free : Id
  hash_root : Id

namespace Image

/-- The metadata tree of an image; `rest` has what is not in the file. -/
def fs (image : Image Hash) (rest : Fs Hash) : Fs Hash :=
  { rest with
    entries := fun id => (image.fields id).entry
    alloced_nb := image.alloced_nb
    first_free := image.first_free }

/-- The hash index of an image. -/
def store (image : Image Hash) : HashIndex.Store Hash where
  entries id :=
    let ⟨entry, links⟩ := image.fields id
    ⟨entry.hash, links.left, links.right, links.up, links.color, links.collision_next,
      links.collision_previous⟩
  hash_root := image.hash_root

/-- The free entries, as the links lead through them. -/
def next (image : Image Hash) (id : Id) : Id := (image.fields id).entry.next

/-- The free list of an image. -/
structure Frees (image : Image Hash) (free : List Id) : Prop where
  list : Segment image.next image.first_free free 0
  range : forall id, id ∈ free -> rootId < id ∧ id < image.alloced_nb

/-- An entry that is there and not free. -/
def Used (image : Image Hash) (id : Id) : Prop :=
  rootId ≤ id ∧ id < image.alloced_nb ∧ forall free, image.Frees free -> id ∉ free

def modify (id : Id) (change : Fields Hash -> Fields Hash) (image : Image Hash) : Image Hash :=
  { image with fields := Function.update image.fields id (change (image.fields id)) }

/-- No entry has an open file. -/
def resetFh (image : Image Hash) : Image Hash :=
  { image with fields := fun id =>
      if rootId ≤ id ∧ id < image.alloced_nb then
        { image.fields id with entry := { (image.fields id).entry with fh := 0 } }
      else image.fields id }

section Entries

variable [Inhabited Hash]

/-- The entries `first` to `last` become a free list. -/
def extend (first last : Id) (image : Image Hash) : Image Hash :=
  { image with fields := fun id =>
      if first ≤ id ∧ id < last then .free (if id < last - 1 then id + 1 else 0)
      else image.fields id }

/-- A formatted metafile. -/
def format (env : Env Hash) (st : Stat) : Image Hash :=
  extend 2 BLOCK_ENTRY_COUNT
    { fields := Function.update (fun _ => .free 0) rootId ⟨Fs.rootEntry env st, .zero⟩
      alloced_nb := BLOCK_ENTRY_COUNT
      first_free := 2
      hash_root := 1 }

/-- A new block of entries, where none is free. -/
def grow (image : Image Hash) : Image Hash :=
  if image.first_free = 0 then
    { image.extend image.alloced_nb (image.alloced_nb + BLOCK_ENTRY_COUNT) with
      first_free := image.alloced_nb
      alloced_nb := image.alloced_nb + BLOCK_ENTRY_COUNT }
  else image

def allocate (image : Image Hash) : Id × Image Hash :=
  (image.grow.first_free, { image.grow with first_free := image.grow.next image.grow.first_free })

def remove (id : Id) (image : Image Hash) : Image Hash :=
  { image.modify id fun _ => .free image.first_free with first_free := id }

/-! ### Its views -/

theorem fs_extend (image : Image Hash) (rest : Fs Hash) (first last : Id) :
    (image.extend first last).fs rest = Fs.extendFreeEntries first last (image.fs rest) := by
  have entries : ((image.extend first last).fs rest).entries =
      (Fs.extendFreeEntries first last (image.fs rest)).entries := by
    funext id
    rw [Shape.extendFreeEntries_entries]
    simp only [fs, extend]
    split
    · rfl
    · rfl
  simp only [fs, Fs.extendFreeEntries] at entries ⊢
  rw [entries]
  rfl

/-- The tree of a formatted metafile is the one that the metadata functions start from. -/
theorem fs_format (env : Env Hash) (st : Stat) :
    (format env st).fs (Fs.format env st) = Fs.format env st := by
  rw [format, fs_extend]
  have entries : (fun id =>
      (Function.update (fun _ => Fields.free 0) rootId ⟨Fs.rootEntry env st, .zero⟩ id).entry) =
        Function.update (fun _ => Entry.zero) rootId (Fs.rootEntry env st) := by
    funext id
    by_cases root : id = rootId
    · rw [root, Function.update_self, Function.update_self]
    · rw [Function.update_of_ne root, Function.update_of_ne root]
      rfl
  simp only [fs, entries]
  rfl

/-- `allocate` is the `mcachefs_metadata_allocate` of the metadata tree. -/
theorem fs_allocate (image : Image Hash) (rest : Fs Hash) :
    (image.fs rest).allocate = (image.allocate.1, image.allocate.2.fs rest) := by
  have grown : image.grow.fs rest =
      (if image.first_free = 0 then
        { Fs.extendFreeEntries image.alloced_nb (image.alloced_nb + BLOCK_ENTRY_COUNT)
            (image.fs rest) with
          first_free := image.alloced_nb
          alloced_nb := image.alloced_nb + BLOCK_ENTRY_COUNT }
      else image.fs rest) := by
    unfold grow
    split
    · rw [← fs_extend]
      rfl
    · rfl
  rw [Fs.allocate]
  simp only [show (image.fs rest).first_free = image.first_free from rfl,
    show (image.fs rest).alloced_nb = image.alloced_nb from rfl, ← grown]
  rfl

/-- `remove` is what `mcachefs_metadata_remove` does to the entries. -/
theorem fs_remove (image : Image Hash) {rest next : Fs Hash} {id : Id}
    (removed : (image.fs rest).remove id = .ok next) : next = (image.remove id).fs next := by
  have entries : next.entries = fun other => ((image.remove id).fields other).entry := by
    funext other
    rw [remove_eq removed]
    by_cases same : other = id
    · rw [same]
      simp only [Fs.modify, remove, modify, Function.update_self]
      rfl
    · simp only [Fs.modify, remove, modify, Function.update_of_ne same]
      rfl
  have alloced_nb : next.alloced_nb = image.alloced_nb := by
    rw [remove_eq removed]
    rfl
  have first_free : next.first_free = id := by
    rw [remove_eq removed]
  clear removed
  obtain ⟨nextEntries, nextAlloced, nextFree, index, mfiles, reads⟩ := next
  dsimp only at entries alloced_nb first_free
  subst entries alloced_nb first_free
  rfl

end Entries

/-- A store to an entry is one in the metadata tree. -/
theorem fs_modify (image : Image Hash) (rest : Fs Hash) (id : Id)
    (change : Fields Hash -> Fields Hash) :
    (image.modify id change).fs rest =
      (image.fs rest).modify id fun _ => (change (image.fields id)).entry := by
  have entries : (fun other => ((image.modify id change).fields other).entry) =
      Function.update (fun other => (image.fields other).entry) id
        (change (image.fields id)).entry := by
    funext other
    by_cases same : other = id
    · rw [same, Function.update_self]
      exact congrArg Fields.entry (Function.update_self ..)
    · rw [Function.update_of_ne same]
      exact congrArg Fields.entry (Function.update_of_ne same ..)
  simp only [fs, entries]
  rfl

/-- And one in the hash index. -/
theorem store_modify (image : Image Hash) (id : Id) (change : Fields Hash -> Fields Hash) :
    (image.modify id change).store =
      image.store.modify id fun _ =>
        ((image.modify id change).store).entries id := by
  have entries : (image.modify id change).store.entries =
      Function.update image.store.entries id ((image.modify id change).store.entries id) := by
    funext other
    by_cases same : other = id
    · rw [same, Function.update_self]
    · rw [Function.update_of_ne same]
      simp only [store, modify, Function.update_of_ne same]
  simp only [HashIndex.Store.modify, ← entries]
  rfl

/-- There is one free list. -/
theorem Frees.unique {image : Image Hash} {free others : List Id} (frees : image.Frees free)
    (again : image.Frees others) : free = others :=
  frees.list.unique again.list

theorem Frees.used_iff {image : Image Hash} {free : List Id} (frees : image.Frees free) {id : Id} :
    image.Used id ↔ rootId ≤ id ∧ id < image.alloced_nb ∧ id ∉ free := by
  constructor
  · rintro ⟨above, below, apart⟩
    exact ⟨above, below, apart free frees⟩
  · rintro ⟨above, below, apart⟩
    exact ⟨above, below, fun others again => frees.unique again ▸ apart⟩

theorem Frees.first_free_lt {image : Image Hash} {free : List Id} (frees : image.Frees free)
    (some : image.first_free ≠ 0) :
    rootId ≤ image.first_free ∧ image.first_free < image.alloced_nb := by
  have first := frees.list.first_eq
  cases free with
  | nil => exact absurd first some
  | cons id free =>
      have range := frees.range id List.mem_cons_self
      rw [show image.first_free = id from first]
      exact ⟨range.1.le, range.2⟩

/-- An image whose entries in use have changed has the same free list. -/
theorem Frees.modify {image : Image Hash} {free : List Id} (frees : image.Frees free) {id : Id}
    (apart : id ∉ free) (change : Fields Hash -> Fields Hash) :
    (image.modify id change).Frees free := by
  refine ⟨frees.list.congr fun other member => ?_, frees.range⟩
  simp only [Image.next, Image.modify, Function.update_of_ne (ne_of_mem_of_not_mem member apart)]

theorem Frees.resetFh {image : Image Hash} {free : List Id} (frees : image.Frees free) :
    image.resetFh.Frees free := by
  refine ⟨frees.list.congr fun other _ => ?_, frees.range⟩
  simp only [Image.next, Image.resetFh]
  split
  · rfl
  · rfl

/-- Where the image is that of a tree, its nodes are the entries in use. -/
theorem used_iff_node [Inhabited Hash] {image : Image Hash} {rest : Fs Hash} {first : Id -> Id}
    {kids : Id -> List Id} {free : List Id} {hand : Option Id}
    (shape : Shape (image.fs rest) first kids free hand) {id : Id} :
    image.Used id ↔ Node (image.fs rest) free id :=
  Frees.used_iff ⟨shape.freeList, shape.freeRange⟩

end Image

end MetadataMap
end Mcachefs
