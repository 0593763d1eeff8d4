import Mcachefs.Metadata.Names
import Mcachefs.File.Mfile
import Mcachefs.Stat
import Mathlib.Logic.Function.Basic

namespace Mcachefs
namespace Metadata

open Transfer

/-!
# The entries of the metadata file

The metadata file is an array of entries, and an id is a place in it.  An entry
is in the tree, where `father`, `child` and `next` are its links, or it is free,
and then `next` leads to the next free entry.

The index that finds entries by the hash of their path is taken here as the
finite map that it stands for: the ids that are in it, where entries of one hash
keep the order of their collision list.  An entry's own `id` is its place and
never changes; it is left out.
-/

/-- `mcachefs_metadata_id`. -/
abbrev Id := Nat

/-- `mcachefs_metadata_id_root`. -/
def rootId : Id := 1

/-- `MCACHEFS_METADATA_BLOCK_ENTRY_COUNT`. -/
def BLOCK_ENTRY_COUNT : Nat := 256

/-- `MCACHEFS_METADATA_MAX_LEVELS`. -/
def MAX_LEVELS : Nat := 1024

/-- The values of the field `child`. -/
inductive Child
  /-- `0`: the directory has not been read. -/
  | unread
  /-- `mcachefs_metadata_id_EMPTY`. -/
  | empty
  /-- The id of the first child. -/
  | first (id : Id)
  deriving DecidableEq, Repr

/-- The first child, or `0`. -/
def Child.id : Child -> Id
  | .first id => id
  | _ => 0

/-- `struct mcachefs_metadata_t`; the links of the index are left out. -/
structure Entry (Hash : Type) where
  hash : Hash
  d_name : Component
  st : Stat
  father : Id
  child : Child
  next : Id
  fh : Fh
  hardlink : Id
  deriving DecidableEq, Repr

/-- A free entry; the default hash is `0`. -/
def Entry.free {Hash : Type} [Inhabited Hash] (next : Id) : Entry Hash :=
  ⟨default, [], Stat.zero, 0, .unread, next, 0, 0⟩

/-- An entry after `memset`. -/
def Entry.zero {Hash : Type} [Inhabited Hash] : Entry Hash := .free 0

/-- The metadata file, its index and the open files. -/
structure Fs (Hash : Type) where
  entries : Id -> Entry Hash
  alloced_nb : Id
  first_free : Id
  index : List Id
  mfiles : Fh -> Option Mfile
  /-- How many directories have been read so far. -/
  reads : Nat

/-- The calls of `Bug`, null pointers and reads or writes out of bounds, and the
end of the fuel that stands for a loop that goes on. -/
inductive Fault
  | nullPointer
  | maximumLevel
  | collision
  | outOfLevels
  | pastNul
  | noName
  | unlinkSlash
  | notChildOfFather
  | nullChild
  | noFather
  | backAtRoot
  | lastName
  | tooManyLevels
  | noHardlink
  | tooManyLinks
  | spurious
  | noFile
  | inconsistentId
  | inconsistentType
  | fuel
  deriving DecidableEq, Repr

/-- What surrounds the metadata file. -/
structure Env (Hash : Type) where
  hashing : HashFunction Hash
  /-- What opening a directory of the source and reading it gives, by the
  number of directories that were read before and the names on the way to it;
  `none` where it fails. -/
  source : Nat -> List Component -> Option (List (Component × Stat))
  /-- `mcachefs_vops_get_vops_list`. -/
  vops_list : List Component
  /-- `getuid` and `getgid`. -/
  uid : UInt32
  gid : UInt32
  /-- How many turns a loop may take. -/
  fuel : Nat

theorem Child.first_ne_unread (id : Id) : Child.first id ≠ .unread := by
  intro same
  cases same

theorem Child.empty_ne_unread : Child.empty ≠ .unread := by
  intro same
  cases same

/-- The names that are not entries of their own. -/
def dot : Component := ascii "."

def dotdot : Component := ascii ".."

/-- `MCACHEFS_VOPS_DIR + 1`. -/
def vopsName : Component := ascii ".mcachefs"

namespace Fs

variable {Hash : Type}

/-- Change one entry. -/
def modify (fs : Fs Hash) (id : Id) (change : Entry Hash -> Entry Hash) : Fs Hash :=
  { fs with entries := Function.update fs.entries id (change (fs.entries id)) }

/-- The links of all entries. -/
def father (fs : Fs Hash) (id : Id) : Id := (fs.entries id).father

def first (fs : Fs Hash) (id : Id) : Id := (fs.entries id).child.id

def next (fs : Fs Hash) (id : Id) : Id := (fs.entries id).next

/-! ## Free entries -/

section Free

variable [Inhabited Hash]

/-- One turn of the loop of `mcachefs_metadata_extend_free_entries`. -/
def formatFree (last : Id) (entries : Id -> Entry Hash) (nfree : Id) : Id -> Entry Hash :=
  Function.update entries nfree (.free (if nfree < last - 1 then nfree + 1 else 0))

/-- `mcachefs_metadata_extend_free_entries`. -/
def extendFreeEntries (first last : Id) (fs : Fs Hash) : Fs Hash :=
  { fs with entries := (List.range' first (last - first)).foldl (formatFree last) fs.entries }

/-- The entry of the root; `st` are the attributes of the source. -/
def rootEntry (env : Env Hash) (st : Stat) : Entry Hash :=
  { (Entry.zero : Entry Hash) with d_name := [slash], hash := env.hashing.doHash [slash], st := st }

/-- `mcachefs_metadata_format`. -/
def format (env : Env Hash) (st : Stat) : Fs Hash :=
  extendFreeEntries 2 BLOCK_ENTRY_COUNT
    { entries := Function.update (fun _ => Entry.zero) rootId (rootEntry env st)
      alloced_nb := BLOCK_ENTRY_COUNT
      first_free := 2
      index := [rootId]
      mfiles := fun _ => none
      reads := 0 }

/-- `mcachefs_metadata_allocate`. -/
def allocate (fs : Fs Hash) : Id × Fs Hash :=
  let fs :=
    if fs.first_free = 0 then
      { extendFreeEntries fs.alloced_nb (fs.alloced_nb + BLOCK_ENTRY_COUNT) fs with
        first_free := fs.alloced_nb
        alloced_nb := fs.alloced_nb + BLOCK_ENTRY_COUNT }
    else fs
  (fs.first_free, { fs with first_free := fs.next fs.first_free })

/-- Change the open file of an entry that has one. -/
def modifyFile (id : Id) (change : Mfile -> Mfile) (fs : Fs Hash) : Except Fault (Fs Hash) :=
  let fh := (fs.entries id).fh
  if fh = 0 then .ok fs
  else
    match fs.mfiles fh with
    | none => .error .noFile
    | some mfile => .ok { fs with mfiles := Function.update fs.mfiles fh (some (change mfile)) }

/-- `mcachefs_metadata_remove`. -/
def remove (id : Id) (fs : Fs Hash) : Except Fault (Fs Hash) := do
  let fs ← fs.modifyFile id fun mfile => { mfile with metadata_id := 0 }
  .ok { fs.modify id fun _ => .free fs.first_free with first_free := id }

end Free

/-! ## The index -/

/-- `mcachefs_metadata_insert_hash`: behind the entries of its hash, as behind all others. -/
def insertHash (id : Id) (fs : Fs Hash) : Fs Hash :=
  { fs with index := fs.index ++ [id] }

/-- `mcachefs_metadata_remove_hash`. -/
def removeHash (id : Id) (fs : Fs Hash) : Fs Hash :=
  { fs with index := fs.index.erase id }

/-- `mcachefs_metadata_build_hash`. -/
def buildHash (env : Env Hash) (father child : Id) (fs : Fs Hash) : Fs Hash :=
  let above := fs.entries father
  let hash := if above.father ≠ 0 then env.hashing.continueHash above.hash [slash] else above.hash
  fs.modify child fun entry => { entry with hash := env.hashing.continueHash hash entry.d_name }

/-! ## Links -/

/-- `mcachefs_metadata_link_entry`. -/
def linkEntry (father child : Id) (fs : Fs Hash) : Fs Hash :=
  (fs.modify child fun entry => { entry with father := father, next := fs.first father }).modify
    father fun entry => { entry with child := .first child }

/-- The loop of `mcachefs_metadata_unlink_entry`: the child before `id`. -/
def findPrevious (fs : Fs Hash) (id : Id) : (fuel : Nat) -> Id -> Except Fault Id
  | 0, _ => .error .fuel
  | fuel + 1, next =>
      if fs.next next = 0 then .error .notChildOfFather
      else if fs.next next = id then .ok next
      else findPrevious fs id fuel (fs.next next)

/-- `mcachefs_metadata_unlink_entry`. -/
def unlinkEntry (env : Env Hash) (id : Id) (fs : Fs Hash) : Except Fault (Fs Hash) :=
  let father := fs.father id
  if father = 0 then .error .unlinkSlash
  else if (fs.entries father).child = .first id then
    .ok (fs.modify father fun entry =>
      { entry with child := if fs.next id ≠ 0 then .first (fs.next id) else .empty })
  else if fs.first father = 0 then .error .nullPointer
  else do
    let previous ← fs.findPrevious id env.fuel (fs.first father)
    .ok (fs.modify previous fun entry => { entry with next := fs.next id })

/-- `mcachefs_metadata_do_add_child`, which links as `linkEntry` does. -/
def doAddChild (env : Env Hash) (father child : Id) (fs : Fs Hash) : Fs Hash :=
  ((fs.linkEntry father child).buildHash env father child).insertHash child

/-- A loop over a list of children, up to the first one that is looked for. -/
def findSibling (fs : Fs Hash) (found : Id -> Bool) : (fuel : Nat) -> Id -> Except Fault Id
  | 0, _ => .error .fuel
  | fuel + 1, child =>
      if child = 0 then .ok 0
      else if found child then .ok child
      else findSibling fs found fuel (fs.next child)

/-! ## Paths -/

/-- The names on the way to an entry and the entry it starts from; `none` if
there are more than `levels` names. -/
def climb (fs : Fs Hash) (levels : Nat) (id : Id) : Option (List Component × Id) :=
  if fs.father id = 0 then some ([], id)
  else
    match levels with
    | 0 => none
    | levels + 1 =>
        (climb fs levels (fs.father id)).map fun way => (way.1 ++ [(fs.entries id).d_name], way.2)

/-- `mcachefs_metadata_get_path`. -/
def getPath (fs : Fs Hash) (id : Id) : Except Fault Path :=
  match fs.climb MAX_LEVELS id with
  | none => .error .tooManyLevels
  | some (names, top) =>
      if (fs.entries top).d_name = [slash] then .ok (pathString names) else .error .lastName

/-- `mcachefs_metadata_update_fh_path`. -/
def updateFhPath (id : Id) (fs : Fs Hash) : Except Fault (Fs Hash) :=
  if (fs.entries id).fh = 0 then .ok fs
  else do
    let newpath ← fs.getPath id
    fs.modifyFile id fun mfile => { mfile with path := newpath }

/-- The loop of `mcachefs_metadata_equals`: `current_name` is what is left of a
name and `names` are those after it. -/
def equalsLoop (path_size : Nat) : (names : List Component) -> (current_name : Component) ->
    (path_idx : Nat) -> Path -> Except Fault Bool
  | names, current_name, _, [] => .ok (decide (names = [] ∧ current_name = []))
  | names, current_name, path_idx, byte :: cpath =>
      if path_idx + 1 = path_size then .ok true
      else
        match current_name with
        | [] =>
            if byte ≠ slash then .error .collision
            else
              match names with
              | [] => .error .outOfLevels
              | name :: names => equalsLoop path_size names name (path_idx + 1) cpath
        | letter :: current_name =>
            if byte ≠ letter then .ok false
            else equalsLoop path_size names current_name (path_idx + 1) cpath

/-- `mcachefs_metadata_equals`. -/
def equals (fs : Fs Hash) (id : Id) (path : Path) (path_size : Nat) : Except Fault Bool :=
  if path = [slash] then .ok (decide (id = rootId))
  else
    match fs.climb (MAX_LEVELS - 1) id with
    | none => .error .maximumLevel
    | some ([], _) => .error .outOfLevels
    | some (name :: names, _) =>
        match path with
        | [] => .error .pastNul
        | _ :: cpath => equalsLoop path_size names name 0 cpath

/-- The loop of `mcachefs_metadata_find_hash` over the entries of one hash. -/
def findEqual (fs : Fs Hash) (path : Path) (path_size : Nat) : List Id -> Except Fault Id
  | [] => .ok 0
  | id :: ids => do
      if ← fs.equals id path path_size then .ok id else findEqual fs path path_size ids

/-- `mcachefs_metadata_find_hash`. -/
def findHash [DecidableEq Hash] (fs : Fs Hash) (path : Path) (hash : Hash) (path_size : Nat) :
    Except Fault Id :=
  fs.findEqual path path_size (fs.index.filter fun id => (fs.entries id).hash = hash)

end Fs

end Metadata
end Mcachefs
