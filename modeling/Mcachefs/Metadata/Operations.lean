import Mcachefs.Metadata.Entry
import Mcachefs.Library.Runs

namespace Mcachefs
namespace Metadata

open Library

/-!
# Operations on the metadata tree

The functions that look paths up, read directories of the source, and create,
remove and rename entries.  Each of them runs under the metadata lock.

A pointer to an entry is its id, and the null pointer is `0`.  Each loop over
the links has a function for one turn, and all the loops get the fuel of the
environment.
-/

def ENOENT : Int := 2
def EEXIST : Int := 17
def ENOTDIR : Int := 20
def ENOSYS : Int := 38
def ENOTEMPTY : Int := 39

/-- What `fuse_get_context` and `time` tell. -/
structure Context where
  uid : UInt32
  gid : UInt32
  now : Int
  deriving DecidableEq, Repr

/-- The place of the last slash. -/
def lastSlash : Path -> Option Nat
  | [] => none
  | byte :: path =>
      match lastSlash path with
      | some place => some (place + 1)
      | none => if byte = slash then some 0 else none

/-- `mcachefs_split_path`; without a slash the name is not set. -/
def splitPath (path : Path) : Except Fault (Path × Component) :=
  match lastSlash path with
  | none => .error .noName
  | some place => .ok (path.take (max place 1), path.drop (place + 1))

namespace Fs

variable {Hash : Type} [DecidableEq Hash] [Inhabited Hash] (env : Env Hash)

/-! ## Reading directories -/

/-- `mcachefs_metadata_recurse_open`, and what `readdir` gives. -/
def recurseOpen (fs : Fs Hash) (father : Id) :
    Except Fault (Option (List (Component × Stat))) :=
  match fs.climb env.fuel father with
  | none => .error .fuel
  | some (names, _) => .ok (env.source fs.reads names)

/-- One turn of the loop over `readdir` in `mcachefs_metadata_get_child`. -/
def readEntry (father : Id) (fs : Fs Hash) (de : Component × Stat) : Fs Hash :=
  if de.1 = dot ∨ de.1 = dotdot then fs
  else if father = rootId ∧ de.1 = vopsName then fs
  else
    let (newid, fs) := fs.allocate
    let fs := fs.modify newid fun entry =>
      { entry with d_name := de.1.take (NAME_MAX + 1), st := de.2 }
    fs.doAddChild env father newid

/-- The end of `mcachefs_metadata_get_child`. -/
def markEmpty (father : Id) (fs : Fs Hash) : Fs Hash :=
  if (fs.entries father).child = .unread then
    fs.modify father fun entry => { entry with child := .empty }
  else fs

/-- `mcachefs_metadata_get_child`. -/
def getChild (father : Id) (fs : Fs Hash) : Except Fault (Id × Fs Hash) :=
  match (fs.entries father).child with
  | .empty => .ok (0, fs)
  | .first child => .ok (child, fs)
  | .unread =>
      if (fs.entries father).st.isDir = false then .ok (0, fs)
      else do
        let des ← fs.recurseOpen env father
        let fs := { fs with reads := fs.reads + 1 }
        match des with
        | none => .ok (0, fs)
        | some des =>
            let fs := (des.foldl (readEntry env father) fs).markEmpty father
            .ok (fs.first father, fs)

/-- A call of `mcachefs_metadata_get_child` for an entry that has no `child`. -/
def readChildren (id : Id) (fs : Fs Hash) : Except Fault (Fs Hash) :=
  if (fs.entries id).child = .unread then Prod.snd <$> fs.getChild env id else .ok fs

/-- The inner loop of `mcachefs_metadata_fetch_children`: the next entry up
that has a sibling, or the end. -/
def fetchClimb (fs : Fs Hash) (rootid : Id) : (fuel : Nat) -> (current : Id) ->
    Except Fault (Option Id)
  | 0, _ => .error .fuel
  | fuel + 1, current =>
      if fs.next current ≠ 0 then .ok (some current)
      else if fs.father current = rootid then .ok none
      else if fs.father current = Metadata.rootId then .ok none
      else if fs.father current = 0 then .error .noFather
      else fetchClimb fs rootid fuel (fs.father current)

/-- One turn of the loop of `mcachefs_metadata_fetch_children`. -/
def fetchTurn (rootid currentid : Id) (fs : Fs Hash) : Except Fault (Option Id × Fs Hash) :=
  if currentid = 0 then .error .nullPointer
  else do
    let isDir := (fs.entries currentid).st.isDir
    let fs ← (if isDir then fs.readChildren env currentid else .ok fs)
    if isDir ∧ (fs.entries currentid).child ≠ .empty then .ok (some (fs.first currentid), fs)
    else
      match ← fs.fetchClimb rootid env.fuel currentid with
      | none => .ok (none, fs)
      | some current =>
          if current = rootid then .ok (none, fs) else .ok (some (fs.next current), fs)

/-- `mcachefs_metadata_fetch_children`. -/
def fetchChildren (mroot : Id) (fs : Fs Hash) : Except Fault (Fs Hash) :=
  iterate .fuel (fetchTurn env mroot) env.fuel mroot fs

/-! ## Looking up paths -/

/-- `mcachefs_metadata_walk_down`; one round is one jump to its start. -/
def walkDown (path : Path) : (rounds : Nat) -> (father : Id) -> (path_size : Nat) -> Fs Hash ->
    Except Fault (Id × Fs Hash)
  | 0, _, _, _ => .error .fuel
  | rounds + 1, father, path_size, fs =>
      let path_size := path_size + 1
      if path.length < path_size then .error .pastNul
      else do
        let rpath := path.drop path_size
        let rpath_size := (rpath.takeWhile fun byte => byte ≠ slash).length
        let father_hash := (fs.entries father).hash
        let (child, fs) ← fs.getChild env father
        if child = 0 then .ok (0, fs)
        else
          let father_hash := env.hashing.continueHash father_hash [slash]
          let hash := env.hashing.continueHashPartial father_hash rpath rpath_size
          let found ← fs.findSibling (fun child => (fs.entries child).hash = hash ∧
            strncmpEqual (fs.entries child).d_name rpath rpath_size) env.fuel child
          if found = 0 then .ok (0, fs)
          else if rpath_size < rpath.length then
            walkDown path rounds found (path_size + rpath_size + 1) fs
          else .ok (found, fs)

/-- The loop of `mcachefs_metadata_find_locked` over shorter and shorter parts
of the path. -/
def semiLookup (path : Path) (fs : Fs Hash) : (path_size : Nat) -> Except Fault (Id × Nat)
  | 0 => .ok (rootId, 0)
  | size + 1 =>
      if path.getD (size + 1) 0 ≠ slash then semiLookup path fs size
      else if size + 1 ≤ 1 then .ok (rootId, size + 1)
      else do
        let hash := env.hashing.doHashPartial path (size + 1 : Nat)
        let metadata ← fs.findHash path hash (size + 1)
        if metadata ≠ 0 then .ok (metadata, size + 1) else semiLookup path fs size

/-- `mcachefs_metadata_find_locked`. -/
def findLocked (path : Path) (fs : Fs Hash) : Except Fault (Id × Fs Hash) :=
  if path = [slash] then .ok (rootId, fs)
  else do
    let metadata ← fs.findHash path (env.hashing.doHash path) path.length
    if metadata ≠ 0 then .ok (metadata, fs)
    else
      let (metadata, path_size) ← semiLookup env path fs path.length
      fs.walkDown env path (path.length + 1) metadata path_size

/-- `mcachefs_metadata_find_entry`. -/
def findEntry (mountpoint path : Path) (fs : Fs Hash) : Except Fault Id :=
  let path :=
    if strncmpEqual path mountpoint mountpoint.length then path.drop mountpoint.length else path
  let path_sz := (path.takeWhile fun byte => byte ≠ 10 ∧ byte ≠ 13).length
  if path_sz = 0 then .ok rootId
  else fs.findHash path (env.hashing.doHashPartial path path_sz) path_sz

/-! ## Removing -/

/-- Where the loop of `mcachefs_metadata_remove_children` is. -/
inductive RemoveCursor
  | current (id : Id)
  /-- Its inner loop, after the last child of this father. -/
  | rewind (father : Id)
  deriving DecidableEq, Repr

/-- Where the loop goes from an entry that it has removed. -/
def RemoveCursor.after (next father : Id) : RemoveCursor :=
  if next ≠ 0 then .current next else .rewind father

/-- One turn of the loop of `mcachefs_metadata_remove_children`. -/
def removeTurn (metadata : Id) (cursor : RemoveCursor) (fs : Fs Hash) :
    Except Fault (Option RemoveCursor × Fs Hash) :=
  match cursor with
  | .current current =>
      if fs.first current ≠ 0 then .ok (some (.current (fs.first current)), fs)
      else do
        let cursor := RemoveCursor.after (fs.next current) (fs.father current)
        let fs ← (fs.removeHash current).remove current
        .ok (some cursor, fs)
  | .rewind father =>
      if father = 0 then .error .noFather
      else if father = metadata then .ok (none, fs)
      else do
        let cursor := RemoveCursor.after (fs.next father) (fs.father father)
        let fs ← (fs.removeHash father).remove father
        .ok (some cursor, fs)

/-- `mcachefs_metadata_remove_children`. -/
def removeChildren (metadata : Id) (fs : Fs Hash) : Except Fault (Fs Hash) :=
  if fs.first metadata = 0 then .ok fs
  else do
    let fs ← iterate .fuel (removeTurn metadata) env.fuel (.current (fs.first metadata)) fs
    .ok (fs.modify metadata fun entry => { entry with child := .unread })

/-- `mcachefs_metadata_flush_entry`. -/
def flushEntry (mountpoint path : Path) (fs : Fs Hash) : Except Fault (Fs Hash) := do
  let metadata ← fs.findEntry env mountpoint path
  if metadata = 0 then .ok fs else fs.removeChildren env metadata

/-- The loop of `mcachefs_metadata_unlink_list`. -/
def unlinkLoop (mdata : Id) : (left : Nat) -> (next : Id) -> Fs Hash -> Except Fault (Fs Hash)
  | 0, _, _ => .error .tooManyLinks
  | left + 1, next, fs =>
      let fs := fs.modify next fun entry => { entry with st := lowerLinks entry.st }
      if (fs.entries next).hardlink = 0 then .error .spurious
      else if (fs.entries next).hardlink = mdata then
        let hardlink := (fs.entries mdata).hardlink
        .ok (fs.modify next fun entry =>
          { entry with hardlink := if hardlink = next then 0 else hardlink })
      else unlinkLoop mdata left (fs.entries next).hardlink fs

/-- `mcachefs_metadata_unlink_list`. -/
def unlinkList (mdata : Id) (fs : Fs Hash) : Except Fault (Fs Hash) :=
  if (fs.entries mdata).hardlink = 0 then .error .noHardlink
  else fs.unlinkLoop mdata (MAX_LINK_COUNT - 1) (fs.entries mdata).hardlink

/-- The end of `mcachefs_metadata_rmdir_unlink`. -/
def unlinkRemove (mdata : Id) (fs : Fs Hash) : Except Fault (Fs Hash) := do
  let fs ← fs.unlinkEntry env mdata
  (fs.removeHash mdata).remove mdata

/-- `mcachefs_metadata_rmdir_unlink`. -/
def rmdirUnlink (path : Path) (isDir : Bool) (fs : Fs Hash) : Except Fault (Int × Fs Hash) := do
  let (mdata, fs) ← fs.findLocked env path
  let st := (fs.entries mdata).st
  if mdata = 0 then .ok (-ENOENT, fs)
  else if isDir then
    if st.isDir = false then .ok (-ENOTDIR, fs)
    else
      let fs ← fs.readChildren env mdata
      if (fs.entries mdata).child ≠ .empty then .ok (-ENOTEMPTY, fs)
      else return (0, ← fs.unlinkRemove env mdata)
  else if st.isReg = false ∧ st.isLnk = false then .ok (-ENOSYS, fs)
  else
    let fs ← (if 1 < st.st_nlink then fs.unlinkList mdata else .ok fs)
    return (0, ← fs.unlinkRemove env mdata)

/-! ## Creating -/

/-- The attributes that `mcachefs_metadata_make_entry` sets. -/
def madeStat (context : Context) (mode : UInt32) (rdev : UInt64) : Stat :=
  { Stat.zero with
    st_uid := context.uid, st_gid := context.gid, st_nlink := 1, st_mode := mode, st_rdev := rdev
    st_atime := context.now, st_ctime := context.now, st_mtime := context.now }

/-- The entry that `mcachefs_metadata_make_entry` makes. -/
def makeChild (context : Context) (father : Id) (lname : Component) (mode : UInt32)
    (rdev : UInt64) (fs : Fs Hash) : Fs Hash :=
  let (childid, fs) := fs.allocate
  let fs := fs.modify childid fun _ =>
    { (Entry.zero : Entry Hash) with d_name := lname.take NAME_MAX }
  let fs := (fs.buildHash env father childid).insertHash childid
  let st := madeStat context mode rdev
  let fs := fs.modify childid fun entry =>
    { entry with st := st, child := if st.isDir then .empty else entry.child }
  fs.linkEntry father childid

/-- `mcachefs_metadata_make_entry`, which reads the id of the father before it
asks whether there is one. -/
def makeEntry (context : Context) (path : Path) (mode : UInt32) (rdev : UInt64) (fs : Fs Hash) :
    Except Fault (Int × Fs Hash) := do
  let (mdata, fs) ← fs.findLocked env path
  if mdata ≠ 0 then .ok (-EEXIST, fs)
  else
    let (dpath, lname) ← splitPath path
    let (father, fs) ← fs.findLocked env dpath
    if father = 0 then .error .nullPointer
    else
      let fs ← fs.readChildren env father
      .ok (0, fs.makeChild env context father lname mode rdev)

/-! ## Renaming -/

/-- The inner loop of `mcachefs_metadata_rehash_children`: the next entry up
that has a sibling, and its father, or the end. -/
def rehashClimb (fs : Fs Hash) (rootid : Id) : (fuel : Nat) -> (child fatherid : Id) ->
    Except Fault (Option (Id × Id))
  | 0, _, _ => .error .fuel
  | fuel + 1, child, fatherid =>
      if fs.next child ≠ 0 then .ok (some (child, fatherid))
      else if fs.father child = rootid then .ok none
      else if fs.father child = 0 then .error .nullPointer
      else rehashClimb fs rootid fuel (fs.father child) (fs.father (fs.father child))

/-- One turn of the loop of `mcachefs_metadata_rehash_children`, at a child and
its father. -/
def rehashTurn (rootid : Id) (cursor : Id × Id) (fs : Fs Hash) :
    Except Fault (Option (Id × Id) × Fs Hash) := do
  let (childid, fatherid) := cursor
  if childid = 0 then .error .nullChild
  else if fatherid = 0 then .error .nullPointer
  else
    let fs := ((fs.removeHash childid).buildHash env fatherid childid).insertHash childid
    let fs ← fs.updateFhPath childid
    let isDir := (fs.entries childid).st.isDir
    if isDir ∧ (fs.entries childid).child = .unread then .ok (none, fs)
    else if isDir ∧ (fs.entries childid).child ≠ .empty then
      .ok (some (fs.first childid, childid), fs)
    else
      match ← fs.rehashClimb rootid env.fuel childid fatherid with
      | none => .ok (none, fs)
      | some (child, fatherid) =>
          if child = rootid then .error .backAtRoot
          else .ok (some (fs.next child, fatherid), fs)

/-- `mcachefs_metadata_rehash_children`. -/
def rehashChildren (mdata : Id) (fs : Fs Hash) : Except Fault (Fs Hash) := do
  let (child, fs) ← fs.getChild env mdata
  if child = 0 then .ok fs
  else iterate .fuel (rehashTurn env mdata) env.fuel (child, mdata) fs

/-- The end of `mcachefs_metadata_rename_entry`, once both entries are found. -/
def moveEntry (mdata mtarget : Id) (lname : Component) (fs : Fs Hash) :
    Except Fault (Fs Hash) := do
  let fs ← fs.unlinkEntry env mdata
  let fs := fs.removeHash mdata
  let fs := fs.modify mdata fun entry => { entry with d_name := lname.take NAME_MAX }
  let fs := fs.linkEntry mtarget mdata
  let fs := (fs.buildHash env mtarget mdata).insertHash mdata
  let entry := fs.entries mdata
  let fs ← (if entry.st.isDir ∧ entry.child ≠ .empty then fs.rehashChildren env mdata else .ok fs)
  fs.updateFhPath mdata

/-- `mcachefs_metadata_rename_entry`. -/
def renameEntry (path target : Path) (fs : Fs Hash) : Except Fault (Int × Fs Hash) := do
  let (mdata, fs) ← fs.findLocked env path
  if mdata = 0 then .ok (-ENOENT, fs)
  else
    let fs ← (if (fs.entries mdata).st.isDir then fs.fetchChildren env mdata else .ok fs)
    let (mtarget, fs) ← fs.findLocked env target
    if mtarget ≠ 0 then .ok (-EEXIST, fs)
    else
      let (targetpath, lname) ← splitPath target
      let (mtarget, fs) ← fs.findLocked env targetpath
      if mtarget = 0 then .ok (-ENOENT, fs)
      else if (fs.entries mtarget).st.isDir = false then .ok (-ENOTDIR, fs)
      else return (0, ← fs.moveEntry env mdata mtarget lname)

/-! ## Virtual files -/

/-- `mcachefs_metadata_vops_remove_previous`. -/
def vopsRemovePrevious (mdata_root : Id) (fs : Fs Hash) : Except Fault (Fs Hash) := do
  let (child, fs) ← fs.getChild env mdata_root
  let found ← fs.findSibling (fun child => strncmpEqual (fs.entries child).d_name vopsName NAME_MAX)
    env.fuel child
  if found = 0 then .ok fs
  else
    let fs ← fs.removeChildren env found
    fs.unlinkRemove env found

/-- An entry that `mcachefs_metadata_vops_create_dir` or
`mcachefs_metadata_vops_create_file` makes. -/
def vopsCreate (father : Id) (name : Component) (mode : UInt32) (size : Int) (fs : Fs Hash) :
    Id × Fs Hash :=
  let (id, fs) := fs.allocate
  let fs := fs.modify id fun entry =>
    { entry with
      d_name := name
      st := { entry.st with
        st_mode := mode, st_uid := env.uid, st_gid := env.gid, st_nlink := 1, st_size := size } }
  (id, fs.doAddChild env father id)

/-- `mcachefs_metadata_vops_create_dir`. -/
def vopsCreateDir (root_id : Id) (fs : Fs Hash) : Id × Fs Hash :=
  fs.vopsCreate env root_id (vopsName.take (NAME_MAX + 1)) (S_IFDIR ||| 0o700) 0

/-- `mcachefs_metadata_vops_create_file`. -/
def vopsCreateFile (vops_meta_id : Id) (fs : Fs Hash) (vops_name : Component) : Fs Hash :=
  (fs.vopsCreate env vops_meta_id (vops_name.take NAME_MAX) (S_IFREG ||| 0o600) (2 ^ 20)).2

/-- `mcachefs_metadata_populate_vops`. -/
def populateVops (fs : Fs Hash) : Except Fault (Fs Hash) := do
  let (_, fs) ← fs.getChild env rootId
  let fs ← fs.vopsRemovePrevious env rootId
  let (vops_meta_id, fs) := fs.vopsCreateDir env rootId
  .ok (env.vops_list.foldl (vopsCreateFile env vops_meta_id) fs)

end Fs

end Metadata
end Mcachefs
