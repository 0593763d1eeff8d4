import Mcachefs.Metadata.FailedCalls
import Mcachefs.Lowlevel.NamesRuns

namespace Mcachefs
namespace Lowlevel

open Library Metadata Journal

/-!
# What failed callbacks leave behind

The callbacks that change names change the metadata, the cache and the journal one after the
other.  A callback that fails on the way is to take back what it has done; `mcachefs_mknod` does
not, and `mcachefs_symlink` does where the cache refuses the link, but not where it refuses the
path.
-/

variable {Hash : Type} [DecidableEq Hash] [Inhabited Hash] (env : Env Hash)

/-- The metadata tree and the journal are as they were, but for directories that have been
read. -/
def Untouched (mount next : Mount Hash) : Prop :=
  next.journal = mount.journal ∧
    Exists fun read => Populated env mount.fs read ∧ SameTree read next.fs

/-- A callback does not use the null entry, and it succeeds, or fails with a negative code and
leaves everything as it was.  Any other fault is a check that ends the program, or the end of
the fuel. -/
def LeavesNoTrace (mount : Mount Hash) : Except Fault (Int × Mount Hash) -> Prop
  | .error fault => fault ≠ .metadata .nullPointer
  | .ok (res, next) => res = 0 ∨ res < 0 ∧ Untouched env mount next

/-- What is made at the path is found there: its name has a place in `d_name`, nothing else
compares equal to the path, and the directory that is found for it is the one of these names, is
hashed by them and can be read. -/
structure Undoable (fs : Fs Hash) (path : Path) (names : List Component) (name : Component) :
    Prop where
  spelled : path = absolutePath (names ++ [name])
  components : forall other, other ∈ names ++ [name] -> IsComponent other
  short : name.length ≤ NAME_MAX
  vacant : forall read id, Populated env fs read -> id ∈ read.index ->
    (read.entries id).hash = env.hashing.doHash path ->
      read.equals id path path.length ≠ .ok true
  directory : forall found father later, Populated env fs found ->
    found.findLocked env (absolutePath names) = .ok (father, later) -> father ≠ 0 ->
      Named later father names ∧
        (later.entries father).hash = env.hashing.doHash (absolutePath names) ∧
        forall read, later.readChildren env father = .ok read ->
          (read.entries father).child ≠ .unread

/-- Nothing but a null entry stops the callback. -/
def OnlyNull (run : Except Fault (Int × Mount Hash)) : Prop :=
  forall fault, run = .error fault -> fault = .metadata .nullPointer

variable {env} {mount : Mount Hash} {answers : Answers Hash}

omit [DecidableEq Hash] in
theorem LeavesNoTrace.intro {run : Except Fault (Int × Mount Hash)}
    (safe : run ≠ .error (.metadata .nullPointer))
    (returns : forall res next, run = .ok (res, next) ->
      res = 0 ∨ res < 0 ∧ Untouched env mount next) :
    LeavesNoTrace env mount run := by
  cases run with
  | error fault => exact fun same => safe (congrArg Except.error same)
  | ok both => exact returns both.1 both.2 rfl

omit [DecidableEq Hash] in
theorem Untouched.populated {fs : Fs Hash} (populated : Populated env mount.fs fs) :
    Untouched env mount { mount with fs := fs } :=
  ⟨rfl, fs, populated, .refl fs⟩

section Callbacks

variable {path toPath : Path} {mode : UInt32} {rdev : UInt64}

/-- Where what is made can be taken away again. -/
theorem Undoable.made {context : Context} {fs : Fs Hash} {names : List Component}
    {name : Component} (undoable : Undoable env mount.fs path names name)
    (isTree : IsTree mount.fs)
    (made : mount.fs.makeEntry env context path mode rdev = .ok (0, fs)) :
    Exists fun read => Exists fun father => Populated env mount.fs read ∧ father ∈ read.index ∧
      Named read father names ∧
      (read.entries father).hash = env.hashing.doHash (absolutePath names) ∧
      (read.entries father).child ≠ .unread ∧
      fs = read.makeChild env context father name mode rdev := by
  obtain ⟨none, -⟩ | ⟨-, found, dpath, lname, father, later, read, populated, split, above, some,
    reading, rfl⟩ := makeEntry_steps isTree made
  · cases none
  · obtain ⟨rfl, components, -, -, directory⟩ := undoable
    have noSlash : slash ∉ name := (components name (by simp)).noSlash
    rw [splitPath_absolutePath noSlash] at split
    obtain ⟨rfl, rfl⟩ := Prod.mk.inj (Except.ok.inj split)
    obtain ⟨named, hash, known⟩ := directory found father later populated above some
    have foundTree := populated.isTree isTree
    obtain ⟨further, present⟩ := findLocked_populated foundTree above
    have linked := present some
    have laterTree := further.isTree foundTree
    obtain ⟨last, -⟩ := readChildren_populated linked reading
    have stays := last.stays laterTree linked
    exact ⟨read, father, (populated.trans further).trans last, stays.linked,
      named.populated laterTree linked last, stays.alike.hash ▸ hash, known read reading, rfl⟩

omit [DecidableEq Hash] in
theorem LeavesNoTrace.returns {run : Except Fault (Int × Mount Hash)}
    (traceless : LeavesNoTrace env mount run) (onlyNull : OnlyNull run) :
    Exists fun res => Exists fun next => run = .ok (res, next) ∧
      (res = 0 ∨ res < 0 ∧ Untouched env mount next) := by
  cases run with
  | error fault => exact absurd (onlyNull fault rfl) traceless
  | ok both => exact ⟨both.1, both.2, rfl, traceless⟩

end Callbacks

/-! ## Calls that fail -/

end Lowlevel
end Mcachefs
