import Mcachefs.Lowlevel.Callbacks

namespace Mcachefs
namespace Lowlevel

open Library Metadata

/-!
# What the metadata lets a callback do

A callback on names begins with a function of the metadata, and goes on to the
cache and the journal when that function returns `0`.  The conditions below speak
of the lookups that such a function makes from the state before it, and each
theorem says that it does not return `0` otherwise.
-/

variable {Hash : Type} [DecidableEq Hash] [Inhabited Hash] (env : Env Hash)

/-- There is no entry of this path. -/
def Absent (fs : Fs Hash) (path : Path) : Prop :=
  forall id next, fs.findLocked env path = .ok (id, next) -> id = 0

/-- There is no entry of this path, but one of its directory; `checked` is whether
the callback looks at what that is. -/
def Vacant (fs : Fs Hash) (path : Path) (checked : Bool) : Prop :=
  Exists fun middle => fs.findLocked env path = .ok (0, middle) ∧
    Exists fun dpath => Exists fun lname => splitPath path = .ok (dpath, lname) ∧
      Exists fun father => Exists fun next =>
        middle.findLocked env dpath = .ok (father, next) ∧ father ≠ 0 ∧
          (checked = true -> (next.entries father).st.isDir = true)

/-- The entry of this path is an empty directory, or a file or symbolic link. -/
def Removable (fs : Fs Hash) (path : Path) (isDir : Bool) : Prop :=
  Exists fun id => Exists fun next => fs.findLocked env path = .ok (id, next) ∧ id ≠ 0 ∧
    if isDir then
      (next.entries id).st.isDir = true ∧ Exists fun read =>
        next.readChildren env id = .ok read ∧ (read.entries id).child = .empty
    else (next.entries id).st.isReg = true ∨ (next.entries id).st.isLnk = true

/-- There is an entry of this path, and once it is fetched none of the target, but a
directory for it. -/
def Movable (fs : Fs Hash) (path target : Path) : Prop :=
  Exists fun id => Exists fun middle => fs.findLocked env path = .ok (id, middle) ∧ id ≠ 0 ∧
    Exists fun fetched =>
      (if (middle.entries id).st.isDir then middle.fetchChildren env id else .ok middle) =
        .ok fetched ∧ Vacant env fetched target true

/-- There is an entry of the first path, and room for the second. -/
def Linkable (fs : Fs Hash) (fromPath toPath : Path) : Prop :=
  Exists fun id => Exists fun next => fs.findLocked env fromPath = .ok (id, next) ∧ id ≠ 0 ∧
    Vacant env next toPath false

variable {env}

theorem metadata_eq_ok {Result : Type} {computation : Except Metadata.Fault Result}
    {result : Result} : metadata computation = .ok result ↔ computation = .ok result := by
  cases computation with
  | error fault => exact iff_of_false (by simp [metadata, Except.mapError]) (by simp)
  | ok value => simp [metadata, Except.mapError]

theorem makeEntry_vacant {context : Context} {path : Path} {mode : UInt32} {rdev : UInt64}
    {fs next : Fs Hash} (result : fs.makeEntry env context path mode rdev = .ok (0, next)) :
    Vacant env fs path false := by
  rw [Fs.makeEntry, bind_eq_ok] at result
  obtain ⟨⟨mdata, middle⟩, found, result⟩ := result
  by_cases missing : mdata = 0
  · subst missing
    simp only [ne_eq, not_true_eq_false, if_false] at result
    rw [bind_eq_ok] at result
    obtain ⟨⟨dpath, lname⟩, parts, result⟩ := result
    rw [bind_eq_ok] at result
    obtain ⟨⟨father, last⟩, above, result⟩ := result
    refine ⟨middle, found, dpath, lname, parts, father, last, above, fun zero => ?_, by simp⟩
    simp only [zero, if_true] at result
    cases result
  · simp only [ne_eq, missing, not_false_eq_true, if_true] at result
    cases result

theorem rmdirUnlink_removable {path : Path} {isDir : Bool} {fs next : Fs Hash}
    (result : fs.rmdirUnlink env path isDir = .ok (0, next)) : Removable env fs path isDir := by
  rw [Fs.rmdirUnlink, bind_eq_ok] at result
  obtain ⟨⟨mdata, middle⟩, found, result⟩ := result
  refine ⟨mdata, middle, found, ?_⟩
  by_cases missing : mdata = 0
  · simp only [missing, if_true] at result
    cases result
  · refine ⟨missing, ?_⟩
    cases isDir with
    | true =>
        simp only [missing, if_false, if_true] at result ⊢
        cases directory : (middle.entries mdata).st.isDir with
        | false =>
            simp only [directory, if_true] at result
            cases result
        | true =>
            simp only [directory, Bool.true_eq_false, if_false] at result
            rw [bind_eq_ok] at result
            obtain ⟨read, reads, result⟩ := result
            refine ⟨rfl, read, reads, by_contra fun some => ?_⟩
            simp only [some, ne_eq, not_false_eq_true, if_true] at result
            cases result
    | false =>
        simp only [missing, if_false, Bool.false_eq_true] at result ⊢
        by_contra neither
        rw [not_or, Bool.not_eq_true, Bool.not_eq_true] at neither
        simp only [neither, and_self, if_true] at result
        cases result

theorem renameEntry_movable {path target : Path} {fs next : Fs Hash}
    (result : fs.renameEntry env path target = .ok (0, next)) : Movable env fs path target := by
  rw [Fs.renameEntry, bind_eq_ok] at result
  obtain ⟨⟨mdata, middle⟩, found, result⟩ := result
  refine ⟨mdata, middle, found, ?_⟩
  by_cases missing : mdata = 0
  · simp only [missing, if_true] at result
    cases result
  · simp only [missing, if_false] at result
    rw [bind_eq_ok] at result
    obtain ⟨fetched, fetches, result⟩ := result
    refine ⟨missing, fetched, fetches, ?_⟩
    rw [bind_eq_ok] at result
    obtain ⟨⟨mtarget, last⟩, vacant, result⟩ := result
    by_cases free : mtarget = 0
    · subst free
      simp only [ne_eq, not_true_eq_false, if_false] at result
      rw [bind_eq_ok] at result
      obtain ⟨⟨targetpath, lname⟩, parts, result⟩ := result
      rw [bind_eq_ok] at result
      obtain ⟨⟨father, final⟩, above, result⟩ := result
      refine ⟨last, vacant, targetpath, lname, parts, father, final, above, ?_⟩
      by_cases zero : father = 0
      · simp only [zero, if_true] at result
        cases result
      · refine ⟨zero, fun _ => by_contra fun other => ?_⟩
        simp only [zero, if_false, Bool.not_eq_true _ ▸ other, if_true] at result
        cases result
    · simp only [ne_eq, free, not_false_eq_true, if_true] at result
      cases result

/-- Everything around a callback succeeds. -/
def allSucceed : Answers UInt32 where
  context := ⟨0, 0, 0⟩
  makepath := true
  createpath := ⟨0, le_rfl⟩
  createfile := ⟨0, le_rfl⟩
  symlink := none
  link := none
  st_dev := 0
  file_add _ := 1
  caches := true
  inCache := false
  pwrite := none
  action := .none

end Lowlevel
end Mcachefs
