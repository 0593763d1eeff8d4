import Mcachefs.Library.Runs
import Mcachefs.Metadata.Names
import Mathlib.Data.List.DropRight
import Mathlib.Logic.Function.Basic

namespace Mcachefs
namespace CachePath

open Library
open Metadata (Component IsComponent)

/-!
# Creating the directories of a cache path

`mcachefs_createpath` looks for the directory it is asked for, and where it is
missing creates the parent by calling itself and then the directory.  Several
threads create paths in one cache at once, so the calls are modelled system
call by system call: a thread is about to make one system call, and behind it
wait the calls that want the parent.

A system call fails only for an object that is missing or in the way; memory is
always there.  The cache is never cleaned meanwhile.  `mcachefs_createpath_cache`
calls the function with the prefix of the cache, for a file with `lastIsDir` 0.
-/

/-! ## Strings -/

/-- The byte of `.`. -/
def dot : Byte := 46

/-- The loop of `__basename`. -/
def basenameLoop : (cur bname : Path) -> Path
  | [], bname => bname
  | byte :: cur, bname => basenameLoop cur (if byte = slash then cur else bname)

/-- `__basename`: what follows the last slash. -/
def basename (path : Path) : Path :=
  basenameLoop path path

/-- `dirname` of the C library. -/
def dirname (path : Path) : Path :=
  let named := path.rdropWhile (· = slash)
  if named = [] then if path = [] then [dot] else [slash]
  else
    let parent := named.rdropWhile (· ≠ slash)
    if parent = [] then [dot]
    else
      let trimmed := parent.rdropWhile (· = slash)
      if trimmed = [] then [slash] else trimmed

/-- The names that a path leads through from the directory it is opened at. -/
def components (path : Path) : List Component :=
  (path.splitOn slash).filter fun name => name ≠ [] ∧ name ≠ [dot]

/-! ## The cache -/

/-- What a name of the cache stands for. -/
inductive Kind where
  | directory
  | other
  deriving DecidableEq, Repr

/-- The objects below the prefix, by the names that lead to them. -/
structure CacheTree where
  kind : List Component -> Option Kind
  root : kind [] = some .directory
  closed : forall names name, kind (names ++ [name]) ≠ none -> kind names = some .directory

/-- `mkdirat`: the parent has to be a directory and the name free. -/
def CacheTree.mkdirat (tree : CacheTree) (parent : List Component) (name : Component) :
    Option CacheTree :=
  if parentKind : tree.kind parent = some .directory then
    if tree.kind (parent ++ [name]) = none then
      some {
        kind := Function.update tree.kind (parent ++ [name]) (some .directory)
        root := by
          rw [Function.update_of_ne (by simp)]
          exact tree.root
        closed := by
          intro names other present
          by_cases made : names = parent ++ [name]
          · rw [made, Function.update_self]
          · rw [Function.update_of_ne made]
            by_cases same : names ++ [other] = parent ++ [name]
            · rw [(List.append_inj' same rfl).1]
              exact parentKind
            · rw [Function.update_of_ne same] at present
              exact tree.closed names other present }
    else none
  else none

/-! ## The calls -/

/-- A call of `mcachefs_createpath` that has called itself for the parent. -/
structure Frame where
  parentname : Path
  cname : Path
  deriving DecidableEq, Repr

/-- The system call a thread makes next, or the result of its call. -/
inductive Phase where
  /-- `open(prefix, O_RDONLY)`. -/
  | openPrefix (path : Path)
  | fstatat (path : Path)
  | openat (frame : Frame)
  | mkdirat (frame : Frame)
  | returned (res : Int)
  deriving DecidableEq, Repr

/-- A thread in `mcachefs_createpath`. -/
structure Thread where
  phase : Phase
  callers : List Frame
  deriving DecidableEq, Repr

/-- `mcachefs_createpath` before its first system call; `none` at the root. -/
def enter (cpath : Path) (lastIsDir : Bool) : Option Path :=
  let cpath := if cpath.head? = some slash then cpath.tail else cpath
  if cpath = [] then none
  else
    let path := if lastIsDir then cpath else dirname cpath
    if path = [slash] then none else some path

/-- A call returns `res` to the one that waits for it. -/
def back (res : Int) : (callers : List Frame) -> Thread
  | [] => ⟨.returned res, []⟩
  | frame :: callers => if res ≠ 0 then back res callers else ⟨.openat frame, callers⟩

/-- `mcachefs_createpath` is called, by itself or from outside. -/
def call (cpath : Path) (lastIsDir : Bool) (callers : List Frame) : Thread :=
  match enter cpath lastIsDir with
  | none => back 0 callers
  | some path => ⟨.openPrefix path, callers⟩

/-- One system call and what the thread does up to the next one. -/
def Thread.step (tree : CacheTree) (thread : Thread) : CacheTree × Thread :=
  match thread.phase with
  | .openPrefix path => (tree, ⟨.fstatat path, thread.callers⟩)
  | .fstatat path =>
      if tree.kind (components path) ≠ none then (tree, back 0 thread.callers)
      else
        let parentname := dirname path
        (tree, call parentname true (⟨parentname, basename path⟩ :: thread.callers))
  | .openat frame =>
      if tree.kind (components frame.parentname) = none then (tree, back (-1) thread.callers)
      else (tree, ⟨.mkdirat frame, thread.callers⟩)
  | .mkdirat frame =>
      match tree.mkdirat (components frame.parentname) frame.cname with
      | none => (tree, back (-1) thread.callers)
      | some made => (made, back 0 thread.callers)
  | .returned _ => (tree, thread)

/-- Two threads on one cache. -/
structure World where
  tree : CacheTree
  threads : Bool -> Thread

/-- The thread that is scheduled makes its next system call. -/
def World.step (world : World) (id : Bool) : World :=
  let taken := (world.threads id).step world.tree
  ⟨taken.1, Function.update world.threads id taken.2⟩

/-- A whole interleaving. -/
def World.run (world : World) (schedule : List Bool) : World :=
  schedule.foldl World.step world

/-! ## Paths of the cache -/

/-- A name that an entry can have. -/
structure IsName (name : Component) : Prop extends IsComponent name where
  notDot : name ≠ [dot]
  notDotDot : name ≠ [dot, dot]

/-- The names with a slash between any two. -/
def relativePath (names : List Component) : Path :=
  [slash].intercalate names

/-- What `createpath` is called with for a directory, and `dirname` gives. -/
def directoryPath (names : List Component) : Path :=
  if names = [] then [dot] else relativePath names

/-- The path of an entry, as the callers have it. -/
structure CreateCall where
  names : List Component
  named : forall name, name ∈ names -> IsName name
  /-- Whether `cpath` begins with a slash. -/
  absolute : Bool
  lastIsDir : Bool

namespace CreateCall

def cpath (call : CreateCall) : Path :=
  (if call.absolute then [slash] else []) ++ relativePath call.names

/-- The directory that is to exist, with all above it. -/
def directory (call : CreateCall) : List Component :=
  if call.lastIsDir then call.names else call.names.dropLast

end CreateCall

section Strings

variable {names : List Component} {name : Component}

/-- What stands before the last name. -/
def before (names : List Component) : Path :=
  if names = [] then [] else relativePath names ++ [slash]

theorem relativePath_cons (name : Component) (present : names ≠ []) :
    relativePath (name :: names) = name ++ [slash] ++ relativePath names := by
  rw [relativePath, List.intercalate_cons_of_ne_nil present, relativePath]

theorem relativePath_concat (names : List Component) (name : Component) :
    relativePath (names ++ [name]) = before names ++ name := by
  induction names with
  | nil => simp [relativePath, before]
  | cons first names inductionHypothesis =>
      rw [List.cons_append, relativePath_cons first (by simp), inductionHypothesis, before, before,
        if_neg (List.cons_ne_nil _ _)]
      by_cases empty : names = []
      · simp [empty, relativePath]
      · rw [if_neg empty, relativePath_cons first empty]
        simp only [List.append_assoc]

theorem directoryPath_concat (names : List Component) (name : Component) :
    directoryPath (names ++ [name]) = before names ++ name := by
  rw [directoryPath, if_neg (by simp), relativePath_concat]

/-- A path that leads somewhere begins with a name and ends with one. -/
theorem relativePath_head (named : forall name, name ∈ names -> IsName name) :
    (relativePath names).head? ≠ some slash := by
  cases names with
  | nil => simp [relativePath]
  | cons name names =>
      have isName := named name List.mem_cons_self
      cases name with
      | nil => exact absurd rfl isName.nonempty
      | cons byte rest =>
          have other : byte ≠ slash := fun equal => isName.noSlash (equal ▸ List.mem_cons_self)
          by_cases empty : names = []
          · simpa [relativePath, empty] using other
          · rw [relativePath_cons _ empty]
            simpa using other

theorem relativePath_ne_nil (named : forall name, name ∈ names -> IsName name)
    (present : names ≠ []) : relativePath names ≠ [] := by
  obtain ⟨front, last, rfl⟩ := (List.eq_nil_or_concat names).resolve_left present
  rw [List.concat_eq_append] at named ⊢
  rw [relativePath_concat]
  exact fun nothing => (named last (by simp)).nonempty (List.append_eq_nil_iff.mp nothing).2

theorem relativePath_rdropWhile (named : forall name, name ∈ names -> IsName name) :
    (relativePath names).rdropWhile (· = slash) = relativePath names := by
  rw [List.rdropWhile_eq_self_iff]
  intro present
  rcases List.eq_nil_or_concat names with rfl | ⟨front, last, rfl⟩
  · exact absurd rfl present
  · rw [List.concat_eq_append] at named
    have isName := named last (by simp)
    have same : (relativePath (front.concat last)).getLast present =
        last.getLast isName.nonempty := by
      simp only [List.concat_eq_append, relativePath_concat]
      exact List.getLast_append_of_right_ne_nil _ _ isName.nonempty
    rw [same]
    have inside := List.getLast_mem isName.nonempty
    exact fun equal => isName.noSlash (of_decide_eq_true equal ▸ inside)

theorem before_rdropWhile (named : forall name, name ∈ names -> IsName name) :
    (before names).rdropWhile (· = slash) = relativePath names := by
  rw [before]
  split
  · next empty => simp [empty, relativePath]
  · rw [List.rdropWhile_concat_pos _ _ _ (by simp), relativePath_rdropWhile named]

theorem rdropWhile_append_of_forall {path tail : Path} {p : Byte -> Bool}
    (all : forall byte, byte ∈ tail -> p byte = true) :
    (path ++ tail).rdropWhile p = path.rdropWhile p := by
  rw [List.rdropWhile, List.reverse_append, List.dropWhile_append_of_pos (by simpa using all)]
  rfl

/-- `dirname` gives the path of the parent. -/
theorem dirname_directoryPath
    (named : forall other, other ∈ names ++ [name] -> IsName other) :
    dirname (directoryPath (names ++ [name])) = directoryPath names := by
  have isName := named name (by simp)
  have front : forall other, other ∈ names -> IsName other := fun other member =>
    named other (List.mem_append_left _ member)
  have whole := relativePath_rdropWhile named
  have whole' : (before names ++ name).rdropWhile (· = slash) = before names ++ name := by
    rw [← relativePath_concat, whole]
  have present : before names ++ name ≠ [] := fun nothing =>
    isName.nonempty (List.append_eq_nil_iff.mp nothing).2
  have cut : (before names ++ name).rdropWhile (· ≠ slash) = before names := by
    have inside : forall byte, byte ∈ name -> decide (byte ≠ slash) = true := by
      intro byte member
      exact decide_eq_true fun equal => isName.noSlash (equal ▸ member)
    rw [rdropWhile_append_of_forall inside, before]
    split
    · rfl
    · exact List.rdropWhile_concat_neg _ _ _ (by simp)
  simp only [directoryPath_concat, dirname, whole', if_neg present, cut]
  by_cases empty : names = []
  · rw [if_pos (by rw [before, if_pos empty]), directoryPath, if_pos empty]
  · rw [if_neg (by rw [before, if_neg empty]; simp), before_rdropWhile front,
      if_neg (relativePath_ne_nil front empty), directoryPath, if_neg empty]

theorem basenameLoop_of_not_mem {cur bname : Path} (noSlash : slash ∉ cur) :
    basenameLoop cur bname = bname := by
  induction cur with
  | nil => rfl
  | cons byte cur inductionHypothesis =>
      have other : byte ≠ slash := fun equal => noSlash (equal ▸ List.mem_cons_self)
      rw [basenameLoop, if_neg other]
      exact inductionHypothesis fun member => noSlash (List.mem_cons_of_mem _ member)

theorem basenameLoop_slash (front cur bname : Path) (noSlash : slash ∉ cur) :
    basenameLoop (front ++ [slash] ++ cur) bname = cur := by
  induction front generalizing bname with
  | nil =>
      rw [List.nil_append, List.singleton_append, basenameLoop, if_pos rfl]
      exact basenameLoop_of_not_mem noSlash
  | cons byte front inductionHypothesis =>
      rw [List.cons_append, List.cons_append, basenameLoop]
      exact inductionHypothesis _

/-- `__basename` gives the last name. -/
theorem basename_directoryPath (isName : IsName name) :
    basename (directoryPath (names ++ [name])) = name := by
  rw [directoryPath_concat, before, basename]
  split
  · exact basenameLoop_of_not_mem isName.noSlash
  · exact basenameLoop_slash _ _ _ isName.noSlash

/-- A path leads through its names. -/
theorem components_directoryPath (named : forall name, name ∈ names -> IsName name) :
    components (directoryPath names) = names := by
  by_cases empty : names = []
  · rw [directoryPath, if_pos empty, empty]
    rfl
  · have split : (relativePath names).splitOn slash = names :=
      List.splitOn_intercalate slash (fun name member => (named name member).noSlash) empty
    rw [directoryPath, if_neg empty, components, split, List.filter_eq_self]
    intro name member
    exact decide_eq_true ⟨(named name member).nonempty, (named name member).notDot⟩

theorem directoryPath_head (named : forall name, name ∈ names -> IsName name) :
    (directoryPath names).head? ≠ some slash := by
  rw [directoryPath]
  split
  · decide
  · exact relativePath_head named

theorem directoryPath_ne_nil (named : forall name, name ∈ names -> IsName name) :
    directoryPath names ≠ [] := by
  rw [directoryPath]
  split
  · simp
  · next present => exact relativePath_ne_nil named present

theorem directoryPath_ne_slash (named : forall name, name ∈ names -> IsName name) :
    directoryPath names ≠ [slash] := by
  intro equal
  exact directoryPath_head named (by rw [equal]; rfl)

/-- A call for a parent goes on with its path. -/
theorem enter_directoryPath (named : forall name, name ∈ names -> IsName name) :
    enter (directoryPath names) true = some (directoryPath names) := by
  simp only [enter, if_neg (directoryPath_head named), if_neg (directoryPath_ne_nil named), if_true,
    if_neg (directoryPath_ne_slash named)]

/-- A call from outside goes on with the path of the directory, if the path has a name. -/
theorem CreateCall.enter_cpath (call : CreateCall) :
    enter call.cpath call.lastIsDir =
      if call.names = [] then none else some (directoryPath call.directory) := by
  have stripped : (if call.cpath.head? = some slash then call.cpath.tail else call.cpath) =
      relativePath call.names := by
    unfold cpath
    cases call.absolute with
    | true => rfl
    | false => exact if_neg (relativePath_head call.named)
  simp only [enter, stripped]
  by_cases empty : call.names = []
  · rw [if_pos (by rw [empty]; rfl), if_pos empty]
  · rw [if_neg (relativePath_ne_nil call.named empty), if_neg empty]
    have own : relativePath call.names = directoryPath call.names := by
      rw [directoryPath, if_neg empty]
    rw [own, directory]
    cases call.lastIsDir with
    | true =>
        simp only [if_true]
        rw [if_neg (directoryPath_ne_slash call.named)]
    | false =>
        obtain ⟨front, last, whole⟩ := (List.eq_nil_or_concat call.names).resolve_left empty
        rw [List.concat_eq_append] at whole
        have named := call.named
        rw [whole] at named
        have front' : forall name, name ∈ front -> IsName name := fun name member =>
          named name (List.mem_append_left _ member)
        simp only [whole, dirname_directoryPath named, List.dropLast_concat, Bool.false_eq_true,
          if_false]
        rw [if_neg (directoryPath_ne_slash front')]

end Strings

/-! ## What a system call does -/

/-- Directories have been added where nothing was. -/
def Grows (tree next : CacheTree) : Prop :=
  forall names, next.kind names = tree.kind names ∨
    tree.kind names = none ∧ next.kind names = some .directory

theorem Grows.refl (tree : CacheTree) : Grows tree tree :=
  fun _ => Or.inl rfl

theorem Grows.trans {tree middle next : CacheTree} (first : Grows tree middle)
    (second : Grows middle next) : Grows tree next := by
  intro names
  rcases second names with same | ⟨nothing, made⟩
  · rw [same]
    exact first names
  · rcases first names with same | ⟨-, present⟩
    · exact Or.inr ⟨same ▸ nothing, made⟩
    · rw [present] at nothing
      cases nothing

theorem Grows.stays {tree next : CacheTree} (grows : Grows tree next) {names : List Component}
    (present : tree.kind names ≠ none) : next.kind names = tree.kind names :=
  (grows names).resolve_right fun made => present made.1

theorem CacheTree.mkdirat_eq_none_iff {tree : CacheTree} {parent : List Component}
    {name : Component} : tree.mkdirat parent name = none ↔
      tree.kind parent ≠ some .directory ∨ tree.kind (parent ++ [name]) ≠ none := by
  unfold mkdirat
  split
  · next isDirectory => split <;> simp_all
  · next other => simp [other]

theorem CacheTree.mkdirat_made {tree made : CacheTree} {parent : List Component} {name : Component}
    (result : tree.mkdirat parent name = some made) :
    Grows tree made ∧ made.kind (parent ++ [name]) = some .directory := by
  unfold mkdirat at result
  split at result
  · split at result
    · next free =>
        cases result
        refine ⟨fun names => ?_, Function.update_self ..⟩
        by_cases same : names = parent ++ [name]
        · subst same
          exact Or.inr ⟨free, Function.update_self ..⟩
        · exact Or.inl (Function.update_of_ne same ..)
    · cases result
  · cases result

/-- What is above a directory is a directory. -/
theorem CacheTree.directory_of_prefix {tree : CacheTree} {front names : List Component}
    (above : front <+: names) (isDirectory : tree.kind names = some .directory) :
    tree.kind front = some .directory := by
  obtain ⟨rest, rfl⟩ := above
  induction rest using List.reverseRecOn with
  | nil => rwa [List.append_nil] at isDirectory
  | append_singleton rest name inductionHypothesis =>
      rw [← List.append_assoc] at isDirectory
      exact inductionHypothesis (tree.closed _ name (by rw [isDirectory]; simp))

/-- Every call returns the error at once. -/
theorem back_error (callers : List Frame) : back (-1) callers = ⟨.returned (-1), []⟩ := by
  induction callers with
  | nil => rfl
  | cons frame callers inductionHypothesis =>
      rw [back, if_pos (by decide)]
      exact inductionHypothesis

/-- A success goes on with the call that waits. -/
theorem back_zero_phase (callers : List Frame) : (back 0 callers).phase ≠ .returned (-1) := by
  cases callers with
  | nil => simp [back]
  | cons frame callers => simp [back]

theorem call_phase (cpath : Path) (lastIsDir : Bool) (callers : List Frame) :
    (call cpath lastIsDir callers).phase ≠ .returned (-1) := by
  unfold call
  split
  · exact back_zero_phase callers
  · simp

/-! ## A thread on its way -/

/-- The calls that wait while the directory of the names `front` is created. -/
def waiting (front : List Component) : (rest : List Component) -> List Frame
  | [] => []
  | name :: rest => ⟨directoryPath front, name⟩ :: waiting (front ++ [name]) rest

/-- A thread that is to create the directory `target` and has at most `left`
system calls to make: on the way up, where it looks for an existing directory,
or on the way down, where it creates the missing ones. -/
inductive Progress (tree : CacheTree) (target : List Component) (left : Nat) : Thread -> Prop
  | openPrefix (front rest : List Component) (whole : front ++ rest = target)
      (turns : 2 * front.length + 2 + 2 * target.length ≤ left) :
      Progress tree target left ⟨.openPrefix (directoryPath front), waiting front rest⟩
  | fstatat (front rest : List Component) (whole : front ++ rest = target)
      (turns : 2 * front.length + 1 + 2 * target.length ≤ left) :
      Progress tree target left ⟨.fstatat (directoryPath front), waiting front rest⟩
  | openat (front : List Component) (name : Component) (rest : List Component)
      (whole : front ++ name :: rest = target) (present : tree.kind front ≠ none)
      (turns : 2 * rest.length + 2 ≤ left) :
      Progress tree target left
        ⟨.openat ⟨directoryPath front, name⟩, waiting (front ++ [name]) rest⟩
  | mkdirat (front : List Component) (name : Component) (rest : List Component)
      (whole : front ++ name :: rest = target) (present : tree.kind front ≠ none)
      (turns : 2 * rest.length + 1 ≤ left) :
      Progress tree target left
        ⟨.mkdirat ⟨directoryPath front, name⟩, waiting (front ++ [name]) rest⟩
  | created (present : tree.kind target ≠ none) : Progress tree target left ⟨.returned 0, []⟩
  | failed : Progress tree target left ⟨.returned (-1), []⟩

section Steps

variable {tree next : CacheTree} {target : List Component} {left : Nat} {thread : Thread}

theorem Progress.grows (progress : Progress tree target left thread) (grows : Grows tree next) :
    Progress next target left thread := by
  cases progress with
  | openPrefix front rest whole turns => exact .openPrefix front rest whole turns
  | fstatat front rest whole turns => exact .fstatat front rest whole turns
  | openat front name rest whole present turns =>
      exact .openat front name rest whole (by rwa [grows.stays present]) turns
  | mkdirat front name rest whole present turns =>
      exact .mkdirat front name rest whole (by rwa [grows.stays present]) turns
  | created present => exact .created (by rwa [grows.stays present])
  | failed => exact .failed

/-- A directory that is there lets the waiting call go on. -/
theorem Progress.back {front rest : List Component} (whole : front ++ rest = target)
    (present : tree.kind front ≠ none) (turns : 2 * rest.length ≤ left) :
    Progress tree target left (back 0 (waiting front rest)) := by
  cases rest with
  | nil =>
      rw [List.append_nil] at whole
      exact .created (whole ▸ present)
  | cons name rest => exact .openat front name rest whole present turns

/-- The step of a thread adds directories only, and brings it one system call further. -/
theorem Progress.step (named : forall name, name ∈ target -> IsName name)
    (progress : Progress tree target left thread) :
    Grows tree (thread.step tree).1 ∧
      Progress (thread.step tree).1 target (left - 1) (thread.step tree).2 := by
  cases progress with
  | openPrefix front rest whole turns =>
      exact ⟨.refl tree, .fstatat front rest whole (by omega)⟩
  | fstatat front rest whole turns =>
      have frontNamed : forall name, name ∈ front -> IsName name := fun name member =>
        named name (whole ▸ List.mem_append_left _ member)
      have long := congrArg List.length whole
      rw [List.length_append] at long
      simp only [Thread.step, components_directoryPath frontNamed]
      split
      · next present => exact ⟨.refl tree, .back whole present (by omega)⟩
      · next missing =>
          refine ⟨.refl tree, ?_⟩
          rcases List.eq_nil_or_concat front with rfl | ⟨parent, name, rfl⟩
          · exact absurd (by rw [tree.root]; simp) missing
          · rw [List.concat_eq_append] at frontNamed whole turns ⊢
            have parentNamed : forall other, other ∈ parent -> IsName other := fun other member =>
              frontNamed other (List.mem_append_left _ member)
            rw [dirname_directoryPath frontNamed,
              basename_directoryPath (frontNamed name (by simp)), call,
              enter_directoryPath parentNamed]
            rw [List.length_append, List.length_singleton] at turns
            rw [List.append_assoc] at whole
            exact .openPrefix parent (name :: rest) whole (by omega)
  | openat front name rest whole present turns =>
      have frontNamed : forall name, name ∈ front -> IsName name := fun name member =>
        named name (whole ▸ List.mem_append_left _ member)
      simp only [Thread.step, components_directoryPath frontNamed, if_neg present]
      exact ⟨.refl tree, .mkdirat front name rest whole present (by omega)⟩
  | mkdirat front name rest whole present turns =>
      have frontNamed : forall name, name ∈ front -> IsName name := fun name member =>
        named name (whole ▸ List.mem_append_left _ member)
      simp only [Thread.step, components_directoryPath frontNamed]
      split
      · rw [back_error]
        exact ⟨.refl tree, .failed⟩
      · next made result =>
          obtain ⟨grows, isDirectory⟩ := CacheTree.mkdirat_made result
          refine ⟨grows, .back ?_ (by rw [isDirectory]; simp) (by omega)⟩
          rw [← whole, List.append_assoc, List.singleton_append]
  | created present => exact ⟨.refl tree, .created present⟩
  | failed => exact ⟨.refl tree, .failed⟩

theorem Progress.returned (progress : Progress tree target 0 thread) :
    thread.phase = .returned (-1) ∨ thread.phase = .returned 0 ∧ tree.kind target ≠ none := by
  cases progress with
  | openPrefix front rest whole turns => omega
  | fstatat front rest whole turns => omega
  | openat front name rest whole present turns => omega
  | mkdirat front name rest whole present turns => omega
  | created present => exact Or.inr ⟨rfl, present⟩
  | failed => exact Or.inl rfl

/-- What a thread is about to create is not there yet. -/
def NotYetMade (tree : CacheTree) (thread : Thread) : Prop :=
  forall frame, thread.phase = .mkdirat frame ->
    tree.kind (components frame.parentname ++ [frame.cname]) = none

/-- A thread fails only at a directory that is there already, or below an object that is none. -/
theorem Progress.step_phase (named : forall name, name ∈ target -> IsName name)
    (progress : Progress tree target left thread)
    (clear : forall front, front <+: target -> tree.kind front ≠ some .other)
    (notYet : NotYetMade tree thread) (going : thread.phase ≠ .returned (-1)) :
    (thread.step tree).2.phase ≠ .returned (-1) := by
  cases progress with
  | openPrefix front rest whole turns => simp [Thread.step]
  | fstatat front rest whole turns =>
      simp only [Thread.step]
      split
      · exact back_zero_phase _
      · exact call_phase _ _ _
  | openat front name rest whole present turns =>
      have frontNamed : forall name, name ∈ front -> IsName name := fun name member =>
        named name (whole ▸ List.mem_append_left _ member)
      simp [Thread.step, components_directoryPath frontNamed, present]
  | mkdirat front name rest whole present turns =>
      have frontNamed : forall name, name ∈ front -> IsName name := fun name member =>
        named name (whole ▸ List.mem_append_left _ member)
      have free := notYet _ rfl
      rw [components_directoryPath frontNamed] at free
      have isDirectory : tree.kind front = some .directory := by
        have solid := clear front ⟨name :: rest, whole⟩
        rcases kind : tree.kind front with _ | _ | _
        · exact absurd kind present
        · rfl
        · exact absurd kind solid
      simp only [Thread.step, components_directoryPath frontNamed]
      split
      · next fails =>
          rcases CacheTree.mkdirat_eq_none_iff.mp fails with other | already
          · exact absurd isDirectory other
          · exact absurd free already
      · exact back_zero_phase _
  | created present => simp [Thread.step]
  | failed => exact absurd rfl going

/-- A directory that is there already makes the call fail. -/
theorem Thread.step_fails (already : ¬ NotYetMade tree thread) :
    (thread.step tree).2.phase = .returned (-1) := by
  unfold NotYetMade at already
  push Not at already
  obtain ⟨frame, phase, present⟩ := already
  have fails := CacheTree.mkdirat_eq_none_iff.mpr (Or.inr present)
  simp only [Thread.step, phase, fails, back_error]

end Steps

/-! ## Two threads -/

/-- The threads as the step of a run. -/
def takes (world : World) (id : Bool) : Except Empty World :=
  .ok (world.step id)

/-- Both calls are about to begin. -/
def start (tree : CacheTree) (calls : Bool -> CreateCall) : World :=
  ⟨tree, fun id => call (calls id).cpath (calls id).lastIsDir []⟩

/-- Both calls have returned 0, and the directories above both paths are there. -/
def CreatesBoth (calls : Bool -> CreateCall) (world : World) : Prop :=
  forall id, (world.threads id).phase = .returned 0 ∧
    forall front, front <+: (calls id).directory -> world.tree.kind front = some .directory

/-- No object that is not a directory has the name of a directory to create. -/
def Clear (tree : CacheTree) (calls : Bool -> CreateCall) : Prop :=
  forall id front, front <+: (calls id).directory -> tree.kind front ≠ some .other

/-- The system calls that a call makes at most. -/
def CreateCall.turns (call : CreateCall) : Nat :=
  4 * call.names.length + 2

section Runs

variable {world : World} {calls : Bool -> CreateCall} {left : Bool -> Nat}

/-- Each thread is on its way. -/
def Going (calls : Bool -> CreateCall) (left : Bool -> Nat) (world : World) : Prop :=
  forall id, Progress world.tree (calls id).directory (left id) (world.threads id)

theorem CreateCall.named_directory (call : CreateCall) :
    forall name, name ∈ call.directory -> IsName name := by
  intro name member
  unfold directory at member
  split at member
  · exact call.named name member
  · exact call.named name (List.dropLast_subset _ member)

theorem CreateCall.length_directory (call : CreateCall) :
    call.directory.length ≤ call.names.length := by
  unfold directory
  split
  · exact Nat.le_refl _
  · rw [List.length_dropLast]
    exact Nat.sub_le _ _

theorem start_going (tree : CacheTree) (calls : Bool -> CreateCall) :
    Going calls (fun id => (calls id).turns) (start tree calls) := by
  intro id
  have short := (calls id).length_directory
  simp only [start, call, (calls id).enter_cpath]
  by_cases empty : (calls id).names = []
  · have root : (calls id).directory = [] :=
      List.eq_nil_of_length_eq_zero (Nat.le_zero.mp (short.trans (by simp [empty])))
    rw [if_pos empty]
    exact .created (by rw [root, tree.root]; simp)
  · rw [if_neg empty]
    exact .openPrefix (calls id).directory [] (List.append_nil _)
      (by unfold CreateCall.turns; omega)

theorem World.step_other {id other : Bool} (apart : other ≠ id) :
    (world.step id).threads other = world.threads other :=
  Function.update_of_ne apart ..

theorem World.step_self (id : Bool) :
    (world.step id).threads id = ((world.threads id).step world.tree).2 :=
  Function.update_self ..

/-- A system call brings its thread further and leaves the other where it is. -/
theorem Going.step (going : Going calls left world) (id : Bool) :
    Grows world.tree (world.step id).tree ∧
      Going calls (Function.update left id (left id - 1)) (world.step id) := by
  obtain ⟨grows, further⟩ := (going id).step (calls id).named_directory
  refine ⟨grows, fun other => ?_⟩
  by_cases same : other = id
  · subst same
    rw [Function.update_self, World.step_self]
    exact further
  · rw [Function.update_of_ne same, World.step_other same]
    exact (going other).grows grows

/-- After enough turns of both the calls have returned. -/
theorem Going.run {schedule : List Bool} (going : Going calls left world)
    (turns : forall id, left id ≤ schedule.count id) :
    Grows world.tree (world.run schedule).tree ∧
      Going calls (fun _ => 0) (world.run schedule) := by
  induction schedule generalizing world left with
  | nil =>
      have none : left = fun _ => 0 := funext fun id => Nat.le_zero.mp (turns id)
      exact ⟨.refl _, none ▸ going⟩
  | cons id schedule inductionHypothesis =>
      obtain ⟨grows, further⟩ := going.step id
      have enough : forall other, Function.update left id (left id - 1) other ≤
          schedule.count other := by
        intro other
        have before := turns other
        by_cases same : other = id
        · subst same
          rw [List.count_cons_self] at before
          rw [Function.update_self]
          omega
        · rw [List.count_cons_of_ne (Ne.symm same)] at before
          rwa [Function.update_of_ne same]
      obtain ⟨later, done⟩ := inductionHypothesis further enough
      exact ⟨grows.trans later, done⟩

/-- A call that has failed stays so. -/
theorem run_failed {id : Bool} (failed : (world.threads id).phase = .returned (-1))
    (schedule : List Bool) : ((world.run schedule).threads id).phase = .returned (-1) := by
  induction schedule generalizing world with
  | nil => exact failed
  | cons other schedule inductionHypothesis =>
      apply inductionHypothesis
      by_cases same : id = other
      · subst same
        rw [World.step_self, Thread.step, failed]
        exact failed
      · rwa [World.step_other same]

/-- Without a failure each directory was missing when it was created. -/
theorem eachStep_of_run {schedule : List Bool}
    (succeeds : forall id, ((world.run schedule).threads id).phase ≠ .returned (-1)) :
    EachStep takes (fun world id => NotYetMade world.tree (world.threads id)) world schedule := by
  induction schedule generalizing world with
  | nil => trivial
  | cons id schedule inductionHypothesis =>
      refine ⟨?_, inductionHypothesis succeeds⟩
      by_contra already
      refine succeeds id (run_failed ?_ schedule)
      rw [World.step_self]
      exact Thread.step_fails already

theorem Clear.grows {tree next : CacheTree} (clear : Clear tree calls) (grows : Grows tree next) :
    Clear next calls := by
  intro id front above other
  rcases grows front with same | ⟨-, made⟩
  · exact clear id front above (same ▸ other)
  · rw [made] at other
    cases other

/-- No call fails while nothing is in the way and each directory is missing when it is created. -/
theorem Going.run_succeeds {schedule : List Bool} (going : Going calls left world)
    (clear : Clear world.tree calls)
    (succeeds : forall id, (world.threads id).phase ≠ .returned (-1))
    (notYet : EachStep takes (fun world id => NotYetMade world.tree (world.threads id)) world
      schedule) : forall id, ((world.run schedule).threads id).phase ≠ .returned (-1) := by
  induction schedule generalizing world left with
  | nil => exact succeeds
  | cons id schedule inductionHypothesis =>
      obtain ⟨grows, further⟩ := going.step id
      refine inductionHypothesis further (clear.grows grows) (fun other => ?_) notYet.2
      by_cases same : other = id
      · subst same
        rw [World.step_self]
        exact (going other).step_phase (calls other).named_directory (clear other) notYet.1
          (succeeds other)
      · rw [World.step_other same]
        exact succeeds other

end Runs

/-- Two calls on one cache both create their directories exactly when no other object is in the
way and in no step one creates a directory that the other has created since it was missing. -/
theorem createpath_creates_iff (tree : CacheTree) (calls : Bool -> CreateCall)
    (schedule : List Bool) (turns : forall id, (calls id).turns ≤ schedule.count id) :
    CreatesBoth calls ((start tree calls).run schedule) ↔
      Clear tree calls ∧
        EachStep takes (fun world id => NotYetMade world.tree (world.threads id))
          (start tree calls) schedule := by
  obtain ⟨grows, done⟩ := (start_going tree calls).run turns
  constructor
  · intro creates
    refine ⟨fun id front above other => ?_, eachStep_of_run fun id failed => ?_⟩
    · have isDirectory := (creates id).2 front above
      rw [grows.stays (by rw [start, other]; simp), start, other] at isDirectory
      cases isDirectory
    · rw [(creates id).1] at failed
      cases failed
  · rintro ⟨clear, notYet⟩ id
    have succeeds := (start_going tree calls).run_succeeds clear
      (fun id => call_phase _ _ _) notYet id
    obtain ⟨phase, present⟩ := (done id).returned.resolve_left succeeds
    have solid := clear.grows grows id _ (List.prefix_refl _)
    have isDirectory : ((start tree calls).run schedule).tree.kind (calls id).directory =
        some .directory := by
      rcases kind : ((start tree calls).run schedule).tree.kind (calls id).directory with _ | _ | _
      · exact absurd kind present
      · rfl
      · exact absurd kind solid
    exact ⟨phase, fun front above => CacheTree.directory_of_prefix above isDirectory⟩

/-! ### Two files in a directory that is not cached yet -/

/-- An empty cache. -/
def emptyCache : CacheTree where
  kind names := if names = [] then some .directory else none
  root := rfl
  closed names name present := by simp at present

/-- The calls for `/a/x` and `/a/y`. -/
def siblings (id : Bool) : CreateCall where
  names := [ascii "a", if id then ascii "x" else ascii "y"]
  named name member := by
    rcases List.mem_pair.mp member with rfl | rfl
    · exact ⟨⟨by decide, by decide, by decide⟩, by decide, by decide⟩
    · cases id with
      | false => exact ⟨⟨by decide, by decide, by decide⟩, by decide, by decide⟩
      | true => exact ⟨⟨by decide, by decide, by decide⟩, by decide, by decide⟩
  absolute := true
  lastIsDir := false

/-- One call after the other. -/
theorem createpath_creates_siblings : CreatesBoth siblings
    ((start emptyCache siblings).run (List.replicate 10 false ++ List.replicate 10 true)) := by
  refine (createpath_creates_iff emptyCache siblings _ (by decide)).mpr
    ⟨fun id front _ other => ?_, eachStep_of_run (by decide +kernel)⟩
  simp only [emptyCache] at other
  split at other
  · cases other
  · cases other

/-- Both find `a` missing, and the second one to create it fails. -/
theorem createpath_already_made : ¬ forall schedule : List Bool,
    (forall id, (siblings id).turns ≤ schedule.count id) ->
      CreatesBoth siblings ((start emptyCache siblings).run schedule) := by
  intro creates
  have both := creates (List.replicate 5 false ++ List.replicate 5 true ++
    List.replicate 5 false ++ List.replicate 5 true) (by decide)
  have fails : (((start emptyCache siblings).run (List.replicate 5 false ++ List.replicate 5 true ++
      List.replicate 5 false ++ List.replicate 5 true)).threads true).phase = .returned (-1) := by
    decide +kernel
  rw [(both true).1] at fails
  cases fails

end CachePath
end Mcachefs
