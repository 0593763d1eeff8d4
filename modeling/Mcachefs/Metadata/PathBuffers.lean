import Mcachefs.CBuffer
import Mcachefs.Metadata.CollisionCheck

namespace Mcachefs
namespace Metadata

open Library

/-!
# The buffers of a path

`mcachefs_metadata_get_path` and `mcachefs_metadata_equals` climb from an entry to the
root and keep what they have met in arrays of 1024 slots on the stack.  The first writes
without looking at the number of levels; the second looks after it has written.  Here the
arrays and the string on the heap are explicit.
-/

variable {Hash : Type}

/-- What a path does to its buffers, or a `Bug`. -/
inductive BufferFault where
  | pastHierarchy
  | wrongLastName
  | pastNewpath
  | pastNamestack
  | belowNamestack
  | bug (fault : Fault)
deriving DecidableEq

/-- `mcurrent`, the slots of `hierarchy` that are written, and `pathsz`. -/
structure Climbed where
  mcurrent : Id
  hierarchy : List Id
  pathsz : Nat

namespace Fs

/-- The loop over the fathers in `mcachefs_metadata_get_path`; `slots` are those of
`hierarchy` that are left. -/
def hierarchyLoop (fs : Fs Hash) : (slots : Nat) -> Climbed -> Except BufferFault Climbed
  | slots, climbed =>
      if fs.father climbed.mcurrent = 0 then .ok climbed
      else
        match slots with
        | 0 => .error .pastHierarchy
        | slots + 1 =>
            hierarchyLoop fs slots
              { mcurrent := fs.father climbed.mcurrent
                hierarchy := climbed.hierarchy ++ [climbed.mcurrent]
                pathsz := climbed.pathsz + (fs.entries climbed.mcurrent).d_name.length + 1 }

/-- The loop of `strcat`, from the last level down. -/
def strcatLoop : (newpath : List Byte) -> (names : List Component) -> Option (List Byte)
  | newpath, [] => some newpath
  | newpath, name :: names =>
      ((strcat newpath [slash]).bind fun newpath => strcat newpath name).bind fun newpath =>
        strcatLoop newpath names

/-- `mcachefs_metadata_get_path`, with what `malloc` leaves in the buffer. -/
def getPathBuffer (fs : Fs Hash) (malloc : Nat -> Byte) (id : Id) :
    Except BufferFault (List Byte) := do
  let climbed ← fs.hierarchyLoop MAX_LEVELS ⟨id, [], 1⟩
  if (fs.entries climbed.mcurrent).d_name ≠ [slash] then .error .wrongLastName
  else
    let newpath := (grow [] climbed.pathsz malloc).set 0 0
    match strcatLoop newpath (climbed.hierarchy.reverse.map fun id => (fs.entries id).d_name) with
    | none => .error .pastNewpath
    | some newpath => .ok newpath

/-- The loop over the fathers in `mcachefs_metadata_equals`; `slots` are those of
`namestack` that are left. -/
def namestackLoop (fs : Fs Hash) : (slots : Nat) -> (current : Id) ->
    (namestack : List Component) -> Except BufferFault (List Component)
  | slots, current, namestack =>
      if fs.father current = 0 then .ok namestack
      else
        match slots with
        | 0 => .error .pastNamestack
        | slots + 1 =>
            if slots = 0 then .error (.bug .maximumLevel)
            else
              namestackLoop fs slots (fs.father current)
                (namestack ++ [(fs.entries current).d_name])

/-- `mcachefs_metadata_equals`. -/
def equalsBuffer (fs : Fs Hash) (id : Id) (path : Path) (path_size : Nat) :
    Except BufferFault Bool :=
  if path = [slash] then .ok (decide (id = rootId))
  else do
    let namestack ← fs.namestackLoop MAX_LEVELS id []
    match namestack.reverse with
    | [] => .error .belowNamestack
    | name :: names =>
        match path with
        | [] => .error (.bug .pastNul)
        | _ :: cpath => (equalsLoop path_size names name 0 cpath).mapError .bug

end Fs

/-- The path of an entry is told, and its own path is found to be equal to it, inside the
buffers; no comparison with another path runs out of levels. -/
structure PathHandled (fs : Fs Hash) (id : Id) (names : List Component) : Prop where
  told : forall malloc, Exists fun newpath => fs.getPathBuffer malloc id = .ok newpath ∧
    readString newpath = some (absolutePath names)
  equal : fs.equalsBuffer id (absolutePath names) (absolutePath names).length = .ok true
  levels : forall path path_size fault, fs.equalsBuffer id path path_size = .error fault ->
    fault ≠ .pastNamestack ∧ fault ≠ .bug .maximumLevel

variable {fs : Fs Hash} {id : Id} {names : List Component}

/-! ## The string -/

theorem strcatLoop_of_length {string : Path} {behind : List Byte} {names : List Component}
    (components : forall name, name ∈ names -> IsComponent name) (noNul : (0 : Byte) ∉ string)
    (room : (pathString names).length ≤ behind.length) :
    Fs.strcatLoop (string ++ 0 :: behind) names =
      some ((string ++ pathString names) ++ 0 :: behind.drop (pathString names).length) := by
  induction names generalizing string behind with
  | nil => simp [Fs.strcatLoop, pathString]
  | cons name names inductionHypothesis =>
      have long : (pathString (name :: names)).length =
          1 + (name.length + (pathString names).length) := by
        simp only [pathString, List.cons_append, List.length_cons, List.length_append]
        omega
      have first : strcat (string ++ 0 :: behind) [slash] =
          some ((string ++ [slash]) ++ 0 :: behind.drop 1) :=
        strcat_of_length noNul (by rw [long] at room; simp only [List.length_singleton]; omega)
      have clean : (0 : Byte) ∉ string ++ [slash] := by
        simpa [List.mem_append, noNul] using (by decide : ¬ (0 : Byte) = slash)
      have second : strcat ((string ++ [slash]) ++ 0 :: behind.drop 1) name =
          some ((string ++ [slash] ++ name) ++ 0 :: (behind.drop 1).drop name.length) :=
        strcat_of_length clean (by rw [long] at room; rw [List.length_drop]; omega)
      have whole : (0 : Byte) ∉ string ++ [slash] ++ name := by
        intro member
        rcases List.mem_append.mp member with before | inside
        · exact clean before
        · exact (components name List.mem_cons_self).noNul inside
      have left : (pathString names).length ≤ ((behind.drop 1).drop name.length).length := by
        rw [long] at room
        rw [List.length_drop, List.length_drop]
        omega
      have rest := inductionHypothesis
        (fun name member => components name (List.mem_cons_of_mem _ member)) whole left
      rw [Fs.strcatLoop, first, Option.bind_some, second, Option.bind_some, rest, long,
        List.drop_drop, List.drop_drop]
      simp only [pathString, List.append_assoc, List.cons_append, List.nil_append]

/-! ## The arrays -/

/-- The slots take the ids from the entry up to the root, if there are as many. -/
theorem Named.hierarchyLoop (named : Named fs id names) (rootFather : fs.father rootId = 0) :
    Exists fun ids => (ids.reverse.map fun id => (fs.entries id).d_name) = names ∧
      forall slots hierarchy pathsz, fs.hierarchyLoop slots ⟨id, hierarchy, pathsz⟩ =
        if names.length ≤ slots then
          .ok ⟨rootId, hierarchy ++ ids, pathsz + (pathString names).length⟩
        else .error .pastHierarchy := by
  induction named with
  | root =>
      refine ⟨[], rfl, fun slots hierarchy pathsz => ?_⟩
      unfold Fs.hierarchyLoop
      rw [if_pos rootFather, List.append_nil]
      rfl
  | @child id names present _ inductionHypothesis =>
      obtain ⟨ids, spelled, loop⟩ := inductionHypothesis
      refine ⟨id :: ids, by simp [spelled], fun slots hierarchy pathsz => ?_⟩
      unfold Fs.hierarchyLoop
      rw [if_neg present]
      cases slots with
      | zero => simp
      | succ slots =>
          simp only
          rw [loop]
          have long : (pathString (names ++ [(fs.entries id).d_name])).length =
              (pathString names).length + ((fs.entries id).d_name.length + 1) := by
            rw [pathString_concat, List.length_append, List.length_cons]
          simp only [List.length_append, List.length_singleton, Nat.add_le_add_iff_right, long,
            List.append_assoc, List.singleton_append]
          congr 3
          omega

/-- The slots take the names from the entry up to the root.  The check behind each write
comes in time for the next. -/
theorem Named.namestackLoop (named : Named fs id names) (rootFather : fs.father rootId = 0)
    {slots : Nat} (some : slots ≠ 0) (namestack : List Component) :
    fs.namestackLoop slots id namestack =
      if names.length < slots then .ok (namestack ++ names.reverse)
      else .error (.bug .maximumLevel) := by
  induction named generalizing slots namestack with
  | root =>
      unfold Fs.namestackLoop
      rw [if_pos rootFather, List.length_nil, if_pos (Nat.pos_of_ne_zero some),
        List.reverse_nil, List.append_nil]
  | @child id names present _ inductionHypothesis =>
      unfold Fs.namestackLoop
      rw [if_neg present]
      cases slots with
      | zero => exact absurd rfl some
      | succ slots =>
          simp only
          by_cases last : slots = 0
          · rw [if_pos last, if_neg (by rw [List.length_append, last]; simp)]
          · rw [if_neg last, inductionHypothesis last]
            simp only [List.length_append, List.length_singleton, Nat.add_lt_add_iff_right,
              List.reverse_append, List.reverse_singleton, List.append_assoc]

/-- In a buffer of the size that was added up there is room for the path. -/
theorem Named.getPathBuffer (named : Named fs id names) (rootFather : fs.father rootId = 0)
    (rootName : (fs.entries rootId).d_name = [slash])
    (components : forall name, name ∈ names -> IsComponent name) (malloc : Nat -> Byte) :
    fs.getPathBuffer malloc id =
      if names.length ≤ MAX_LEVELS then .ok (pathString names ++ [0])
      else .error .pastHierarchy := by
  obtain ⟨ids, spelled, loop⟩ := named.hierarchyLoop rootFather
  unfold Fs.getPathBuffer
  rw [loop]
  by_cases short : names.length ≤ MAX_LEVELS
  · rw [if_pos short, if_pos short]
    have buffer : Exists fun behind : List Byte =>
        (grow [] (1 + (pathString names).length) malloc).set 0 0 = [] ++ 0 :: behind ∧
          behind.length = (pathString names).length := by
      cases held : grow [] (1 + (pathString names).length) malloc with
      | nil =>
          have long := congrArg List.length held
          rw [grow_length] at long
          simp at long
      | cons byte behind =>
          have long := congrArg List.length held
          rw [grow_length, List.length_cons, List.length_nil] at long
          exact ⟨behind, rfl, by omega⟩
    obtain ⟨behind, whole, room⟩ := buffer
    have copied := strcatLoop_of_length components (List.not_mem_nil (a := 0)) room.ge
    change (if (fs.entries rootId).d_name ≠ [slash] then _ else _) = _
    rw [if_neg (not_not.mpr rootName)]
    simp only [List.nil_append, spelled, whole] at copied ⊢
    rw [copied, ← room, List.drop_length]
  · rw [if_neg short, if_neg short]
    rfl

/-- The comparison is the one of the names, when they are few enough. -/
theorem Named.equalsBuffer (named : Named fs id names) (rootFather : fs.father rootId = 0)
    (few : names.length < MAX_LEVELS) {path : Path} {path_size : Nat} {equal : Bool}
    (result : fs.equals id path path_size = .ok equal) :
    fs.equalsBuffer id path path_size = .ok equal := by
  have climbed := named.climb rootFather (MAX_LEVELS - 1)
  rw [if_pos (Nat.le_sub_one_of_lt few)] at climbed
  have stack := named.namestackLoop rootFather (show MAX_LEVELS ≠ 0 by decide) []
  rw [if_pos few, List.nil_append] at stack
  unfold Fs.equals at result
  unfold Fs.equalsBuffer
  by_cases isSlash : path = [slash]
  · rw [if_pos isSlash] at result ⊢
    exact congrArg Except.ok (Except.ok.inj result)
  · rw [if_neg isSlash, climbed] at result
    rw [if_neg isSlash, stack]
    simp only [bind, Except.bind, List.reverse_reverse]
    cases names with
    | nil => cases result
    | cons name names =>
        cases path with
        | nil => cases result
        | cons byte cpath =>
            simp only at result ⊢
            rw [result]
            rfl

/-! ## Deep paths -/

theorem pathString_noNul (components : forall name, name ∈ names -> IsComponent name) :
    (0 : Byte) ∉ pathString names := by
  induction names with
  | nil => simp [pathString]
  | cons name names inductionHypothesis =>
      have rest := inductionHypothesis fun name member =>
        components name (List.mem_cons_of_mem _ member)
      intro member
      rcases List.mem_append.mp member with first | later
      · rcases List.mem_cons.mp first with separator | inside
        · exact absurd separator (by decide)
        · exact (components name List.mem_cons_self).noNul inside
      · exact rest later

/-- The comparison itself knows nothing of the number of levels. -/
theorem equalsLoop_maximumLevel {path_size path_idx : Nat} {names : List Component}
    {current_name : Component} {cpath : Path} :
    Fs.equalsLoop path_size names current_name path_idx cpath ≠ .error .maximumLevel := by
  induction cpath generalizing names current_name path_idx with
  | nil =>
      unfold Fs.equalsLoop
      exact fun impossible => by cases impossible
  | cons byte cpath inductionHypothesis =>
      unfold Fs.equalsLoop
      split
      · exact fun impossible => by cases impossible
      · cases current_name with
        | nil =>
            simp only
            split
            · exact fun impossible => by cases impossible
            · cases names with
              | nil => exact fun impossible => by cases impossible
              | cons name names => exact inductionHypothesis
        | cons letter current_name =>
            simp only
            split
            · exact fun impossible => by cases impossible
            · exact inductionHypothesis

/-- A path of too many levels is not compared. -/
theorem Named.equals_deep (named : Named fs id names) (rootFather : fs.father rootId = 0)
    (many : ¬ names.length < MAX_LEVELS) {path : Path} (other : path ≠ [slash])
    (path_size : Nat) :
    fs.equalsBuffer id path path_size = .error (.bug .maximumLevel) := by
  unfold Fs.equalsBuffer
  rw [if_neg other, named.namestackLoop rootFather (by decide), if_neg many]
  rfl

/-- The two functions handle the path of an entry inside their buffers exactly when the entry
is below the root by less than 1024 levels. -/
theorem pathHandled_iff [Inhabited Hash] (fs : Fs Hash) (isTree : IsTree fs)
    (rootName : (fs.entries rootId).d_name = [slash]) (id : Id) (names : List Component)
    (named : Named fs id names) (components : forall name, name ∈ names -> IsComponent name) :
    PathHandled fs id names ↔ names ≠ [] ∧ names.length < MAX_LEVELS := by
  have rootFather : fs.father rootId = 0 := (isTree.father_eq_zero isTree.root).mpr rfl
  have newpath := named.getPathBuffer rootFather rootName components
  have stack := named.namestackLoop rootFather (show MAX_LEVELS ≠ 0 by decide) []
  constructor
  · intro handled
    have below : names ≠ [] := by
      rintro rfl
      obtain ⟨told, result, string⟩ := handled.told fun _ => 0
      rw [newpath, if_pos (by simp)] at result
      rw [← Except.ok.inj result] at string
      exact absurd string (by decide)
    refine ⟨below, by_contra fun many => ?_⟩
    have deep := named.equals_deep rootFather many
      ((absolutePath_eq_slash components).not.mpr below) (absolutePath names).length
    rw [handled.equal] at deep
    cases deep
  · rintro ⟨below, few⟩
    have equal := named.equals_own rootFather components below few []
    rw [List.append_nil] at equal
    refine ⟨fun malloc => ?_, ?_, fun path path_size fault failed => ?_⟩
    · refine ⟨_, (newpath malloc).trans (if_pos few.le), ?_⟩
      have noNul := pathString_noNul components
      rw [readString_of_mem (List.mem_append_right _ List.mem_cons_self), absolutePath,
        if_neg below]
      exact congrArg some (cString_append_zero noNul)
    · exact named.equalsBuffer rootFather few equal
    · unfold Fs.equalsBuffer at failed
      split at failed
      · cases failed
      · rw [stack, if_pos few] at failed
        simp only [bind, Except.bind, List.nil_append, List.reverse_reverse] at failed
        cases names with
        | nil => exact absurd rfl below
        | cons name names =>
            cases path with
            | nil =>
                cases failed
                exact ⟨by simp, by simp⟩
            | cons byte cpath =>
                simp only at failed
                cases result : Fs.equalsLoop path_size names name 0 cpath with
                | ok equal => rw [result] at failed; cases failed
                | error bug =>
                    rw [result] at failed
                    cases failed
                    refine ⟨by simp, fun same => ?_⟩
                    cases same
                    exact equalsLoop_maximumLevel result

/-- A new entry leaves the names of the others. -/
theorem Added.named [Inhabited Hash] {env : Env Hash} {next : Fs Hash} {kids : Id -> List Id}
    {free rest : List Id} {father new : Id} {name : Component} {st : Stat} {child : Child}
    (tree : Tree fs kids free)
    (added : Added env fs kids free father new name st child next rest)
    (isNode : Node fs free id) (named : Named fs id names) : Named next id names := by
  induction named with
  | root => exact .root
  | @child id names some _ inductionHypothesis =>
      have kept : next.father id = fs.father id ∧
          (next.entries id).d_name = (fs.entries id).d_name := by
        rw [Fs.father, Fs.father]
        by_cases same : id = father
        · rw [same, added.above]
          exact ⟨rfl, rfl⟩
        · rw [added.kept id isNode same]
          exact ⟨rfl, rfl⟩
      have notRoot : id ≠ rootId := fun isRoot => some (isRoot ▸ tree.shape.rootFather)
      rw [← kept.2]
      exact .child (kept.1 ▸ some) (kept.1 ▸ inductionHypothesis (tree.listed isNode notRoot).1)

/-- The new entry has the names of its father and its own. -/
theorem Added.named_new [Inhabited Hash] {env : Env Hash} {next : Fs Hash}
    {kids : Id -> List Id} {free rest : List Id} {father new : Id} {name : Component} {st : Stat}
    {child : Child} (tree : Tree fs kids free)
    (added : Added env fs kids free father new name st child next rest)
    (isNode : Node fs free father) (named : Named fs father names) :
    Named next new (names ++ [name]) := by
  have above := added.named tree isNode named
  have link : next.father new = father := congrArg Entry.father added.entry
  have spelled : (next.entries new).d_name = name := congrArg Entry.d_name added.entry
  rw [← spelled]
  exact .child (by rw [link]; exact tree.some isNode) (by rw [link]; exact above)

/-- A directory in a directory, and so on. -/
theorem exists_deep (depth : Nat) : Exists fun fs : Fs UInt32 => Exists fun id =>
    IsTree fs ∧ (fs.entries rootId).d_name = [slash] ∧ id ∈ fs.index ∧
      Named fs id (List.replicate depth (ascii "a")) := by
  induction depth with
  | zero =>
      have isTree := (format_isTree emptySource directoryStat).1
      exact ⟨Fs.format emptySource directoryStat, rootId, isTree,
        (format_hashes emptySource directoryStat).rootName, isTree.root, .root⟩
  | succ depth inductionHypothesis =>
      obtain ⟨fs, id, ⟨kids, free, tree⟩, rootName, linked, named⟩ := inductionHypothesis
      have isNode := tree.mem_index.mp linked
      obtain ⟨new, rest, added⟩ := tree.makeChild emptySource ⟨0, 0, 0⟩ (ascii "a")
        (S_IFDIR ||| 0o755) 0 isNode
      have fresh := added.tree.mem_index.mpr ((added.nodes new).mpr (Or.inr rfl))
      refine ⟨_, new, ⟨_, _, added.tree⟩, ?_, fresh, ?_⟩
      · by_cases same : rootId = id
        · rw [same, added.above, ← same]
          exact rootName
        · rw [added.kept rootId tree.shape.root same]
          exact rootName
      · rw [List.replicate_succ']
        exact added.named_new tree isNode named

theorem isComponent_of_deep {depth : Nat} :
    forall name, name ∈ List.replicate depth (ascii "a") -> IsComponent name := by
  intro name member
  rw [List.eq_of_mem_replicate member]
  decide

/-- The deepest path that is handled. -/
theorem pathHandled_deepest : Exists fun fs : Fs UInt32 => Exists fun id =>
    Named fs id (List.replicate 1023 (ascii "a")) ∧
      PathHandled fs id (List.replicate 1023 (ascii "a")) := by
  obtain ⟨fs, id, isTree, rootName, -, named⟩ := exists_deep 1023
  refine ⟨fs, id, named,
    (pathHandled_iff fs isTree rootName id _ named isComponent_of_deep).mpr ⟨nofun, ?_⟩⟩
  rw [List.length_replicate]
  decide

/-- A path of 2050 bytes and 1025 levels: `hierarchy` is left and a `Bug` is reached. -/
theorem pathHandled_misses : Exists fun fs : Fs UInt32 => Exists fun id =>
    Exists fun names => IsTree fs ∧ Named fs id names ∧
      (forall name, name ∈ names -> IsComponent name) ∧
      (absolutePath names).length < PATH_MAX ∧
      (forall malloc, fs.getPathBuffer malloc id = .error .pastHierarchy) ∧
      fs.equalsBuffer id (absolutePath names) (absolutePath names).length =
        .error (.bug .maximumLevel) ∧
      ¬ PathHandled fs id names := by
  obtain ⟨fs, id, isTree, rootName, -, named⟩ := exists_deep 1025
  have rootFather : fs.father rootId = 0 := (isTree.father_eq_zero isTree.root).mpr rfl
  have long (depth : Nat) : (pathString (List.replicate depth (ascii "a"))).length =
      2 * depth := by
    induction depth with
    | zero => rfl
    | succ depth inductionHypothesis =>
        rw [List.replicate_succ, pathString, List.length_append, inductionHypothesis]
        simp only [ascii, List.length_cons, List.length_map]
        change 2 + 2 * depth = _
        omega
  have below : List.replicate 1025 (ascii "a") ≠ [] := List.cons_ne_nil _ _
  have own : absolutePath (List.replicate 1025 (ascii "a")) =
      pathString (List.replicate 1025 (ascii "a")) := if_neg below
  have many : ¬ (List.replicate 1025 (ascii "a")).length < MAX_LEVELS := by
    rw [List.length_replicate]
    decide
  have deep := named.equals_deep rootFather many
    ((absolutePath_eq_slash isComponent_of_deep).not.mpr below)
  refine ⟨fs, id, _, isTree, named, isComponent_of_deep, ?_, fun malloc => ?_, deep _, fun handled => ?_⟩
  · rw [own, long]
    decide
  · rw [named.getPathBuffer rootFather rootName isComponent_of_deep, if_neg]
    rw [List.length_replicate]
    decide
  · have equal := handled.equal
    rw [deep] at equal
    cases equal

end Metadata
end Mcachefs
