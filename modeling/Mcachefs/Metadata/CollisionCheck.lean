import Mcachefs.Metadata.Moves

namespace Mcachefs
namespace Metadata

open Library

/-!
# The check of a path against an entry

After two hashes have agreed, `mcachefs_metadata_equals` compares the path with
the names on the way to the entry.  Its loop stops as soon as `path_size` bytes
have agreed, whether or not the names go on, and takes a path that goes on where
the names have ended for a bug.  `equals_exact_iff` says which paths and sizes
do not meet with either.
-/

/-- The loop meets neither an early end nor a path that goes on otherwise:
`wanted` are the bytes that are compared, `beyond` those after them. -/
structure Comparable (names : List Component) (current_name : Component)
    (wanted beyond : Path) : Prop where
  whole : beyond ≠ [] -> wanted <+: current_name ++ pathString names ->
    wanted = current_name ++ pathString names
  onward : forall front rest byte more, names = front ++ rest ->
    wanted = current_name ++ pathString front ++ byte :: more -> byte = slash ∧ rest ≠ []

/-- The check of a path against an entry with these names: the path is `/`, or
the entry is not the root and the comparison meets with nothing unexpected. -/
def Checkable (names : List Component) (path : Path) (path_size : Nat) : Prop :=
  path = [slash] ∨ names ≠ [] ∧
    (path_size < path.length -> path.take path_size <+: pathString names ->
      path.take path_size = pathString names) ∧
    forall front rest byte more, names = front ++ rest -> front ≠ [] ->
      path.take path_size = pathString front ++ byte :: more -> byte = slash ∧ rest ≠ []

/-! ## The loop -/

/-- The next byte of a name is compared. -/
theorem comparable_letter {names : List Component} {letter : Byte} {current_name : Component}
    {wanted beyond : Path} :
    Comparable names (letter :: current_name) (letter :: wanted) beyond ↔
      Comparable names current_name wanted beyond := by
  constructor
  · rintro ⟨whole, onward⟩
    refine ⟨fun some shorter => ?_, fun front rest byte more split same => ?_⟩
    · exact (List.cons.inj (whole some (List.cons_prefix_cons.mpr ⟨rfl, shorter⟩))).2
    · exact onward front rest byte more split (congrArg (letter :: ·) same)
  · rintro ⟨whole, onward⟩
    refine ⟨fun some shorter => ?_, fun front rest byte more split same => ?_⟩
    · exact congrArg (letter :: ·) (whole some (List.cons_prefix_cons.mp shorter).2)
    · exact onward front rest byte more split (List.cons.inj same).2

/-- The slash before the next name is compared. -/
theorem comparable_slash {name : Component} {names : List Component} {wanted beyond : Path} :
    Comparable (name :: names) [] (slash :: wanted) beyond ↔
      Comparable names name wanted beyond := by
  constructor
  · rintro ⟨whole, onward⟩
    refine ⟨fun some shorter => ?_, fun front rest byte more split same => ?_⟩
    · exact (List.cons.inj (whole some (List.cons_prefix_cons.mpr ⟨rfl, shorter⟩))).2
    · refine onward (name :: front) rest byte more (by rw [split, List.cons_append]) ?_
      rw [same]
      simp [pathString]
  · rintro ⟨whole, onward⟩
    refine ⟨fun some shorter => ?_, fun front rest byte more split same => ?_⟩
    · exact congrArg (slash :: ·) (whole some (List.cons_prefix_cons.mp shorter).2)
    · cases front with
      | nil =>
          obtain rfl : name :: names = rest := split
          exact ⟨(List.cons.inj same).1.symm, by simp⟩
      | cons first front =>
          obtain ⟨rfl, others⟩ := List.cons.inj split
          refine onward front rest byte more others ?_
          simpa [pathString] using same

/-- The loop gives the right answer exactly where it meets with nothing
unexpected. -/
theorem equalsLoop_iff {names : List Component} {current_name : Component}
    {path_idx path_size : Nat} {cpath : Path} (before : path_idx < path_size)
    (fits : path_size ≤ path_idx + 1 + cpath.length) :
    Fs.equalsLoop path_size names current_name path_idx cpath =
        .ok (decide (current_name ++ pathString names = cpath.take (path_size - path_idx - 1))) ↔
      Comparable names current_name (cpath.take (path_size - path_idx - 1))
        (cpath.drop (path_size - path_idx - 1)) := by
  induction cpath generalizing names current_name path_idx with
  | nil =>
      unfold Fs.equalsLoop
      rw [List.take_nil, List.drop_nil]
      refine iff_of_true ?_ ⟨fun impossible => absurd rfl impossible,
        fun front rest byte more _ same => ?_⟩
      · cases names with
        | nil => simp [pathString]
        | cons name names => simp [pathString]
      · exact absurd same.symm (by simp)
  | cons byte cpath inductionHypothesis =>
      rw [List.length_cons] at fits
      unfold Fs.equalsLoop
      by_cases last : path_idx + 1 = path_size
      · have none : path_size - path_idx - 1 = 0 := by omega
        rw [if_pos last, none, List.take_zero, List.drop_zero]
        constructor
        · intro same
          have ended := of_decide_eq_true (Except.ok.inj same).symm
          exact ⟨fun _ _ => ended.symm, fun front rest byte more _ same =>
            absurd same.symm (by simp)⟩
        · rintro ⟨whole, -⟩
          rw [← whole (by simp) List.nil_prefix]
          rfl
      · obtain ⟨size, sizeEq⟩ : Exists fun size => path_size - path_idx - 1 = size + 1 :=
          ⟨path_size - path_idx - 2, by omega⟩
        have next : path_size - (path_idx + 1) - 1 = size := by omega
        rw [if_neg last, sizeEq, List.take_succ_cons, List.drop_succ_cons]
        have step := fun names current_name => @inductionHypothesis names current_name
          (path_idx + 1) (by omega) (by omega)
        rw [next] at step
        cases current_name with
        | nil =>
            by_cases separator : byte = slash
            · subst separator
              cases names with
              | nil =>
                  refine iff_of_false (fun same => ?_) fun comparable => ?_
                  · cases same
                  · exact (comparable.onward [] [] slash _ rfl rfl).2 rfl
              | cons name names =>
                  rw [comparable_slash, ← step names name]
                  simp [pathString]
            · refine iff_of_false (fun same => ?_) fun comparable => ?_
              · rw [if_pos separator] at same
                cases same
              · exact separator (comparable.onward [] names byte _ rfl rfl).1
        | cons letter current_name =>
            by_cases agrees : byte = letter
            · subst agrees
              rw [comparable_letter, ← step names current_name]
              simp
            · refine iff_of_true ?_ ⟨fun _ shorter => ?_, fun front rest other more _ same => ?_⟩
              · simp [agrees, Ne.symm agrees]
              · exact absurd (List.cons_prefix_cons.mp shorter).1 agrees
              · exact absurd (List.cons.inj same).1 agrees

/-! ## The check -/

variable {Hash : Type}

theorem absolutePath_eq_slash {names : List Component}
    (components : forall name, name ∈ names -> IsComponent name) :
    absolutePath names = [slash] ↔ names = [] := by
  cases names with
  | nil => exact iff_of_true rfl rfl
  | cons name names =>
      refine iff_of_false (fun same => ?_) (by simp)
      have nonempty := (components name List.mem_cons_self).nonempty
      rw [absolutePath, if_neg (by simp), pathString] at same
      exact nonempty (List.append_eq_nil_iff.mp (List.cons.inj same).2).1

/-- A path that begins with that of an entry below the root is not `/`. -/
theorem absolutePath_append_ne_slash {names : List Component}
    (components : forall name, name ∈ names -> IsComponent name) (below : names ≠ [])
    (beyond : Path) : absolutePath names ++ beyond ≠ [slash] := by
  intro same
  cases names with
  | nil => exact below rfl
  | cons name names =>
      rw [absolutePath, if_neg below, pathString, List.cons_append, List.cons_append,
        List.append_assoc] at same
      exact (components name List.mem_cons_self).nonempty
        (List.append_eq_nil_iff.mp (List.cons.inj same).2).1

section Own

variable {fs : Fs Hash} {id : Id} {names : List Component} (named : Named fs id names)
  (rootFather : fs.father rootId = 0)
  (components : forall name, name ∈ names -> IsComponent name) (below : names ≠ [])
include named rootFather components below

/-- An entry below the root is found equal to its own path, and where a longer path begins
with that. -/
theorem Named.equals_own (few : names.length < MAX_LEVELS) (beyond : Path) :
    fs.equals id (absolutePath names ++ beyond) (absolutePath names).length = .ok true := by
  have climbed := named.climb rootFather (MAX_LEVELS - 1)
  rw [if_pos (Nat.le_sub_one_of_lt few)] at climbed
  have own : absolutePath names = pathString names := if_neg below
  unfold Fs.equals
  rw [if_neg (absolutePath_append_ne_slash components below beyond), climbed]
  cases names with
  | nil => exact absurd rfl below
  | cons name names =>
      simp only [own, pathString, List.cons_append, List.length_cons]
      have size : (name ++ pathString names).length + 1 - 0 - 1 =
          (name ++ pathString names).length := rfl
      have comparable : Comparable names name (name ++ pathString names) beyond := by
        refine ⟨fun _ _ => rfl, fun front rest byte more split same => ?_⟩
        rw [split, pathString_append, ← List.append_assoc] at same
        have behind : pathString rest = byte :: more := List.append_cancel_left same
        cases rest with
        | nil => cases behind
        | cons other rest => exact ⟨(List.cons.inj behind).1.symm, List.cons_ne_nil _ _⟩
      have right := (@equalsLoop_iff names name 0 ((name ++ pathString names).length + 1)
        (name ++ pathString names ++ beyond) (Nat.succ_pos _)
        (by simp only [List.length_append]; omega)).mpr
        (by rw [size, List.take_left, List.drop_left]; exact comparable)
      rw [size, List.take_left, decide_eq_true rfl] at right
      exact right

/-- An entry of too many levels is not compared. -/
theorem Named.equals_many (many : ¬ names.length < MAX_LEVELS) (beyond : Path)
    (path_size : Nat) :
    fs.equals id (absolutePath names ++ beyond) path_size = .error .maximumLevel := by
  have deep : ¬ names.length ≤ MAX_LEVELS - 1 := fun le =>
    many (Nat.lt_of_le_pred (by decide) le)
  unfold Fs.equals
  rw [if_neg (absolutePath_append_ne_slash components below beyond), named.climb rootFather,
    if_neg deep]

end Own

/-- The check of a path that is not `/`, from its first slash on. -/
theorem checkable_iff {names : List Component} {cpath : Path} {path_size : Nat}
    (some : names ≠ []) (notSlash : slash :: cpath ≠ [slash]) :
    Checkable names (slash :: cpath) (path_size + 1) ↔
      Comparable names [] (slash :: cpath.take path_size) (cpath.drop path_size) := by
  have more : cpath.drop path_size ≠ [] ↔ path_size + 1 < (slash :: cpath).length := by
    rw [ne_eq, List.drop_eq_nil_iff, List.length_cons]
    omega
  constructor
  · rintro (same | ⟨-, whole, onward⟩)
    · exact absurd same notSlash
    · refine ⟨fun beyond => whole (more.mp beyond), fun front rest byte rest' split same => ?_⟩
      cases front with
      | nil =>
          obtain rfl : names = rest := split
          exact ⟨(List.cons.inj same).1.symm, some⟩
      | cons first front => exact onward (first :: front) rest byte rest' split (by simp) same
  · rintro ⟨whole, onward⟩
    exact Or.inr ⟨some, fun less => whole (more.mpr less),
      fun front rest byte rest' split _ same => onward front rest byte rest' split same⟩

/-- The check of a path against an entry is right exactly for these paths and
sizes; for the others it reports a bug, reads outside the names or takes a part
of the entry's path for all of it. -/
theorem equals_exact_iff [Inhabited Hash] (fs : Fs Hash) (isTree : IsTree fs) (id : Id)
    (names : List Component) (named : Named fs id names)
    (components : forall name, name ∈ names -> IsComponent name)
    (depth : names.length < MAX_LEVELS) (path : Path)
    (absolute : Exists fun rest => path = slash :: rest) (path_size : Nat)
    (positive : 1 ≤ path_size) (fits : path_size ≤ path.length) :
    fs.equals id path path_size = .ok (decide (absolutePath names = path.take path_size)) ↔
      Checkable names path path_size := by
  have rootFather : fs.father rootId = 0 := (isTree.father_eq_zero isTree.root).mpr rfl
  have climbed := named.climb rootFather (MAX_LEVELS - 1)
  rw [if_pos (Nat.le_sub_one_of_lt depth)] at climbed
  unfold Fs.equals
  by_cases isSlash : path = [slash]
  · have one : path_size = 1 := by
      rw [isSlash] at fits
      exact Nat.le_antisymm fits positive
    refine iff_of_true ?_ (Or.inl isSlash)
    have isRoot : id = rootId ↔ names = [] :=
      ⟨fun same => named.unique rootFather (same ▸ .root), named.root_of_nil⟩
    rw [if_pos isSlash, isSlash, one]
    simp only [List.take_succ_cons, List.take_zero, absolutePath_eq_slash components, isRoot]
  · rw [if_neg isSlash, climbed]
    obtain ⟨cpath, rfl⟩ := absolute
    cases names with
    | nil =>
        refine iff_of_false (fun same => ?_) ?_
        · cases same
        · rintro (same | ⟨some, -⟩)
          · exact isSlash same
          · exact some rfl
    | cons name names =>
        obtain ⟨size, rfl⟩ := Nat.exists_eq_add_of_le' positive
        have step := @equalsLoop_iff names name 0 (size + 1) cpath (by omega)
          (by rw [List.length_cons] at fits; omega)
        rw [checkable_iff (by simp) isSlash, List.take_succ_cons, comparable_slash]
        simp only [Nat.sub_zero, Nat.add_sub_cancel] at step
        rw [← step, absolutePath, if_neg (by simp)]
        simp [pathString]

/-- `mknod /abcd`. -/
theorem made_abcd : Exists fun fs =>
    TreeCall.run emptySource (Fs.format emptySource directoryStat)
        (.makeEntry ⟨0, 0, 0⟩ (ascii "/abcd") (S_IFREG ||| 0o644) 0) = .ok fs ∧
      IsTree fs ∧ Named fs 2 [ascii "abcd"] ∧
      fs.equals 2 (ascii "/abc/x") 4 = .ok true ∧
      fs.equals 2 (ascii "/abcde") 6 = .error .collision := by
  have evaluated : (do
      let fs ← TreeCall.run emptySource (Fs.format emptySource directoryStat)
        (.makeEntry ⟨0, 0, 0⟩ (ascii "/abcd") (S_IFREG ||| 0o644) 0)
      return (fs.father 2, (fs.entries 2).d_name,
        decide (fs.equals 2 (ascii "/abc/x") 4 = .ok true),
        decide (fs.equals 2 (ascii "/abcde") 6 = .error .collision)) :
          Except Fault (Id × Component × Bool × Bool)) =
      .ok (rootId, ascii "abcd", true, true) := by decide +kernel
  obtain ⟨made, make, rest⟩ := bind_eq_ok.mp evaluated
  simp only [pure, Except.pure, Except.ok.injEq, Prod.mk.injEq, decide_eq_true_eq] at rest
  obtain ⟨father, name, early, bug⟩ := rest
  obtain ⟨⟨isTree, -⟩, -⟩ := made_hashes (format_isTree emptySource directoryStat)
    (format_hashes emptySource directoryStat) make
  have named : Named made 2 ([] ++ [(made.entries 2).d_name]) :=
    .child (by rw [father]; decide) (by rw [father]; exact .root)
  rw [name] at named
  exact ⟨made, make, isTree, named, early, bug⟩

/-- `/abcd` is found under the first five bytes of `/abcd/x`. -/
theorem equals_exact_abcd : Exists fun fs =>
    TreeCall.run emptySource (Fs.format emptySource directoryStat)
        (.makeEntry ⟨0, 0, 0⟩ (ascii "/abcd") (S_IFREG ||| 0o644) 0) = .ok fs ∧
      fs.equals 2 (ascii "/abcd/x") 5 = .ok true := by
  obtain ⟨fs, make, isTree, named, -, -⟩ := made_abcd
  refine ⟨fs, make, (equals_exact_iff fs isTree 2 _ named (by decide) (by decide) _ ⟨_, rfl⟩ 5
    (by decide) (by decide)).mpr (Or.inr ⟨by decide, fun _ _ => by decide, ?_⟩)⟩
  intro front rest byte more split some same
  cases front with
  | nil => exact absurd rfl some
  | cons name front =>
      obtain ⟨rfl, -⟩ := List.cons.inj split
      have lengths := congrArg List.length same
      simp [pathString, ascii] at lengths

/-- A part of `/abcd` is taken for all of it, and `/abcde` for a bug. -/
theorem equals_confuses_prefixes : Exists fun fs =>
    TreeCall.run emptySource (Fs.format emptySource directoryStat)
        (.makeEntry ⟨0, 0, 0⟩ (ascii "/abcd") (S_IFREG ||| 0o644) 0) = .ok fs ∧
      fs.equals 2 (ascii "/abc/x") 4 = .ok true ∧
      fs.equals 2 (ascii "/abcde") 6 = .error .collision ∧
      ¬ forall id names, Named fs id names -> (forall name, name ∈ names -> IsComponent name) ->
        names.length < MAX_LEVELS -> forall path, (Exists fun rest => path = slash :: rest) ->
          forall path_size, 1 ≤ path_size -> path_size ≤ path.length ->
            fs.equals id path path_size =
              .ok (decide (absolutePath names = path.take path_size)) := by
  obtain ⟨fs, make, -, named, early, bug⟩ := made_abcd
  refine ⟨fs, make, early, bug, fun claim => ?_⟩
  have right := claim 2 _ named (by decide) (by decide) (ascii "/abc/x") ⟨_, rfl⟩ 4 (by decide)
    (by decide)
  rw [early] at right
  exact absurd (Except.ok.inj right) (by decide)

end Metadata
end Mcachefs
