import Mcachefs.Metadata.LazyLookup

namespace Mcachefs
namespace Metadata

open Library

/-!
# Lookups in a tree that changes

`LazyLookup` has what lookups find in a tree that shows the source as it is.  Once
names are made, removed and moved the tree no longer does, and what is left is that
its entries are hashed by their paths, and that no directory has a name twice.  This
is enough for the lookups that the kernel leads to: the directory above the path has
been looked up before.
-/

variable {Hash : Type}

/-- The strings whose hashes tell them apart. -/
def Apart (env : Env Hash) (strings : Path -> Prop) : Prop :=
  forall one two, strings one -> strings two ->
    env.hashing.doHash one = env.hashing.doHash two -> one = two

/-- The entries are a tree without hard links, hashed by path; their names can stand in
a path and differ in each directory, and only a directory has children. -/
structure Sound [Inhabited Hash] (env : Env Hash) (fs : Fs Hash) : Prop where
  isTree : IsTree fs
  hashes : Hashes env fs
  noTwins : NoTwins fs
  noLinks : NoLinks fs
  components : forall id, id ∈ fs.index -> id ≠ rootId -> IsComponent (fs.entries id).d_name
  directories : forall id, id ∈ fs.index -> fs.first id ≠ 0 -> (fs.entries id).st.isDir = true

/-- The paths of all entries are among the strings. -/
def Within (strings : Path -> Prop) (fs : Fs Hash) : Prop :=
  forall id names, id ∈ fs.index -> Named fs id names -> strings (absolutePath names)

section Sound

variable [Inhabited Hash] {env : Env Hash} {fs next : Fs Hash} {father id other : Id}
  {names own more : List Component} {name : Component} {strings : Path -> Prop}

namespace Sound

theorem rootFather (sound : Sound env fs) : fs.father rootId = 0 :=
  (sound.isTree.father_eq_zero sound.isTree.root).mpr rfl

theorem named (sound : Sound env fs) (linked : id ∈ fs.index) :
    Exists fun names => Named fs id names ∧ (id = rootId ↔ names = []) ∧
      (fs.entries id).hash = env.hashing.doHash (absolutePath names) :=
  sound.hashes.named sound.isTree linked

theorem hash (sound : Sound env fs) (linked : id ∈ fs.index) (named : Named fs id names) :
    (fs.entries id).hash = env.hashing.doHash (absolutePath names) := by
  obtain ⟨own, ownNamed, -, hash⟩ := sound.named linked
  rw [named.unique sound.rootFather ownNamed]
  exact hash

theorem below_root (sound : Sound env fs) (named : Named fs id (names ++ [name])) : id ≠ rootId := by
  rintro rfl
  exact absurd (named.unique sound.rootFather .root) (by simp)

/-- The names of an entry tell which one it is. -/
theorem id_unique (sound : Sound env fs) (linked : id ∈ fs.index) (otherLinked : other ∈ fs.index)
    (one : Named fs id names) (two : Named fs other names) : id = other := by
  induction names using List.reverseRecOn generalizing id other with
  | nil => exact (one.root_of_nil rfl).trans (two.root_of_nil rfl).symm
  | append_singleton names last inductionHypothesis =>
      obtain ⟨-, above, spelled⟩ := one.concat_inv
      obtain ⟨-, otherAbove, otherSpelled⟩ := two.concat_inv
      have below := sound.below_root one
      have otherBelow := sound.below_root two
      have fathers := inductionHypothesis (sound.isTree.father linked below)
        (sound.isTree.father otherLinked otherBelow) above otherAbove
      exact sound.isTree.noTwins_iff.mp sound.noTwins id other linked otherLinked below otherBelow
        fathers (spelled.trans otherSpelled.symm)

/-- The names of an entry can stand in a path. -/
theorem components_named (sound : Sound env fs) (linked : id ∈ fs.index)
    (named : Named fs id names) : forall name, name ∈ names -> IsComponent name := by
  induction names using List.reverseRecOn generalizing id with
  | nil => exact fun name member => absurd member List.not_mem_nil
  | append_singleton names last inductionHypothesis =>
      obtain ⟨-, above, rfl⟩ := named.concat_inv
      have below := sound.below_root named
      intro name member
      rcases List.mem_append.mp member with inside | isLast
      · exact inductionHypothesis (sound.isTree.father linked below) above name inside
      · rw [List.mem_singleton.mp isLast]
        exact sound.components id linked below

/-- A child of a name is an entry of the names up to it. -/
theorem hasName_iff (sound : Sound env fs) (linked : father ∈ fs.index)
    (named : Named fs father names) : HasName fs father name ↔ Known fs (names ++ [name]) := by
  rw [sound.isTree.hasName_iff]
  constructor
  · rintro ⟨id, childLinked, below, above, rfl⟩
    refine ⟨id, childLinked, .child ?_ (above.symm ▸ named)⟩
    exact above.symm ▸ sound.isTree.ne_zero linked
  · rintro ⟨id, childLinked, childNamed⟩
    obtain ⟨present, above, sameName⟩ := childNamed.concat_inv
    have below := sound.below_root childNamed
    exact ⟨id, childLinked, below,
      sound.id_unique (sound.isTree.father childLinked below) linked above named, sameName⟩

/-- What is above a known entry is known. -/
theorem known_above (sound : Sound env fs) (known : Known fs (names ++ more)) : Known fs names := by
  induction more using List.reverseRecOn with
  | nil => rwa [List.append_nil] at known
  | append_singleton more last inductionHypothesis =>
      obtain ⟨id, linked, named⟩ := known
      rw [← List.append_assoc] at named
      have below := sound.below_root named
      exact inductionHypothesis ⟨_, sound.isTree.father linked below, named.concat_inv.2.1⟩

omit [Inhabited Hash] in
theorem first_ne_unread (some : fs.first id ≠ 0) : (fs.entries id).child ≠ .unread := by
  intro unread
  apply some
  rw [Fs.first, unread]
  rfl

/-- An entry with a name has a child. -/
theorem hasName_first (sound : Sound env fs) (linked : father ∈ fs.index)
    (hasName : HasName fs father name) : fs.first father ≠ 0 := by
  obtain ⟨child, childLinked, below, above, -⟩ := sound.isTree.hasName_iff.mp hasName
  obtain ⟨kids, free, tree⟩ := sound.isTree
  intro none
  exact tree.no_child (tree.mem_index.mp linked) none (tree.mem_index.mp childLinked) below above

/-- The entries above another one have children. -/
theorem first_above (sound : Sound env fs) (linked : father ∈ fs.index)
    (named : Named fs father names) (known : Known fs (names ++ more)) (some : more ≠ []) :
    fs.first father ≠ 0 := by
  cases more with
  | nil => exact absurd rfl some
  | cons name more =>
      have child : Known fs ((names ++ [name]) ++ more) := by
        rwa [List.append_assoc, List.singleton_append]
      exact sound.hasName_first linked
        ((sound.hasName_iff linked named).mpr (sound.known_above child))

/-- An entry is below another one exactly if its names begin with those of the other. -/
theorem climbs_iff (sound : Sound env fs) (linked : id ∈ fs.index) (otherLinked : other ∈ fs.index)
    (named : Named fs id names) (otherNamed : Named fs other own) :
    Climbs fs.father other id ↔ own <+: names := by
  constructor
  · intro climbs
    have still : forall lower, lower ≠ other ->
        fs.father lower = fs.father lower ∧ (fs.entries lower).d_name = (fs.entries lower).d_name :=
      fun _ _ => ⟨rfl, rfl⟩
    obtain ⟨rest, there, -⟩ := Named.inside still climbs otherNamed otherNamed
    exact ⟨rest, there.unique sound.rootFather named⟩
  · rintro ⟨rest, rfl⟩
    induction rest using List.reverseRecOn generalizing id with
    | nil =>
        rw [List.append_nil] at named
        rw [sound.id_unique linked otherLinked named otherNamed]
        exact .here
    | append_singleton rest last inductionHypothesis =>
        rw [← List.append_assoc] at named
        obtain ⟨present, above, -⟩ := named.concat_inv
        have below := sound.below_root named
        exact .up present (inductionHypothesis (sound.isTree.father linked below) above)

end Sound

/-! ## Lookups -/

/-- Paths of names are equal only if the names are. -/
theorem absolutePath_inj (components : forall name, name ∈ names -> IsComponent name)
    (ownComponents : forall name, name ∈ own -> IsComponent name)
    (same : absolutePath names = absolutePath own) : names = own := by
  by_cases none : own = []
  · subst none
    exact (absolutePath_eq_slash components).mp same
  · have some : names ≠ [] := by
      rintro rfl
      exact none ((absolutePath_eq_slash ownComponents).mp same.symm)
    rw [absolutePath, absolutePath, if_neg some, if_neg none] at same
    exact pathString_inj (fun name member => (components name member).noSlash)
      (fun name member => (ownComponents name member).noSlash) same

section Lookup

variable [DecidableEq Hash] {path beyond : Path} {result : Id}

omit [DecidableEq Hash] in
/-- An entry with the hash of a path has that path. -/
theorem Sound.ofHash (sound : Sound env fs) (apart : Apart env strings) (within : Within strings fs)
    (asked : strings (absolutePath names))
    (components : forall name, name ∈ names -> IsComponent name) (linked : id ∈ fs.index)
    (same : (fs.entries id).hash = env.hashing.doHash (absolutePath names)) :
    Named fs id names := by
  obtain ⟨own, named, -, hash⟩ := sound.named linked
  have paths := apart _ _ asked (within id own linked named) (same.symm.trans hash)
  rw [absolutePath_inj components (sound.components_named linked named) paths]
  exact named

/-- What looking for the hash of a part of a path finds. -/
theorem Sound.findHash (sound : Sound env fs) (apart : Apart env strings)
    (within : Within strings fs) (asked : strings (absolutePath names))
    (components : forall name, name ∈ names -> IsComponent name) (below : names ≠ [])
    (found : fs.findHash (absolutePath names ++ beyond) (env.hashing.doHash (absolutePath names))
      (absolutePath names).length = .ok result) :
    (result ≠ 0 -> result ∈ fs.index ∧ Named fs result names) ∧
      (result = 0 -> ¬ Known fs names) := by
  constructor
  · intro some
    obtain ⟨linked, hash, -⟩ := (findHash_mem found).resolve_left some
    exact ⟨linked, sound.ofHash apart within asked components linked hash⟩
  · rintro rfl ⟨id, linked, named⟩
    unfold Fs.findHash at found
    have member : id ∈ fs.index.filter fun id =>
        (fs.entries id).hash = env.hashing.doHash (absolutePath names) := by
      rw [List.mem_filter, decide_eq_true_eq]
      exact ⟨linked, sound.hash linked named⟩
    cases candidates : fs.index.filter fun id =>
        (fs.entries id).hash = env.hashing.doHash (absolutePath names) with
    | nil =>
        rw [candidates] at member
        cases member
    | cons first rest =>
        obtain ⟨firstLinked, hash⟩ := List.mem_filter.mp (candidates ▸ List.mem_cons_self :
          first ∈ fs.index.filter _)
        have firstNamed := sound.ofHash apart within asked components firstLinked
          (of_decide_eq_true hash)
        rw [candidates] at found
        unfold Fs.findEqual at found
        by_cases few : names.length < MAX_LEVELS
        · rw [firstNamed.equals_own sound.rootFather components below few beyond] at found
          have zero : first = 0 := Except.ok.inj found
          exact sound.isTree.ne_zero firstLinked zero
        · rw [firstNamed.equals_many sound.rootFather components below few beyond] at found
          cases found

/-- A known path is found without a change. -/
theorem Sound.findLocked_known (sound : Sound env fs) (apart : Apart env strings)
    (within : Within strings fs) (asked : strings (absolutePath names))
    (components : forall name, name ∈ names -> IsComponent name) (known : Known fs names)
    (lookup : fs.findLocked env (absolutePath names) = .ok (result, next)) :
    next = fs ∧ result ∈ fs.index ∧ Named fs result names := by
  by_cases isRoot : names = []
  · subst isRoot
    rw [show fs.findLocked env (absolutePath []) = .ok (rootId, fs) from if_pos rfl] at lookup
    obtain ⟨rfl, rfl⟩ := Prod.mk.inj (Except.ok.inj lookup)
    exact ⟨rfl, sound.isTree.root, .root⟩
  · have notSlash : absolutePath names ≠ [slash] := fun same =>
      isRoot ((absolutePath_eq_slash components).mp same)
    rw [Fs.findLocked, if_neg notSlash] at lookup
    obtain ⟨metadata, found, lookup⟩ := bind_eq_ok.mp lookup
    have whole : fs.findHash (absolutePath names ++ []) (env.hashing.doHash (absolutePath names))
        (absolutePath names).length = .ok metadata := by
      rwa [List.append_nil]
    obtain ⟨there, missing⟩ := sound.findHash apart within asked components isRoot whole
    have some : metadata ≠ 0 := fun none => missing none known
    rw [if_pos some] at lookup
    obtain ⟨rfl, rfl⟩ := Prod.mk.inj (Except.ok.inj lookup)
    exact ⟨rfl, there some⟩

/-! ## Below a known directory -/

omit [Inhabited Hash] in
/-- The last slash of the path of a name. -/
theorem pathString_split (names : List Component) (name : Component) :
    absolutePath (names ++ [name]) = pathString names ++ slash :: (name ++ []) := by
  rw [absolutePath, if_neg (by simp), pathString_concat, List.append_nil]

/-- The loop over shorter and shorter paths ends at the directory above. -/
theorem Sound.semiLookup_above (sound : Sound env fs) (apart : Apart env strings)
    (within : Within strings fs) (asked : strings (absolutePath names))
    (components : forall other, other ∈ names ++ [name] -> IsComponent other)
    (known : Known fs names) {size : Nat}
    (lookup : fs.semiLookup env (absolutePath (names ++ [name]))
      (absolutePath (names ++ [name])).length = .ok (result, size)) :
    result ∈ fs.index ∧ Named fs result names ∧ size = (pathString names).length := by
  have component := components name (by simp)
  have split := pathString_split names name
  have length : (absolutePath (names ++ [name])).length =
      (pathString names).length + name.length + 1 := by
    rw [split, List.append_nil, List.length_append, List.length_cons, Nat.add_assoc]
  have ended : (absolutePath (names ++ [name])).getD
      ((pathString names).length + name.length + 1) 0 ≠ slash := by
    rw [← length, List.getD_eq_default _ _ (Nat.le_refl _)]
    decide
  rw [length, Fs.semiLookup, if_pos ended, semiLookup_back split component.noSlash (Nat.le_refl _)]
    at lookup
  rcases List.eq_nil_or_concat names with rfl | ⟨front, last, isConcat⟩
  · obtain ⟨rfl, rfl⟩ := Prod.mk.inj (Except.ok.inj lookup)
    exact ⟨sound.isTree.root, .root, rfl⟩
  · rw [List.concat_eq_append] at isConcat
    have some : names ≠ [] := isConcat ▸ by simp
    have whole : absolutePath names = pathString names := if_neg some
    have letters : 0 < last.length :=
      List.length_pos_iff.mpr (components last (by simp [isConcat])).nonempty
    obtain ⟨place, size_eq⟩ : Exists fun place => (pathString names).length = place + 1 :=
      Nat.exists_eq_succ_of_ne_zero (by
        rw [isConcat, pathString_concat, List.length_append, List.length_cons]
        omega)
    have atSlash : (absolutePath (names ++ [name])).getD (place + 1) 0 = slash := by
      rw [split, ← size_eq, List.getD_append_right _ _ _ _ (Nat.le_refl _), Nat.sub_self]
      rfl
    have longer : ¬ place + 1 ≤ 1 := by
      rw [← size_eq, isConcat, pathString_concat, List.length_append, List.length_cons]
      omega
    have hash : env.hashing.doHashPartial (absolutePath (names ++ [name])) (place + 1 : Nat) =
        env.hashing.doHash (absolutePath names) := by
      rw [HashFunction.doHashPartial_eq, HashFunction.partialString, if_pos (Nat.succ_pos _),
        ← size_eq, split, List.take_left, whole]
    rw [size_eq, Fs.semiLookup, if_neg (not_not.mpr atSlash), if_neg longer, hash] at lookup
    obtain ⟨metadata, found, lookup⟩ := bind_eq_ok.mp lookup
    rw [← size_eq, ← whole, split, ← whole] at found
    obtain ⟨there, missing⟩ := sound.findHash apart within asked
      (fun other member => components other (List.mem_append_left _ member)) some found
    have present : metadata ≠ 0 := fun none => missing none known
    rw [if_pos present] at lookup
    obtain ⟨rfl, rfl⟩ := Prod.mk.inj (Except.ok.inj lookup)
    exact ⟨(there present).1, (there present).2, size_eq.symm⟩

/-- The walk to the last name reads the directory and looks through its children. -/
theorem walkDown_last {rounds : Nat} (component : IsComponent name)
    (hash : (fs.entries father).hash = env.hashing.doHash (absolutePath names))
    (walk : fs.walkDown env (absolutePath (names ++ [name])) (rounds + 1) father
      (pathString names).length = .ok (result, next)) :
    Exists fun child => fs.getChild env father = .ok (child, next) ∧
      (child = 0 ∧ result = 0 ∨ child ≠ 0 ∧
        next.findSibling (fun child => WalkTest env next (absolutePath names) name name.length child)
          env.fuel child = .ok result) := by
  have split := pathString_split names name
  have inside : ¬ (absolutePath (names ++ [name])).length < (pathString names).length + 1 := by
    rw [split, List.length_append, List.length_cons]
    omega
  have rest : (absolutePath (names ++ [name])).drop ((pathString names).length + 1) = name := by
    rw [split, ← List.drop_drop, List.drop_left, List.append_nil, List.drop_one, List.tail_cons]
  have size : (name.takeWhile fun byte => byte ≠ slash).length = name.length := by
    have whole := takeWhile_name component.noSlash []
    rw [pathString, List.append_nil] at whole
    rw [whole]
  have continued : env.hashing.continueHashPartial
      (env.hashing.continueHash (fs.entries father).hash [slash]) name name.length =
      env.hashing.doHash (absolutePath names ++ slash ::
        HashFunction.partialString name name.length) := by
    rw [hash, HashFunction.continueHash_doHash, HashFunction.continueHashPartial_doHash,
      List.append_assoc, List.singleton_append]
  rw [Fs.walkDown] at walk
  simp only [rest, size, continued, if_neg inside] at walk
  obtain ⟨⟨child, middle⟩, read, walk⟩ := bind_eq_ok.mp walk
  refine ⟨child, ?_⟩
  simp only at walk
  by_cases none : child = 0
  · rw [if_pos none] at walk
    obtain ⟨rfl, rfl⟩ := Prod.mk.inj (Except.ok.inj walk)
    exact ⟨read, Or.inl ⟨none, rfl⟩⟩
  · rw [if_neg none] at walk
    obtain ⟨found, search, walk⟩ := bind_eq_ok.mp walk
    have last : (if found = 0 then Except.ok (0, middle)
        else if name.length < name.length then
          middle.walkDown env (absolutePath (names ++ [name])) rounds found
            ((pathString names).length + 1 + name.length + 1)
        else .ok (found, middle)) = .ok (found, middle) := by
      rw [if_neg (Nat.lt_irrefl _)]
      split
      · next zero => rw [zero]
      · rfl
    rw [last] at walk
    obtain ⟨rfl, rfl⟩ := Prod.mk.inj (Except.ok.inj walk)
    exact ⟨read, Or.inr ⟨none, search⟩⟩

/-- The strings whose hashes a lookup below a known directory asks for: the path, and
the one that the walk takes for it below the root. -/
structure Asks (strings : Path -> Prop) (names : List Component) (name : Component) : Prop where
  above : strings (absolutePath names)
  path : strings (absolutePath (names ++ [name]))
  walk : strings (absolutePath names ++ slash :: name)

/-- The search finds the child of this name, or none; below the root it finds none. -/
theorem Sound.search (sound : Sound env fs) (apart : Apart env strings) (within : Within strings fs)
    (asks : Asks strings names name)
    (components : forall other, other ∈ names ++ [name] -> IsComponent other)
    (linked : father ∈ fs.index) (named : Named fs father names)
    (search : fs.findSibling (fun child => WalkTest env fs (absolutePath names) name name.length
      child) env.fuel (fs.first father) = .ok result) :
    (result ≠ 0 -> result ∈ fs.index ∧ Named fs result (names ++ [name])) ∧
      (result = 0 -> names ≠ [] -> ¬ Known fs (names ++ [name])) := by
  have component := components name (by simp)
  have letters : 0 < name.length := List.length_pos_iff.mpr component.nonempty
  have whole : HashFunction.partialString name name.length = name := by
    rw [HashFunction.partialString, if_pos letters, List.take_length]
  have path : names ≠ [] -> absolutePath (names ++ [name]) = absolutePath names ++ slash :: name := by
    intro below
    rw [pathString_split, List.append_nil, absolutePath, if_neg below]
  constructor
  · intro some
    obtain ⟨idLinked, below, -, test⟩ := (sound.isTree.findSibling linked search).resolve_left some
    obtain ⟨hash, -⟩ := of_decide_eq_true test
    rw [whole] at hash
    refine ⟨idLinked, ?_⟩
    by_cases isRoot : names = []
    · -- The string that is hashed has two slashes, and no path has.
      obtain ⟨own, ownNamed, -, ownHash⟩ := sound.named idLinked
      have same := apart _ _ (within _ own idLinked ownNamed) asks.walk (ownHash.symm.trans hash)
      have ownComponents := sound.components_named idLinked ownNamed
      subst isRoot
      cases own with
      | nil => exact absurd (ownNamed.root_of_nil rfl) below
      | cons first own =>
          have first := ownComponents first List.mem_cons_self
          rw [absolutePath, if_neg (List.cons_ne_nil _ _), pathString] at same
          rcases List.exists_cons_of_ne_nil first.nonempty with ⟨byte, letters, rfl⟩
          have second := (List.cons.inj (List.cons.inj same).2).1
          exact absurd (second ▸ List.mem_cons_self) first.noSlash
    · rw [← path isRoot] at hash
      exact sound.ofHash apart within asks.path components idLinked hash
  · rintro rfl below ⟨id, idLinked, idNamed⟩
    have isTree := sound.isTree
    obtain ⟨kids, free, tree⟩ := isTree
    obtain ⟨present, above, spelled⟩ := idNamed.concat_inv
    have notRoot := sound.below_root idNamed
    have isFather : fs.father id = father :=
      sound.id_unique (sound.isTree.father idLinked notRoot) linked above named
    have member := (tree.listed (tree.mem_index.mp idLinked) notRoot).2
    rw [isFather] at member
    have list := tree.shape.forest.list father (tree.mem_index.mp linked)
    apply of_decide_eq_false (findSibling_none list search id member)
    refine ⟨?_, ?_⟩
    · rw [sound.hash idLinked idNamed, whole, path below]
    · rw [spelled, strncmpEqual]
      exact decide_eq_true rfl

/-- What a lookup below a known directory finds.  Where it finds nothing, it has asked for
the children of that directory. -/
theorem Sound.findLocked_child (sound : Sound env fs) (apart : Apart env strings)
    (within : Within strings fs) (asks : Asks strings names name)
    (components : forall other, other ∈ names ++ [name] -> IsComponent other)
    (reads : forall father child next, father ∈ fs.index ->
      fs.getChild env father = .ok (child, next) -> Sound env next ∧ Within strings next)
    (rootRead : (fs.entries rootId).child ≠ .unread) (known : Known fs names)
    (lookup : fs.findLocked env (absolutePath (names ++ [name])) = .ok (result, next)) :
    Populated env fs next ∧
      (result ≠ 0 -> result ∈ next.index ∧ Named next result (names ++ [name])) ∧
      (result = 0 -> ¬ Known next (names ++ [name]) ∧ Exists fun father => Exists fun child =>
        father ∈ fs.index ∧ Named fs father names ∧ fs.getChild env father = .ok (child, next)) := by
  have notSlash : absolutePath (names ++ [name]) ≠ [slash] := fun same =>
    absurd ((absolutePath_eq_slash components).mp same) (by simp)
  rw [Fs.findLocked, if_neg notSlash] at lookup
  obtain ⟨metadata, found, lookup⟩ := bind_eq_ok.mp lookup
  have whole : fs.findHash (absolutePath (names ++ [name]) ++ [])
      (env.hashing.doHash (absolutePath (names ++ [name])))
      (absolutePath (names ++ [name])).length = .ok metadata := by
    rwa [List.append_nil]
  obtain ⟨there, missing⟩ := sound.findHash apart within asks.path components (by simp) whole
  by_cases some : metadata ≠ 0
  · rw [if_pos some] at lookup
    obtain ⟨rfl, rfl⟩ := Prod.mk.inj (Except.ok.inj lookup)
    exact ⟨.refl, there, fun none => absurd none some⟩
  · rw [if_neg some] at lookup
    obtain ⟨⟨father, size⟩, semi, walk⟩ := bind_eq_ok.mp lookup
    obtain ⟨linked, named, rfl⟩ := sound.semiLookup_above apart within asks.above components known semi
    obtain ⟨child, read, ends⟩ := walkDown_last (components name (by simp)) (sound.hash linked named)
      walk
    have populated : Populated env fs next := .step .refl linked read
    have stays := populated.stays sound.isTree linked
    have nextNamed := named.populated sound.isTree linked populated
    obtain ⟨nextSound, nextWithin⟩ := reads father child next linked read
    have isFirst : child = next.first father := by
      obtain ⟨kids, free, tree⟩ := sound.isTree
      exact (tree.getChild (tree.mem_index.mp linked) read).1
    have unknown : ¬ Known fs (names ++ [name]) := missing (not_not.mp some)
    refine ⟨populated, fun present => ?_, fun none => ⟨?_, father, child, linked, named, read⟩⟩
    · rcases ends with ⟨-, absent⟩ | ⟨-, search⟩
      · exact absurd absent present
      · rw [isFirst] at search
        exact (nextSound.search apart nextWithin asks components stays.linked nextNamed search).1
          present
    · by_cases isRoot : names = []
      · -- The root has been read, so that there is nothing new.
        subst isRoot
        obtain rfl := named.root_of_nil rfl
        obtain ⟨-, rfl⟩ := Prod.mk.inj (Except.ok.inj ((getChild_of_known rootRead).symm.trans read))
        exact unknown
      · rcases ends with ⟨absent, -⟩ | ⟨-, search⟩
        · intro known
          exact nextSound.hasName_first stays.linked
            ((nextSound.hasName_iff stays.linked nextNamed).mpr known) (isFirst.symm.trans absent)
        · rw [isFirst] at search
          exact (nextSound.search apart nextWithin asks components stays.linked nextNamed search).2
            none isRoot

end Lookup

end Sound

end Metadata
end Mcachefs
