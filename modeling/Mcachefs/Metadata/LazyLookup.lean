import Mcachefs.Metadata.SourceTree
import Mathlib.Data.List.GetD

namespace Mcachefs
namespace Metadata

open Library

/-!
# Lookups in directories that have not been read

`mcachefs_metadata_find_locked` looks for the whole path, and then for shorter and
shorter parts of it.  From the longest part that is known
`mcachefs_metadata_walk_down` goes on, and reads the directories on its way.

After the first name of the walk `path_size` is the place of the first letter of the
next one, where `walk_down_start` takes it for that of a slash.  Each name but the
first is then looked for without its first letter.
-/

variable {Hash : Type}

/-- The strings whose hashes a lookup of the path compares with those of entries. -/
inductive Asked (env : Env Hash) (st : Stat) (path : Path) : Path -> Prop
  | part (size : Nat) : Asked env st path (path.take size)
  | child {names : List Component} {here : Stat} (place size : Nat)
      (there : env.below [] st names = some here) :
      Asked env st path
        (absolutePath names ++ slash :: HashFunction.partialString (path.drop place) size)

/-- A string that a lookup of the path hashes has the hash of an entry's path only
where it is that path. -/
def HashesApart (env : Env Hash) (st : Stat) (path : Path) : Prop :=
  forall asked, Asked env st path asked -> forall names here,
    env.below [] st names = some here ->
      env.hashing.doHash asked = env.hashing.doHash (absolutePath names) ->
        asked = absolutePath names

/-- There is an entry of these names. -/
def Known (fs : Fs Hash) (names : List Component) : Prop :=
  Exists fun id => id ∈ fs.index ∧ Named fs id names

/-- The result is the entry that the names denote in the source, or null. -/
structure Denotes (env : Env Hash) (st : Stat) (fs : Fs Hash) (names : List Component)
    (result : Id) : Prop where
  found : forall here, env.below [] st names = some here ->
    result ∈ fs.index ∧ Named fs result names
  missing : env.below [] st names = none -> result = 0

/-- The names of a walk as it looks for them. -/
def lettersDropped : List Component -> List Component
  | [] => []
  | name :: names => name :: names.map List.tail

/-! ## Names of the source -/

section Source

variable {env : Env Hash} {st : Stat}

/-- The names of what is in the source can stand between slashes. -/
theorem Env.Steady.below_components (steady : env.Steady st) {names : List Component}
    {here : Stat} (there : env.below [] st names = some here) :
    forall name, name ∈ names -> IsComponent name := by
  induction names using List.reverseRecOn generalizing here with
  | nil =>
      intro name member
      cases member
  | append_singleton names last inductionHypothesis =>
      rw [Env.below_concat] at there
      obtain ⟨above, aboveThere, listed⟩ := Option.bind_eq_some_iff.mp there
      intro name member
      rcases List.mem_append.mp member with before | isLast
      · exact inductionHypothesis aboveThere name before
      · obtain rfl := List.mem_singleton.mp isLast
        split at listed
        · have pair := (lookup_eq_some_iff (steady.listing_nodup names)).mp listed
          unfold Env.listing at pair
          cases answered : env.source 0 names with
          | none =>
              rw [answered] at pair
              cases pair
          | some des =>
              rw [answered] at pair
              exact steady.components names des answered _ (List.mem_of_mem_filter pair)
        · cases listed

/-- What is not in the source has nothing below it. -/
theorem below_none {names : List Component} (missing : env.below [] st names = none)
    (more : List Component) : env.below [] st (names ++ more) = none := by
  rw [Env.below_append, missing]
  rfl

end Source

/-! ## Looking for a hash -/

section Hash

variable [Inhabited Hash] {env : Env Hash} {st : Stat} {fs : Fs Hash} {names : List Component}
  {path beyond : Path}

/-- Two entries below places of the source have one path only if they have the same names. -/
theorem Mirrors.names_of_path (mirrors : Mirrors env st fs) (steady : env.Steady st)
    (components : forall name, name ∈ names -> IsComponent name) {id : Id} {own : List Component}
    (linked : id ∈ fs.index) (named : Named fs id own)
    (same : absolutePath names = absolutePath own) : names = own := by
  have there := mirrors.there id own linked named
  have ownComponents := steady.below_components there
  by_cases none : own = []
  · subst none
    exact (absolutePath_eq_slash components).mp same
  · have some : names ≠ [] := by
      rintro rfl
      exact none ((absolutePath_eq_slash ownComponents).mp same.symm)
    rw [absolutePath, absolutePath, if_neg some, if_neg none] at same
    exact pathString_inj (fun name member => (components name member).noSlash)
      (fun name member => (ownComponents name member).noSlash) same

variable [DecidableEq Hash]

/-- The entries whose hash is that of a part of the path have its names. -/
theorem Mirrors.candidates (mirrors : Mirrors env st fs) (steady : env.Steady st)
    (apart : HashesApart env st path) (begins : path = absolutePath names ++ beyond)
    (components : forall name, name ∈ names -> IsComponent name) {id : Id}
    (candidate : id ∈ fs.index.filter fun id =>
      (fs.entries id).hash = env.hashing.doHash (absolutePath names)) :
    id ∈ fs.index ∧ Named fs id names := by
  obtain ⟨linked, same⟩ := List.mem_filter.mp candidate
  obtain ⟨own, named, -, hash⟩ := mirrors.named linked
  have asked : Asked env st path (absolutePath names) := by
    have part : Asked env st path (path.take (absolutePath names).length) := .part _
    have same : path.take (absolutePath names).length = absolutePath names := by
      rw [begins, List.take_left]
    rwa [same] at part
  rw [hash, decide_eq_true_eq] at same
  have paths := apart _ asked own _ (mirrors.there id own linked named) same.symm
  rw [mirrors.names_of_path steady components linked named paths]
  exact ⟨linked, named⟩

/-- A part of the path that is known. -/
theorem findHash_known (mirrors : Mirrors env st fs) (steady : env.Steady st)
    (apart : HashesApart env st path) (begins : path = absolutePath names ++ beyond)
    (components : forall name, name ∈ names -> IsComponent name) (below : names ≠ []) {id : Id}
    (linked : id ∈ fs.index) (named : Named fs id names) :
    fs.findHash path (env.hashing.doHash (absolutePath names)) (absolutePath names).length =
      if names.length < MAX_LEVELS then .ok id else .error .maximumLevel := by
  unfold Fs.findHash
  have member : id ∈ fs.index.filter fun id =>
      (fs.entries id).hash = env.hashing.doHash (absolutePath names) := by
    rw [List.mem_filter, decide_eq_true_eq]
    exact ⟨linked, mirrors.hash linked named⟩
  cases candidates : fs.index.filter fun id =>
      (fs.entries id).hash = env.hashing.doHash (absolutePath names) with
  | nil =>
      rw [candidates] at member
      cases member
  | cons first rest =>
      obtain ⟨firstLinked, firstNamed⟩ := mirrors.candidates steady apart begins components
        (candidates ▸ List.mem_cons_self)
      obtain rfl := mirrors.id_unique linked firstLinked named firstNamed
      unfold Fs.findEqual
      split
      · next few =>
          rw [begins, named.equals_own mirrors.rootFather components below few beyond]
          rfl
      · next many =>
          rw [begins, named.equals_many mirrors.rootFather components below many beyond]
          rfl

/-- A part of the path that is not known. -/
theorem findHash_unknown (mirrors : Mirrors env st fs) (steady : env.Steady st)
    (apart : HashesApart env st path) (begins : path = absolutePath names ++ beyond)
    (components : forall name, name ∈ names -> IsComponent name) (unknown : ¬ Known fs names) :
    fs.findHash path (env.hashing.doHash (absolutePath names)) (absolutePath names).length =
      .ok 0 := by
  unfold Fs.findHash
  cases candidates : fs.index.filter fun id =>
      (fs.entries id).hash = env.hashing.doHash (absolutePath names) with
  | nil => rfl
  | cons first rest =>
      exact absurd ⟨first, mirrors.candidates steady apart begins components
        (candidates ▸ List.mem_cons_self)⟩ unknown

/-! ## The longest part that is known -/

omit [DecidableEq Hash] in
/-- What is above a known entry is known. -/
theorem Known.above (mirrors : Mirrors env st fs) {more : List Component}
    (known : Known fs (names ++ more)) : Known fs names := by
  induction more using List.reverseRecOn with
  | nil => rwa [List.append_nil] at known
  | append_singleton more last inductionHypothesis =>
      obtain ⟨id, linked, named⟩ := known
      rw [← List.append_assoc] at named
      obtain ⟨present, above, -⟩ := named.concat_inv
      have below : id ≠ rootId := fun isRoot => present (isRoot ▸ mirrors.rootFather)
      exact inductionHypothesis ⟨_, mirrors.isTree.father linked below, above⟩

/-- The names are split behind the longest part that is known. -/
structure KnownUpTo (fs : Fs Hash) (names known rest : List Component) : Prop where
  split : names = known ++ rest
  there : Known fs known
  longest : forall name more, rest = name :: more -> ¬ Known fs (known ++ [name])

omit [DecidableEq Hash] in
/-- There is one such split. -/
theorem KnownUpTo.unique (mirrors : Mirrors env st fs) {known rest other others : List Component}
    (one : KnownUpTo fs names known rest) (two : KnownUpTo fs names other others) :
    known = other ∧ rest = others := by
  have shorter : forall {known rest other others : List Component},
      KnownUpTo fs names known rest -> KnownUpTo fs names other others ->
        other.length ≤ known.length := by
    intro known rest other others one two
    by_contra longer
    have same := one.split.symm.trans two.split
    obtain ⟨between, whole⟩ := List.prefix_of_prefix_length_le (List.prefix_append known rest)
      (same ▸ List.prefix_append other others) (Nat.le_of_lt (Nat.lt_of_not_le longer))
    cases between with
    | nil =>
        rw [List.append_nil] at whole
        exact longer (whole ▸ Nat.le_refl _)
    | cons name between =>
        have behind : rest = name :: (between ++ others) := by
          rw [← whole, List.append_assoc] at same
          exact List.append_cancel_left same
        have known' : Known fs ((known ++ [name]) ++ between) := by
          rw [List.append_assoc, List.singleton_append, whole]
          exact two.there
        exact one.longest name _ behind (known'.above mirrors)
  have lengths := Nat.le_antisymm (shorter two one) (shorter one two)
  exact List.append_inj (one.split.symm.trans two.split) lengths

omit [Inhabited Hash] in
/-- The loop goes back over the letters of a name to the slash before it. -/
theorem semiLookup_back {name : Component} {after : Path}
    (split : path = pathString names ++ slash :: (name ++ after)) (noSlash : slash ∉ name)
    {letters : Nat} (few : letters ≤ name.length) :
    fs.semiLookup env path ((pathString names).length + letters) =
      fs.semiLookup env path (pathString names).length := by
  induction letters with
  | zero => rfl
  | succ letters inductionHypothesis =>
      have letter : path.getD ((pathString names).length + letters + 1) 0 ≠ slash := by
        have place : (pathString names).length ≤ (pathString names).length + letters + 1 := by omega
        have inside : letters < name.length := few
        rw [split, List.getD_append_right _ _ _ _ place]
        have offset : (pathString names).length + letters + 1 - (pathString names).length =
            letters + 1 := by omega
        rw [offset, List.getD_cons_succ, List.getD_append _ _ _ _ inside,
          List.getD_eq_getElem _ _ inside]
        exact fun same => noSlash (same ▸ List.getElem_mem inside)
      rw [← Nat.add_assoc, Fs.semiLookup, if_pos letter]
      exact inductionHypothesis (Nat.le_of_succ_le few)

/-- The loop ends at the longest part that is known. -/
theorem semiLookup_known (mirrors : Mirrors env st fs) (steady : env.Steady st)
    (apart : HashesApart env st path) {name : Component} {after : Path}
    (split : path = pathString names ++ slash :: (name ++ after)) (noSlash : slash ∉ name)
    (components : forall name, name ∈ names -> IsComponent name) :
    Exists fun known => Exists fun rest => Exists fun id => KnownUpTo fs names known rest ∧
      id ∈ fs.index ∧ Named fs id known ∧
      fs.semiLookup env path ((pathString names).length + name.length) =
        if known.length < MAX_LEVELS then .ok (id, (pathString known).length)
        else .error .maximumLevel := by
  rw [semiLookup_back split noSlash (Nat.le_refl _)]
  induction names using List.reverseRecOn generalizing name after with
  | nil =>
      refine ⟨[], [], rootId, ⟨rfl, ⟨rootId, mirrors.isTree.root, .root⟩, ?_⟩, mirrors.isTree.root,
        .root, rfl⟩
      intro name more impossible
      cases impossible
  | append_singleton names last inductionHypothesis =>
      have lastComponent := components last (by simp)
      have above : forall name, name ∈ names -> IsComponent name := fun name member =>
        components name (List.mem_append_left _ member)
      have whole : absolutePath (names ++ [last]) = pathString (names ++ [last]) :=
        if_neg (by simp)
      have begins : path = absolutePath (names ++ [last]) ++ slash :: (name ++ after) := by
        rw [whole, split]
      have size : (pathString (names ++ [last])).length =
          (pathString names).length + last.length + 1 := by
        rw [pathString_concat, List.length_append, List.length_cons, Nat.add_assoc]
      have atSlash : path.getD ((pathString names).length + last.length + 1) 0 = slash := by
        rw [split, ← size, List.getD_append_right _ _ _ _ (Nat.le_refl _), Nat.sub_self]
        rfl
      have letters : 0 < last.length := List.length_pos_iff.mpr lastComponent.nonempty
      have hash : env.hashing.doHashPartial path
          ((pathString names).length + last.length + 1 : Nat) =
          env.hashing.doHash (absolutePath (names ++ [last])) := by
        rw [HashFunction.doHashPartial_eq, HashFunction.partialString, if_pos (Nat.succ_pos _),
          ← size, begins, whole, List.take_left]
      have turn : fs.semiLookup env path (pathString (names ++ [last])).length = (do
          let metadata ← fs.findHash path (env.hashing.doHash (absolutePath (names ++ [last])))
            (absolutePath (names ++ [last])).length
          if metadata ≠ 0 then .ok (metadata, (pathString (names ++ [last])).length)
          else fs.semiLookup env path ((pathString names).length + last.length)) := by
        rw [whole, size, Fs.semiLookup, if_neg (not_not.mpr atSlash), if_neg (by omega), hash, whole]
      rw [turn]
      by_cases there : Known fs (names ++ [last])
      · obtain ⟨id, linked, named⟩ := there
        refine ⟨names ++ [last], [], id, ⟨by simp, ⟨id, linked, named⟩, ?_⟩, linked, named, ?_⟩
        · intro name more impossible
          cases impossible
        · rw [findHash_known mirrors steady apart begins components (by simp) linked named]
          split
          · exact if_pos (mirrors.isTree.ne_zero linked)
          · rfl
      · have before : path = pathString names ++ slash :: (last ++ slash :: (name ++ after)) := by
          rw [split, pathString_concat, List.append_assoc, List.cons_append]
        obtain ⟨known, rest, id, upTo, linked, named, lookup⟩ :=
          inductionHypothesis before lastComponent.noSlash above
        rw [findHash_unknown mirrors steady apart begins components there]
        refine ⟨known, rest ++ [last], id, ⟨?_, upTo.there, fun first more same => ?_⟩, linked,
          named, ?_⟩
        · rw [upTo.split, List.append_assoc]
        · cases rest with
          | nil =>
              obtain ⟨rfl, -⟩ := List.cons.inj same
              have own : names = known := upTo.split.trans (List.append_nil known)
              exact own ▸ there
          | cons second rest =>
              obtain ⟨rfl, -⟩ := List.cons.inj same
              exact upTo.longest second rest rfl
        · rw [← lookup]
          exact semiLookup_back before lastComponent.noSlash (Nat.le_refl _)

/-! ## One name of a walk -/

omit [Inhabited Hash] [DecidableEq Hash] in
/-- The loop over a list of children ends when it gets more turns than there are children. -/
theorem findSibling_ends {found : Id -> Bool} {fuel : Nat} {start : Id} {ids : List Id}
    (list : Segment fs.next start ids 0) (enough : ids.length < fuel) :
    Exists fun result => fs.findSibling found fuel start = .ok result := by
  induction ids generalizing fuel start with
  | nil =>
      obtain ⟨fuel, rfl⟩ := Nat.exists_eq_add_of_le' enough
      exact ⟨0, if_pos list.nil_inv⟩
  | cons id ids inductionHypothesis =>
      obtain ⟨rfl, present, rest⟩ := list.cons_inv
      obtain ⟨fuel, rfl⟩ := Nat.exists_eq_add_of_le' (Nat.lt_of_le_of_lt (Nat.zero_le _) enough)
      rw [List.length_cons, Nat.add_lt_add_iff_right] at enough
      unfold Fs.findSibling
      rw [if_neg present]
      split
      · exact ⟨_, rfl⟩
      · exact inductionHypothesis rest enough

/-- The test of `mcachefs_metadata_walk_down` for a child. -/
abbrev WalkTest (env : Env Hash) (fs : Fs Hash) (above rpath : Path) (rpath_size : Nat) (child : Id) :
    Prop :=
  (fs.entries child).hash =
      env.hashing.doHash (above ++ slash :: HashFunction.partialString rpath rpath_size) ∧
    strncmpEqual (fs.entries child).d_name rpath rpath_size = true

omit [DecidableEq Hash] in
/-- A child that passes the test has the name that is looked for, below another entry than
the root. -/
theorem WalkTest.named (mirrors : Mirrors env st fs) (steady : env.Steady st)
    (apart : HashesApart env st path) {father id : Id} {place : Nat} {name : Component}
    {more : List Component} (linked : father ∈ fs.index) (named : Named fs father names)
    (rest : path.drop place = name ++ pathString more) (idLinked : id ∈ fs.index)
    (above : fs.father id = father)
    (test : WalkTest env fs (absolutePath names) (path.drop place) name.length id) :
    names ≠ [] ∧ Named fs id (names ++ [name]) := by
  have idNamed : Named fs id (names ++ [(fs.entries id).d_name]) :=
    .child (above.symm ▸ mirrors.isTree.ne_zero linked) (above.symm ▸ named)
  have there := mirrors.there id _ idLinked idNamed
  have component := steady.below_components there (fs.entries id).d_name (by simp)
  have whole : absolutePath (names ++ [(fs.entries id).d_name]) =
      pathString names ++ slash :: (fs.entries id).d_name := by
    rw [absolutePath, if_neg (by simp), pathString_concat]
  have same := apart _ (.child place name.length (mirrors.there father names linked named)) _ _ there
    (test.1.symm.trans (mirrors.hash idLinked idNamed))
  rw [whole] at same
  have below : names ≠ [] := by
    rintro rfl
    -- The root is passed as if its path were the string before a slash.
    have second := (List.cons.inj same).2
    exact component.noSlash (second ▸ List.mem_cons_self)
  rw [absolutePath, if_neg below] at same
  have own := (List.cons.inj (List.append_cancel_left same)).2
  have isName : (fs.entries id).d_name = name := by
    rw [← own, rest, HashFunction.partialString]
    split
    · exact List.take_left
    · next none =>
        obtain rfl := List.length_eq_zero_iff.mp (Nat.eq_zero_of_not_pos none)
        -- Without letters the whole rest of the path is hashed.
        rw [rest, HashFunction.partialString, if_neg none, List.nil_append] at own
        rcases @pathString_head more with empty | ⟨later, begins⟩
        · exact absurd (own.symm.trans empty) component.nonempty
        · rw [own] at begins
          exact absurd (begins ▸ List.mem_cons_self) component.noSlash
  exact ⟨below, isName ▸ idNamed⟩

/-- The loop over the children finds the one of the name, or none; below the root it
finds none. -/
theorem walkTest_search (mirrors : Mirrors env st fs) (steady : env.Steady st)
    (apart : HashesApart env st path) {father : Id} {place : Nat} {name : Component}
    {more : List Component} (linked : father ∈ fs.index) (named : Named fs father names)
    (rest : path.drop place = name ++ pathString more) (positive : 0 < env.fuel) :
    Exists fun found =>
      fs.findSibling (fun child => WalkTest env fs (absolutePath names) (path.drop place)
        name.length child) env.fuel (fs.first father) = .ok found ∧
      (found ≠ 0 -> found ∈ fs.index ∧ names ≠ [] ∧ Named fs found (names ++ [name])) ∧
      (found = 0 -> names ≠ [] -> ¬ HasName fs father name) := by
  obtain ⟨kids, free, tree⟩ := mirrors.isTree
  have isNode := tree.mem_index.mp linked
  have list := tree.shape.forest.list father isNode
  obtain ⟨found, search⟩ : Exists fun found =>
      fs.findSibling (fun child => WalkTest env fs (absolutePath names) (path.drop place)
        name.length child) env.fuel (fs.first father) = .ok found :=
    findSibling_ends list (mirrors.kids_length steady tree linked positive)
  refine ⟨found, search, fun present => ?_, fun missing below hasName => ?_⟩
  · obtain ⟨foundLinked, -, above, test⟩ :=
      (mirrors.isTree.findSibling linked search).resolve_left present
    obtain ⟨below, foundNamed⟩ := WalkTest.named mirrors steady apart linked named rest foundLinked
      above (of_decide_eq_true test)
    exact ⟨foundLinked, below, foundNamed⟩
  · subst missing
    obtain ⟨id, idLinked, idBelow, above, rfl⟩ := mirrors.isTree.hasName_iff.mp hasName
    have idNamed : Named fs id (names ++ [(fs.entries id).d_name]) :=
      .child (above.symm ▸ mirrors.isTree.ne_zero linked) (above.symm ▸ named)
    have member := (tree.listed (tree.mem_index.mp idLinked) idBelow).2
    rw [above] at member
    have failed := of_decide_eq_false (findSibling_none list search id member)
    have component := steady.below_components (mirrors.there id _ idLinked idNamed)
      (fs.entries id).d_name (by simp)
    have letters : 0 < (fs.entries id).d_name.length := List.length_pos_iff.mpr component.nonempty
    refine failed ⟨?_, ?_⟩
    · rw [mirrors.hash idLinked idNamed, HashFunction.partialString, if_pos letters, rest,
        List.take_left, absolutePath, absolutePath, if_neg below, if_neg (by simp),
        pathString_concat]
    · rw [strncmpEqual, rest, List.take_left, List.take_length]
      exact decide_eq_true rfl

/-! ## The walk -/

/-- Where a name of a path ends. -/
theorem takeWhile_name {name : Component} (noSlash : slash ∉ name) (more : List Component) :
    (name ++ pathString more).takeWhile (fun byte => byte ≠ slash) = name := by
  have letters : forall byte, byte ∈ name -> decide (byte ≠ slash) = true := fun byte member =>
    decide_eq_true fun same => noSlash (same ▸ member)
  rw [List.takeWhile_append_of_pos letters]
  rcases @pathString_head more with empty | ⟨later, begins⟩
  · rw [empty]
    simp
  · rw [begins]
    simp

/-- One round of the walk. -/
theorem walkDown_turn (steady : env.Steady st) (apart : HashesApart env st path)
    {more : List Component} {father : Id} {name : Component} {path_size : Nat} (rounds : Nat)
    (mirrors : Mirrors env st fs) (linked : father ∈ fs.index) (named : Named fs father names)
    (rest : path.drop (path_size + 1) = name ++ pathString more)
    (inside : path_size + 1 ≤ path.length) (noSlash : slash ∉ name)
    (levels : names.length < env.fuel) :
    Exists fun found => Exists fun next => Mirrors env st next ∧ Populated env fs next ∧
      fs.walkDown env path (rounds + 1) father path_size =
        (if found = 0 then .ok (0, next)
        else if more = [] then .ok (found, next)
        else next.walkDown env path rounds found (path_size + 1 + name.length + 1)) ∧
      (found ≠ 0 -> found ∈ next.index ∧ names ≠ [] ∧ Named next found (names ++ [name])) ∧
      (found = 0 -> names ≠ [] -> env.below [] st (names ++ [name]) = none) := by
  obtain ⟨next, read, nextMirrors, stays, nextNamed, children⟩ :=
    mirrors.getChild_reads steady linked named (Nat.le_of_lt levels)
  have positive : 0 < env.fuel := Nat.lt_of_le_of_lt (Nat.zero_le _) levels
  obtain ⟨found, search, some, none⟩ :=
    walkTest_search nextMirrors steady apart stays.linked nextNamed rest positive
  refine ⟨found, next, nextMirrors, .step .refl linked read, ?_, some, fun missing below => ?_⟩
  · have size : ((path.drop (path_size + 1)).takeWhile fun byte => byte ≠ slash).length =
        name.length := by rw [rest, takeWhile_name noSlash]
    have hash : env.hashing.continueHashPartial
        (env.hashing.continueHash (fs.entries father).hash [slash]) (path.drop (path_size + 1))
        name.length = env.hashing.doHash (absolutePath names ++ slash ::
          HashFunction.partialString (path.drop (path_size + 1)) name.length) := by
      rw [mirrors.hash linked named, HashFunction.continueHash_doHash,
        HashFunction.continueHashPartial_doHash, List.append_assoc, List.singleton_append]
    have longer : name.length < (path.drop (path_size + 1)).length ↔ more ≠ [] := by
      rw [rest, List.length_append]
      cases more with
      | nil => simp [pathString]
      | cons other more => simp [pathString]
    rw [Fs.walkDown]
    simp only
    rw [if_neg (Nat.not_lt.mpr inside), read, size]
    simp only [bind, Except.bind, hash]
    by_cases childless : next.first father = 0
    · have nothing : found = 0 := by
        obtain ⟨fuel, more⟩ := Nat.exists_eq_add_of_le' positive
        rw [more, childless] at search
        exact (Except.ok.inj search).symm
      rw [if_pos childless, if_pos nothing]
    · rw [if_neg childless, search]
      simp only [longer]
      split
      · rfl
      · rw [ite_not]
  · cases inSource : env.below [] st (names ++ [name]) with
    | none => rfl
    | some here => exact absurd ((children name).mpr ⟨here, inSource⟩) (none missing below)

/-- A walk from a known entry finds what the source has below it at these names, the later
ones without their first letters; from the root it finds nothing. -/
theorem walkDown_finds (steady : env.Steady st) (apart : HashesApart env st path)
    {more : List Component} {father : Id} {name : Component} {path_size rounds : Nat}
    (mirrors : Mirrors env st fs) (linked : father ∈ fs.index) (named : Named fs father names)
    (rest : path.drop (path_size + 1) = name ++ pathString more)
    (inside : path_size + 1 ≤ path.length) (noSlash : slash ∉ name)
    (components : forall other, other ∈ more -> IsComponent other)
    (enough : more.length < rounds) (levels : names.length + more.length < env.fuel) :
    Exists fun result => Exists fun next =>
      fs.walkDown env path rounds father path_size = .ok (result, next) ∧
        Populated env fs next ∧ (names = [] -> result = 0) ∧
        (names ≠ [] -> Denotes env st next (names ++ name :: more.map List.tail) result) := by
  induction more generalizing fs father names name path_size rounds with
  | nil =>
      obtain ⟨rounds, rfl⟩ := Nat.exists_eq_add_of_le' (Nat.lt_of_le_of_lt (Nat.zero_le _) enough)
      obtain ⟨found, next, nextMirrors, populated, turn, some, none⟩ :=
        walkDown_turn steady apart rounds mirrors linked named rest inside noSlash levels
      rw [turn, if_pos rfl, List.map_nil]
      by_cases missing : found = 0
      · rw [if_pos missing]
        refine ⟨0, next, rfl, populated, fun _ => rfl, fun below => ⟨fun here there => ?_,
          fun _ => rfl⟩⟩
        have nothing := none missing below
        rw [there] at nothing
        cases nothing
      · obtain ⟨foundLinked, below, foundNamed⟩ := some missing
        rw [if_neg missing]
        refine ⟨found, next, rfl, populated, fun root => absurd root below, fun _ =>
          ⟨fun _ _ => ⟨foundLinked, foundNamed⟩, fun nothing => ?_⟩⟩
        have there := nextMirrors.there found _ foundLinked foundNamed
        rw [there] at nothing
        cases nothing
  | cons other more inductionHypothesis =>
      obtain ⟨rounds, rfl⟩ := Nat.exists_eq_add_of_le' (Nat.lt_of_le_of_lt (Nat.zero_le _) enough)
      rw [List.length_cons] at enough levels
      obtain ⟨found, next, nextMirrors, populated, turn, some, none⟩ :=
        walkDown_turn steady apart rounds mirrors linked named rest inside noSlash (by omega)
      rw [turn]
      by_cases missing : found = 0
      · rw [if_pos missing]
        refine ⟨0, next, rfl, populated, fun _ => rfl, fun below => ⟨fun here there => ?_,
          fun _ => rfl⟩⟩
        have nothing := below_none (none missing below) ((other :: more).map List.tail)
        rw [List.append_assoc, List.singleton_append, there] at nothing
        cases nothing
      · rw [if_neg missing, if_neg (List.cons_ne_nil _ _)]
        obtain ⟨foundLinked, below, foundNamed⟩ := some missing
        have component := components other List.mem_cons_self
        cases other with
        | nil => exact absurd rfl component.nonempty
        | cons letter letters =>
            have whole : name ++ pathString ((letter :: letters) :: more) =
                (name ++ [slash, letter]) ++ (letters ++ pathString more) := by
              simp [pathString]
            have onward : path.drop (path_size + 1 + name.length + 1 + 1) =
                letters ++ pathString more := by
              have offset : path_size + 1 + name.length + 1 + 1 =
                  path_size + 1 + (name.length + 2) := by omega
              rw [offset, ← List.drop_drop, rest, whole]
              exact List.drop_left' (by simp)
            have room : path_size + 1 + name.length + 1 + 1 ≤ path.length := by
              have lengths := congrArg List.length (rest.trans whole)
              simp only [List.length_drop, List.length_append, List.length_cons,
                List.length_nil] at lengths
              omega
            have fewer : more.length < rounds := by omega
            obtain ⟨result, last, walk, further, -, denotes⟩ :=
              inductionHypothesis nextMirrors foundLinked foundNamed onward room
                (fun member => component.noSlash (List.mem_cons_of_mem _ member))
                (fun later member => components later (List.mem_cons_of_mem _ member)) fewer
                (by rw [List.length_append, List.length_singleton]; omega)
            refine ⟨result, last, walk, populated.trans further, fun root => absurd root below,
              fun _ => ?_⟩
            have denoted := denotes (by simp)
            rw [List.append_assoc, List.singleton_append] at denoted
            exact denoted

/-! ## Lookups -/

/-- Every name of a path takes a byte. -/
theorem length_le_pathString (names : List Component) :
    names.length ≤ (pathString names).length := by
  induction names with
  | nil => exact Nat.le_refl _
  | cons name names inductionHypothesis =>
      rw [pathString, List.length_append, List.length_cons, List.length_cons]
      omega

/-- A path whose entry is not known is looked up from its longest known part on. -/
theorem findLocked_unknown (steady : env.Steady st)
    (apart : HashesApart env st (absolutePath names)) (mirrors : Mirrors env st fs)
    (components : forall name, name ∈ names -> IsComponent name) (unknown : ¬ Known fs names) :
    Exists fun known => Exists fun rest => Exists fun id => KnownUpTo fs names known rest ∧
      rest ≠ [] ∧ id ∈ fs.index ∧ Named fs id known ∧
      fs.findLocked env (absolutePath names) =
        if known.length < MAX_LEVELS then
          fs.walkDown env (absolutePath names) ((absolutePath names).length + 1) id
            (pathString known).length
        else .error .maximumLevel := by
  rcases List.eq_nil_or_concat names with rfl | ⟨front, last, split⟩
  · exact absurd ⟨rootId, mirrors.isTree.root, .root⟩ unknown
  · rw [List.concat_eq_append] at split
    subst split
    have lastComponent := components last (by simp)
    have above : forall name, name ∈ front -> IsComponent name := fun name member =>
      components name (List.mem_append_left _ member)
    have path : absolutePath (front ++ [last]) = pathString front ++ slash :: (last ++ []) := by
      rw [absolutePath, if_neg (by simp), pathString_concat, List.append_nil]
    have notSlash : absolutePath (front ++ [last]) ≠ [slash] :=
      (absolutePath_eq_slash components).not.mpr (by simp)
    have whole : fs.findHash (absolutePath (front ++ [last]))
        (env.hashing.doHash (absolutePath (front ++ [last])))
        (absolutePath (front ++ [last])).length = .ok 0 :=
      findHash_unknown mirrors steady apart (List.append_nil _).symm components unknown
    have length : (absolutePath (front ++ [last])).length =
        (pathString front).length + last.length + 1 := by
      rw [path, List.append_nil, List.length_append, List.length_cons, Nat.add_assoc]
    have ended : (absolutePath (front ++ [last])).getD
        ((pathString front).length + last.length + 1) 0 ≠ slash := by
      rw [List.getD_eq_default _ _ (Nat.le_of_eq length)]
      decide
    obtain ⟨known, rest, id, upTo, linked, named, lookup⟩ :=
      semiLookup_known mirrors steady apart path lastComponent.noSlash above
    refine ⟨known, rest ++ [last], id, ⟨?_, upTo.there, fun first more same => ?_⟩, by simp, linked,
      named, ?_⟩
    · rw [upTo.split, List.append_assoc]
    · cases rest with
      | nil =>
          obtain ⟨rfl, -⟩ := List.cons.inj same
          have own : front = known := upTo.split.trans (List.append_nil known)
          exact own ▸ unknown
      | cons second rest =>
          obtain ⟨rfl, -⟩ := List.cons.inj same
          exact upTo.longest second rest rfl
    · have semi : fs.semiLookup env (absolutePath (front ++ [last]))
          (absolutePath (front ++ [last])).length =
            if known.length < MAX_LEVELS then .ok (id, (pathString known).length)
            else .error .maximumLevel := by
        rw [length, Fs.semiLookup, if_pos ended]
        exact lookup
      unfold Fs.findLocked
      rw [if_neg notSlash, whole, semi]
      split
      · rfl
      · rfl

/-- What a lookup finds: the entry of the longest known part with what the walk finds below
it. -/
theorem findLocked_finds (steady : env.Steady st)
    (apart : HashesApart env st (absolutePath names)) (mirrors : Mirrors env st fs)
    (rootRead : (fs.entries rootId).child ≠ .unread)
    (components : forall name, name ∈ names -> IsComponent name)
    (levels : names.length < env.fuel) :
    Exists fun known => Exists fun rest => KnownUpTo fs names known rest ∧
      if known.length < MAX_LEVELS then Exists fun result => Exists fun next =>
        fs.findLocked env (absolutePath names) = .ok (result, next) ∧ Populated env fs next ∧
          Denotes env st next (known ++ lettersDropped rest) result
      else fs.findLocked env (absolutePath names) = .error .maximumLevel := by
  by_cases whole : Known fs names
  · obtain ⟨id, linked, named⟩ := whole
    have denotes : Denotes env st fs (names ++ lettersDropped []) id := by
      rw [lettersDropped, List.append_nil]
      refine ⟨fun _ _ => ⟨linked, named⟩, fun missing => ?_⟩
      rw [mirrors.there id names linked named] at missing
      cases missing
    refine ⟨names, [], ⟨(List.append_nil _).symm, ⟨id, linked, named⟩, fun name more impossible => ?_⟩, ?_⟩
    · cases impossible
    · by_cases isRoot : names = []
      · obtain rfl := named.root_of_nil isRoot
        subst isRoot
        exact ⟨rootId, fs, rfl, .refl, denotes⟩
      · have notSlash : absolutePath names ≠ [slash] :=
          (absolutePath_eq_slash components).not.mpr isRoot
        have hit := findHash_known mirrors steady apart (List.append_nil _).symm components isRoot
          linked named
        unfold Fs.findLocked
        rw [if_neg notSlash, hit]
        split
        · exact ⟨id, fs, if_pos (mirrors.isTree.ne_zero linked), .refl, denotes⟩
        · rfl
  · obtain ⟨known, rest, id, upTo, unknown, linked, named, lookup⟩ :=
      findLocked_unknown steady apart mirrors components whole
    refine ⟨known, rest, upTo, ?_⟩
    rw [lookup]
    split
    · next few =>
        cases rest with
        | nil => exact absurd rfl unknown
        | cons first more =>
            have firstComponent := components first (by simp [upTo.split])
            have later : forall other, other ∈ more -> IsComponent other := fun other member =>
              components other (by simp [upTo.split, member])
            have path : absolutePath names =
                (pathString known ++ [slash]) ++ (first ++ pathString more) := by
              rw [upTo.split, absolutePath, if_neg (by simp), pathString_append, pathString,
                List.append_assoc, List.singleton_append, List.cons_append]
            have onward : (absolutePath names).drop ((pathString known).length + 1) =
                first ++ pathString more := by
              rw [path]
              exact List.drop_left' (by simp)
            have inside : (pathString known).length + 1 ≤ (absolutePath names).length := by
              rw [path, List.length_append, List.length_append, List.length_singleton]
              omega
            have count : names.length = known.length + (more.length + 1) := by
              rw [upTo.split, List.length_append, List.length_cons]
            have rounds : more.length < (absolutePath names).length + 1 := by
              have bytes := length_le_pathString more
              simp only [path, List.length_append]
              omega
            obtain ⟨result, next, walk, populated, root, denotes⟩ :=
              walkDown_finds steady apart mirrors linked named onward inside firstComponent.noSlash
                later rounds (by omega)
            refine ⟨result, next, walk, populated, ?_⟩
            by_cases isRoot : known = []
            · subst isRoot
              -- The root has been read, so that what is not known is not in the source.
              have missing : env.below [] st [first] = none := by
                cases inSource : env.below [] st [first] with
                | none => rfl
                | some here =>
                    have hasName := mirrors.all rootId [] mirrors.isTree.root .root rootRead first
                      here inSource
                    exact absurd ((mirrors.hasName_iff mirrors.isTree.root .root).mp hasName)
                      (upTo.longest first more rfl)
              have nothing := below_none missing (more.map List.tail)
              refine ⟨fun here there => ?_, fun _ => root rfl⟩
              rw [List.nil_append, lettersDropped] at there
              rw [List.singleton_append, there] at nothing
              cases nothing
            · exact denotes isRoot
    · rfl

/-- Names of which at least two are looked for by a walk are not those it looks for. -/
theorem lettersDropped_ne {known rest : List Component}
    (components : forall name, name ∈ names -> IsComponent name) (split : names = known ++ rest)
    (long : 1 < rest.length) : names ≠ known ++ lettersDropped rest := by
  intro same
  have equal := List.append_cancel_left (split.symm.trans same)
  cases rest with
  | nil => exact absurd long (by decide)
  | cons first rest =>
      cases rest with
      | nil => exact absurd long (by simp)
      | cons second rest =>
          have component := components second (by simp [split])
          have tails := (List.cons.inj (List.cons.inj equal).2).1
          have lengths := congrArg List.length tails
          rw [List.length_tail] at lengths
          have letters := List.length_pos_iff.mpr component.nonempty
          omega

/-- A lookup returns the entry that the names denote in the source, or null if there is
none. -/
def LookupAgrees (env : Env Hash) (st : Stat) (fs : Fs Hash) (names : List Component) : Prop :=
  Exists fun result => Exists fun next =>
    fs.findLocked env (absolutePath names) = .ok (result, next) ∧ Denotes env st next names result

/-- The longest known part is not too deep, and at most one name is behind it, or nothing is
there, neither at these names nor at those that the walk looks for. -/
def WalksRight (env : Env Hash) (st : Stat) (fs : Fs Hash) (names : List Component) : Prop :=
  forall known rest, KnownUpTo fs names known rest -> known.length < MAX_LEVELS ∧
    (rest.length ≤ 1 ∨ env.below [] st names = none ∧
      env.below [] st (known ++ lettersDropped rest) = none)

/-- A lookup agrees with the source exactly when its walk has at most one name to look for, or
there is nothing to find. -/
theorem lookup_agrees_iff (env : Env Hash) (st : Stat) (steady : env.Steady st) (fs : Fs Hash)
    (populated : Populated env (Fs.format env st) fs)
    (rootRead : (fs.entries rootId).child ≠ .unread) (names : List Component)
    (components : forall name, name ∈ names -> IsComponent name)
    (apart : HashesApart env st (absolutePath names)) (levels : names.length < env.fuel) :
    LookupAgrees env st fs names ↔ WalksRight env st fs names := by
  have mirrors : Mirrors env st fs := mirrors_format.populated steady populated
  obtain ⟨known, rest, upTo, result⟩ :=
    findLocked_finds steady apart mirrors rootRead components levels
  constructor
  · rintro ⟨found, last, lookup, denotes⟩ other others upTo'
    obtain ⟨rfl, rfl⟩ := upTo.unique mirrors upTo'
    split at result
    · next few =>
        obtain ⟨found', next, lookup', further, walked⟩ := result
        obtain ⟨rfl, rfl⟩ := Prod.mk.inj (Except.ok.inj (lookup.symm.trans lookup'))
        have lastMirrors := mirrors.populated steady further
        refine ⟨few, or_iff_not_imp_left.mpr fun long => ?_⟩
        have different := lettersDropped_ne components upTo.split (Nat.lt_of_not_le long)
        cases there : env.below [] st names with
        | some here =>
            obtain ⟨linked, named⟩ := denotes.found here there
            cases walkedThere : env.below [] st (known ++ lettersDropped rest) with
            | some other =>
                obtain ⟨-, walkedNamed⟩ := walked.found other walkedThere
                exact absurd (lastMirrors.names_unique named walkedNamed) different
            | none =>
                exact absurd (walked.missing walkedThere) (lastMirrors.isTree.ne_zero linked)
        | none =>
            refine ⟨rfl, ?_⟩
            cases walkedThere : env.below [] st (known ++ lettersDropped rest) with
            | some other =>
                obtain ⟨walkedLinked, -⟩ := walked.found other walkedThere
                exact absurd (denotes.missing there) (lastMirrors.isTree.ne_zero walkedLinked)
            | none => rfl
    · rw [result] at lookup
      cases lookup
  · intro right
    obtain ⟨few, short | ⟨missing, dropped⟩⟩ := right known rest upTo
    · rw [if_pos few] at result
      obtain ⟨found, next, lookup, -, walked⟩ := result
      have same : known ++ lettersDropped rest = names := by
        rw [upTo.split]
        match rest, short with
        | [], _ => rfl
        | [name], _ => rfl
      exact ⟨found, next, lookup, same ▸ walked⟩
    · rw [if_pos few] at result
      obtain ⟨found, next, lookup, -, walked⟩ := result
      refine ⟨found, next, lookup, fun here there => ?_, fun _ => walked.missing dropped⟩
      rw [missing] at there
      cases there

omit [Inhabited Hash] [DecidableEq Hash] in
/-- In a finite source it is enough to compare the hashes of finitely many strings. -/
theorem hashesApart_of_all {all : List (List Component)} {path : Path}
    (inside : forall names here, env.below [] st names = some here -> names ∈ all)
    (parts : forall names, names ∈ all -> forall asked, asked ∈ path.inits ->
      env.hashing.doHash asked = env.hashing.doHash (absolutePath names) ->
        asked = absolutePath names)
    (children : forall names, names ∈ all -> forall above, above ∈ all ->
      forall rest, rest ∈ path.tails -> forall asked, asked ∈ rest.inits ->
        env.hashing.doHash (absolutePath above ++ slash :: asked) =
            env.hashing.doHash (absolutePath names) ->
          absolutePath above ++ slash :: asked = absolutePath names) :
    HashesApart env st path := by
  intro asked isAsked names here there
  cases isAsked with
  | part size =>
      exact parts names (inside names here there) _ ((List.mem_inits _ _).mpr (List.take_prefix _ _))
  | child place size aboveThere =>
      refine children names (inside names here there) _ (inside _ _ aboveThere) (path.drop place)
        ((List.mem_tails _ _).mpr (List.drop_suffix _ _)) _ ((List.mem_inits _ _).mpr ?_)
      unfold HashFunction.partialString
      split
      · exact List.take_prefix _ _
      · exact List.prefix_refl _

end Hash

/-! ## Two levels -/

/-- A source with the file `/d/e/ab`. -/
def deepSource : Env UInt32 :=
  { emptySource with
    source := fun _ names =>
      if names = [] then some [(ascii "d", directoryStat)]
      else if names = [ascii "d"] then some [(ascii "e", directoryStat)]
      else if names = [ascii "d", ascii "e"] then
        some [(ascii "ab", { Stat.zero with st_mode := S_IFREG })]
      else none }

/-- The names of that source. -/
def deepNames : List (List Component) :=
  [[], [ascii "d"], [ascii "d", ascii "e"], [ascii "d", ascii "e", ascii "ab"]]

/-- A directory with one entry. -/
theorem lookup_one {name last : Component} {st here : Stat}
    (listed : List.lookup last [(name, st)] = some here) : last = name ∧ here = st := by
  have one : ([(name, st)].map Prod.fst).Nodup := List.nodup_singleton _
  have pair := (lookup_eq_some_iff one).mp listed
  exact Prod.mk.inj (List.mem_singleton.mp pair)

theorem deepSource_below {names : List Component} {here : Stat}
    (there : deepSource.below [] directoryStat names = some here) :
    names ∈ deepNames ∧ (here.isDir = true -> names ≠ [ascii "d", ascii "e", ascii "ab"]) := by
  induction names using List.reverseRecOn generalizing here with
  | nil => exact ⟨by decide, fun _ => by decide⟩
  | append_singleton names last inductionHypothesis =>
      rw [Env.below_concat] at there
      obtain ⟨above, aboveThere, listed⟩ := Option.bind_eq_some_iff.mp there
      obtain ⟨member, directory⟩ := inductionHypothesis aboveThere
      split at listed
      · next isDir =>
          have notFile := directory isDir
          simp only [deepNames, List.mem_cons, List.not_mem_nil, or_false] at member
          have root : deepSource.listing [] = [(ascii "d", directoryStat)] := by decide
          have one : deepSource.listing [ascii "d"] = [(ascii "e", directoryStat)] := by decide
          have two : deepSource.listing [ascii "d", ascii "e"] =
              [(ascii "ab", { Stat.zero with st_mode := S_IFREG })] := by decide
          rcases member with rfl | rfl | rfl | rfl
          · obtain ⟨rfl, rfl⟩ := lookup_one (root ▸ listed)
            decide
          · obtain ⟨rfl, rfl⟩ := lookup_one (one ▸ listed)
            decide
          · obtain ⟨rfl, rfl⟩ := lookup_one (two ▸ listed)
            decide
          · exact absurd rfl notFile
      · cases listed

theorem deepSource_steady : deepSource.Steady directoryStat := by
  have answers : forall names des, deepSource.source 0 names = some des ->
      des = [(ascii "d", directoryStat)] ∨ des = [(ascii "e", directoryStat)] ∨
        des = [(ascii "ab", { Stat.zero with st_mode := S_IFREG })] := by
    intro names des answered
    simp only [deepSource] at answered
    split at answered
    · exact Or.inl (Option.some.inj answered).symm
    · split at answered
      · exact Or.inr (Or.inl (Option.some.inj answered).symm)
      · split at answered
        · exact Or.inr (Or.inr (Option.some.inj answered).symm)
        · cases answered
  refine ⟨fun _ _ => rfl, fun names here there directory => ?_, fun reads names des answered => ?_,
    fun names des answered => ?_, fun names des answered => ?_⟩
  · obtain ⟨member, notFile⟩ := deepSource_below there
    simp only [deepNames, List.mem_cons, List.not_mem_nil, or_false] at member
    rcases member with rfl | rfl | rfl | rfl
    · exact ⟨_, rfl⟩
    · exact ⟨_, rfl⟩
    · exact ⟨_, rfl⟩
    · exact absurd rfl (notFile directory)
  · rcases answers names des answered with rfl | rfl | rfl
    · decide
    · decide
    · decide
  · rcases answers names des answered with rfl | rfl | rfl
    · decide
    · decide
    · decide
  · rcases answers names des answered with rfl | rfl | rfl
    · decide
    · decide
    · decide

/-- The hashes of that source do not collide in lookups of its paths. -/
theorem deepSource_apart : forall names, names ∈ deepNames ->
    HashesApart deepSource directoryStat (absolutePath names) := by
  have parts : forall path, path ∈ deepNames -> forall names, names ∈ deepNames ->
      forall asked, asked ∈ (absolutePath path).inits ->
        deepSource.hashing.doHash asked = deepSource.hashing.doHash (absolutePath names) ->
          asked = absolutePath names := by decide +kernel
  have children : forall path, path ∈ deepNames -> forall names, names ∈ deepNames ->
      forall above, above ∈ deepNames -> forall rest, rest ∈ (absolutePath path).tails ->
        forall asked, asked ∈ rest.inits ->
          deepSource.hashing.doHash (absolutePath above ++ slash :: asked) =
              deepSource.hashing.doHash (absolutePath names) ->
            absolutePath above ++ slash :: asked = absolutePath names := by decide +kernel
  intro names member
  exact hashesApart_of_all (fun names here there => (deepSource_below there).1)
    (parts names member) (children names member)

/-- What that source gives when its root is read; the lookup of `/d/e/ab` finds nothing. -/
theorem deepSource_root : Exists fun fs =>
    Populated deepSource (Fs.format deepSource directoryStat) fs ∧
      (fs.entries rootId).child ≠ .unread ∧ Known fs [ascii "d"] ∧
      Exists fun next => fs.findLocked deepSource (ascii "/d/e/ab") = .ok (0, next) ∧ IsTree next := by
  have evaluated : (do
      let read ← (Fs.format deepSource directoryStat).getChild deepSource rootId
      let found ← read.2.findLocked deepSource (ascii "/d/e/ab")
      return ([read.2.father 2, found.1], read.2.index, (read.2.entries 2).d_name,
        decide ((read.2.entries rootId).child = .unread)) :
      Except Fault (List Id × List Id × Component × Bool)) =
      .ok ([rootId, 0], [rootId, 2], ascii "d", false) := by decide +kernel
  obtain ⟨⟨child, fs⟩, read, rest⟩ := bind_eq_ok.mp evaluated
  obtain ⟨⟨found, next⟩, lookup, rest⟩ := bind_eq_ok.mp rest
  simp only [pure, Except.pure, Except.ok.injEq, Prod.mk.injEq, List.cons.injEq, and_true,
    decide_eq_false_iff_not] at rest
  obtain ⟨⟨above, rfl⟩, index, named, known⟩ := rest
  have formatTree := (format_isTree deepSource directoryStat).1
  have populated : Populated deepSource (Fs.format deepSource directoryStat) fs :=
    .step .refl formatTree.root read
  have isTree := populated.isTree formatTree
  have whole : Named fs 2 ([] ++ [(fs.entries 2).d_name]) :=
    .child (by rw [above]; decide) (by rw [above]; exact .root)
  rw [named] at whole
  exact ⟨fs, populated, known, ⟨2, by rw [index]; decide, whole⟩, next, lookup,
    (findLocked_populated isTree lookup).1.isTree isTree⟩

/-- `/d/e` is looked up when only the root has been read. -/
theorem lookup_agrees_one_level : Exists fun fs =>
    Populated deepSource (Fs.format deepSource directoryStat) fs ∧
      LookupAgrees deepSource directoryStat fs [ascii "d", ascii "e"] := by
  obtain ⟨fs, populated, rootRead, known, -⟩ := deepSource_root
  refine ⟨fs, populated, (lookup_agrees_iff deepSource directoryStat deepSource_steady fs populated
    rootRead [ascii "d", ascii "e"] (by decide) (deepSource_apart _ (by decide)) (by decide)).mpr ?_⟩
  intro front rest upTo
  have lengths := congrArg List.length upTo.split
  rw [List.length_append] at lengths
  have few : front.length + rest.length = 2 := lengths.symm
  refine ⟨Nat.lt_of_le_of_lt (by omega : front.length ≤ 2) (by decide), Or.inl ?_⟩
  by_contra long
  have none : front = [] := List.length_eq_zero_iff.mp (by omega)
  subst none
  exact upTo.longest (ascii "d") [ascii "e"] upTo.split.symm known

/-- Nor is `/d/e/ab` found then, which is looked up as `/d/e/b`. -/
theorem lookup_misses_second_level : Exists fun fs =>
    deepSource.Steady directoryStat ∧
      Populated deepSource (Fs.format deepSource directoryStat) fs ∧
      (fs.entries rootId).child ≠ .unread ∧
      HashesApart deepSource directoryStat
        (absolutePath [ascii "d", ascii "e", ascii "ab"]) ∧
      ¬ LookupAgrees deepSource directoryStat fs [ascii "d", ascii "e", ascii "ab"] := by
  obtain ⟨fs, populated, rootRead, -, next, lookup, isTree⟩ := deepSource_root
  refine ⟨fs, deepSource_steady, populated, rootRead, deepSource_apart _ (by decide), ?_⟩
  rintro ⟨result, last, found, denotes⟩
  have path : absolutePath [ascii "d", ascii "e", ascii "ab"] = ascii "/d/e/ab" := by decide
  rw [path, lookup] at found
  obtain ⟨rfl, rfl⟩ := Prod.mk.inj (Except.ok.inj found)
  have there : (deepSource.below [] directoryStat [ascii "d", ascii "e", ascii "ab"]).isSome =
      true := by decide +kernel
  obtain ⟨here, inSource⟩ := Option.isSome_iff_exists.mp there
  exact isTree.ne_zero (denotes.found here inSource).1 rfl

end Metadata
end Mcachefs
