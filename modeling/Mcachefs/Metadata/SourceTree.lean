import Mcachefs.Metadata.CollisionCheck
import Mcachefs.Metadata.FillRuns

namespace Mcachefs
namespace Metadata

open Library

/-!
# The tree of the source

The metadata has read some directories of the source and not yet the others.
`below` says what is at a path of the source, whether or not its directories have
been read, and so it is the tree that the metadata has once they all are.
`Mirrors` says that what has been read agrees with it; reading one more directory
keeps this.
-/

variable {Hash : Type}

namespace Env

variable (env : Env Hash)

/-- The entries that reading a directory of the source gives. -/
def listing (dir : List Component) : List (Component × Stat) :=
  ((env.source 0 dir).getD []).filter fun de =>
    ¬ (de.1 = dot ∨ de.1 = dotdot) ∧ ¬ (dir = [] ∧ de.1 = vopsName)

/-- What is at a path below a place of the source. -/
def below (dir : List Component) (st : Stat) : List Component -> Option Stat
  | [] => some st
  | name :: names =>
      if st.isDir then
        ((env.listing dir).lookup name).bind fun st => below (dir ++ [name]) st names
      else none

/-- A source that does not change, whose directories can be read, and which no loop
finds too large; `st` are the attributes of its root. -/
structure Steady (st : Stat) : Prop where
  same : forall reads names, env.source reads names = env.source 0 names
  readable : forall names here, env.below [] st names = some here -> here.isDir = true ->
    Exists fun des => env.source 0 names = some des
  lists : env.ListsOnce
  components : forall names des, env.source 0 names = some des ->
    forall de, de ∈ des -> IsComponent de.1
  room : forall names des, env.source 0 names = some des -> des.length < env.fuel

variable {env} {st : Stat}

theorem below_append (dir first second : List Component) : env.below dir st (first ++ second) =
    (env.below dir st first).bind fun here => env.below (dir ++ first) here second := by
  induction first generalizing dir st with
  | nil => simp [below]
  | cons name first inductionHypothesis =>
      rw [List.cons_append, below, below]
      split
      · cases (env.listing dir).lookup name with
        | none => rfl
        | some here =>
            rw [Option.bind_some, Option.bind_some, inductionHypothesis, List.append_assoc]
            rfl
      · rfl

/-- One name below a place. -/
theorem below_concat (names : List Component) (name : Component) :
    env.below [] st (names ++ [name]) =
      (env.below [] st names).bind fun here =>
        if here.isDir then (env.listing names).lookup name else none := by
  rw [below_append]
  refine Option.bind_congr fun here _ => ?_
  rw [below, List.nil_append]
  refine if_congr Iff.rfl ?_ rfl
  cases (env.listing names).lookup name with
  | none => rfl
  | some other => rfl

end Env

/-- In a list of different keys a lookup finds every pair. -/
theorem lookup_eq_some_iff {list : List (Component × Stat)} (different : (list.map Prod.fst).Nodup)
    {name : Component} {st : Stat} : list.lookup name = some st ↔ (name, st) ∈ list := by
  induction list with
  | nil => simp
  | cons de list inductionHypothesis =>
      obtain ⟨other, value⟩ := de
      obtain ⟨notLater, rest⟩ := List.nodup_cons.mp different
      by_cases same : name = other
      · subst same
        rw [List.lookup_cons_self, List.mem_cons]
        constructor
        · intro here
          exact Or.inl (by rw [Option.some.inj here])
        · rintro (here | later)
          · rw [(Prod.mk.inj here).2]
          · exact absurd (List.mem_map_of_mem later) notLater
      · have apart : (name == other) = false := beq_eq_false_iff_ne.mpr same
        rw [List.lookup_cons, apart, List.mem_cons]
        simp only [Prod.mk.injEq, same, false_and, false_or]
        exact inductionHypothesis rest

section Listing

variable {env : Env Hash} {st : Stat} (steady : env.Steady st)
include steady

theorem Env.Steady.listing_nodup (dir : List Component) :
    ((env.listing dir).map Prod.fst).Nodup := by
  unfold Env.listing
  cases answered : env.source 0 dir with
  | none => exact List.nodup_nil
  | some des =>
      exact (steady.lists 0 dir des answered).1.sublist ((List.filter_sublist).map Prod.fst)

theorem Env.Steady.listing_length (dir : List Component) (some : env.source 0 dir ≠ none) :
    (env.listing dir).length < env.fuel := by
  obtain ⟨des, answered⟩ := Option.ne_none_iff_exists'.mp some
  unfold Env.listing
  rw [answered]
  exact (List.length_filter_le _ _).trans_lt (steady.room dir des answered)

/-- Reading a directory enters its listing. -/
theorem Env.Steady.entered_eq {reads : Nat} {names : List Component} {father : Id}
    {des : List (Component × Stat)} (answered : env.source reads names = some des)
    (isRoot : father = rootId ↔ names = []) : entered father des = env.listing names := by
  obtain ⟨-, short⟩ := steady.lists reads names des answered
  rw [steady.same] at answered
  unfold Env.listing entered
  rw [answered, Option.getD_some]
  simp only [isRoot]
  refine (List.map_congr_left fun de member => ?_).trans (List.map_id _)
  have long := short de (List.mem_of_mem_filter member)
  rw [List.take_of_length_le (long.trans (Nat.le_succ NAME_MAX))]
  rfl

end Listing

/-! ## What has been read -/

/-- The entries are a tree of hashed paths; what is there is what the source has, and a
directory that has been read has all of it. -/
structure Mirrors [Inhabited Hash] (env : Env Hash) (st : Stat) (fs : Fs Hash) : Prop where
  isTree : IsTree fs
  hashes : Hashes env fs
  noTwins : NoTwins fs
  there : forall id names, id ∈ fs.index -> Named fs id names ->
    env.below [] st names = some (fs.entries id).st
  all : forall father names, father ∈ fs.index -> Named fs father names ->
    (fs.entries father).child ≠ .unread -> forall name here,
      env.below [] st (names ++ [name]) = some here -> HasName fs father name

/-- An entry below the root has the names of its father and its own. -/
theorem Named.concat_inv {fs : Fs Hash} {id : Id} {names : List Component} {name : Component}
    (named : Named fs id (names ++ [name])) :
    fs.father id ≠ 0 ∧ Named fs (fs.father id) names ∧ (fs.entries id).d_name = name := by
  generalize whole : names ++ [name] = own at named
  cases named with
  | root => exact absurd whole (by simp)
  | child some above =>
      obtain ⟨rfl, last⟩ := List.append_inj' whole rfl
      exact ⟨some, above, (List.cons.inj last).1.symm⟩

section Mirrors

variable [Inhabited Hash] {env : Env Hash} {st : Stat} {fs next : Fs Hash} {father id : Id}
  {names : List Component} {name : Component}

namespace Mirrors

theorem rootFather (mirrors : Mirrors env st fs) : fs.father rootId = 0 :=
  (mirrors.isTree.father_eq_zero mirrors.isTree.root).mpr rfl

theorem names_unique (mirrors : Mirrors env st fs) {other : List Component}
    (one : Named fs id names) (two : Named fs id other) : names = other :=
  one.unique mirrors.rootFather two

/-- The names of an entry tell which one it is. -/
theorem id_unique (mirrors : Mirrors env st fs) {other : Id} (linked : id ∈ fs.index)
    (otherLinked : other ∈ fs.index) (one : Named fs id names) (two : Named fs other names) :
    id = other := by
  have noTwins := mirrors.isTree.noTwins_iff.mp mirrors.noTwins
  induction one generalizing other with
  | root => exact (two.root_of_nil rfl).symm
  | @child id names present _ inductionHypothesis =>
      obtain ⟨otherPresent, otherAbove, sameName⟩ := two.concat_inv
      have below : id ≠ rootId := fun isRoot => present (isRoot ▸ mirrors.rootFather)
      have otherBelow : other ≠ rootId := fun isRoot => otherPresent (isRoot ▸ mirrors.rootFather)
      have fathers := inductionHypothesis (mirrors.isTree.father linked below)
        (mirrors.isTree.father otherLinked otherBelow) otherAbove
      exact noTwins id other linked otherLinked below otherBelow fathers sameName.symm

theorem named (mirrors : Mirrors env st fs) (linked : id ∈ fs.index) :
    Exists fun names => Named fs id names ∧ (id = rootId ↔ names = []) ∧
      (fs.entries id).hash = env.hashing.doHash (absolutePath names) :=
  mirrors.hashes.named mirrors.isTree linked

theorem hash (mirrors : Mirrors env st fs) (linked : id ∈ fs.index) (named : Named fs id names) :
    (fs.entries id).hash = env.hashing.doHash (absolutePath names) := by
  obtain ⟨own, ownNamed, -, hash⟩ := mirrors.named linked
  rw [mirrors.names_unique named ownNamed]
  exact hash

/-- A child of a name is an entry of the names up to it. -/
theorem hasName_iff (mirrors : Mirrors env st fs) (linked : father ∈ fs.index)
    (named : Named fs father names) : HasName fs father name ↔
      Exists fun id => id ∈ fs.index ∧ Named fs id (names ++ [name]) := by
  rw [mirrors.isTree.hasName_iff]
  constructor
  · rintro ⟨id, childLinked, below, above, rfl⟩
    refine ⟨id, childLinked, .child ?_ (above.symm ▸ named)⟩
    exact above.symm ▸ mirrors.isTree.ne_zero linked
  · rintro ⟨id, childLinked, childNamed⟩
    obtain ⟨present, above, sameName⟩ := childNamed.concat_inv
    have below : id ≠ rootId := fun isRoot => present (isRoot ▸ mirrors.rootFather)
    have fatherLinked := mirrors.isTree.father childLinked below
    exact ⟨id, childLinked, below, mirrors.id_unique fatherLinked linked above named, sameName⟩

/-- What the source has below an entry that is there. -/
theorem below_child (mirrors : Mirrors env st fs) (linked : father ∈ fs.index)
    (named : Named fs father names) : env.below [] st (names ++ [name]) =
      if (fs.entries father).st.isDir then (env.listing names).lookup name else none := by
  rw [Env.below_concat, mirrors.there father names linked named, Option.bind_some]

end Mirrors

/-- A new metadata file has the root. -/
theorem mirrors_format : Mirrors env st (Fs.format env st) := by
  have isTree := (format_isTree env st).1
  have onlyRoot : forall id, id ∈ (Fs.format env st).index -> id = rootId := fun id linked =>
    List.mem_singleton.mp linked
  have rootFather : (Fs.format env st).father rootId = 0 :=
    (isTree.father_eq_zero isTree.root).mpr rfl
  refine ⟨isTree, format_hashes env st, ?_, fun id names linked named => ?_,
    fun father names linked named known => ?_⟩
  · rw [isTree.noTwins_iff]
    exact fun one _ oneLinked _ oneBelow => absurd (onlyRoot one oneLinked) oneBelow
  · obtain rfl := onlyRoot id linked
    obtain rfl := named.unique rootFather .root
    rw [Shape.format_root]
    rfl
  · rw [onlyRoot father linked, Shape.format_root] at known
    exact absurd rfl known

variable [DecidableEq Hash]

omit [DecidableEq Hash] in
/-- Names stay when directories are read. -/
theorem HasName.populated (hasName : HasName fs father name) (isTree : IsTree fs)
    (populated : Populated env fs next) : HasName next father name := by
  obtain ⟨child, linked, below, above, rfl⟩ := isTree.hasName_iff.mp hasName
  have stays := populated.stays isTree linked
  have link : next.father child = fs.father child := stays.alike.father
  exact (populated.isTree isTree).hasName_iff.mpr
    ⟨child, stays.linked, below, link.trans above, stays.alike.d_name⟩

namespace Mirrors

omit [DecidableEq Hash] in
/-- An entry keeps its names when a directory is read. -/
theorem named_old (mirrors : Mirrors env st fs) (linked : id ∈ fs.index)
    (populated : Populated env fs next) (named : Named next id names) : Named fs id names := by
  obtain ⟨own, ownNamed, -⟩ := mirrors.named linked
  have rootFather : next.father rootId = 0 := by
    have nextTree := populated.isTree mirrors.isTree
    exact (nextTree.father_eq_zero nextTree.root).mpr rfl
  rw [named.unique rootFather (ownNamed.populated mirrors.isTree linked populated)]
  exact ownNamed

omit [DecidableEq Hash] in
/-- Reading one more directory. -/
theorem getChild {child : Id} (mirrors : Mirrors env st fs) (steady : env.Steady st)
    (linked : father ∈ fs.index) (read : fs.getChild env father = .ok (child, next)) :
    Mirrors env st next := by
  have nextTree := getChild_isTree mirrors.isTree linked read
  have populated : Populated env fs next := .step .refl linked read
  obtain ⟨names, named, isRoot, -⟩ := mirrors.named linked
  have old : forall id own, id ∈ fs.index -> Named next id own ->
      env.below [] st own = some (next.entries id).st := by
    intro id own idLinked idNamed
    rw [(populated.stays mirrors.isTree idLinked).alike.st]
    exact mirrors.there id own idLinked (mirrors.named_old idLinked populated idNamed)
  have kept : forall other own, other ∈ fs.index -> Named next other own ->
      (fs.entries other).child ≠ .unread -> forall name here,
        env.below [] st (own ++ [name]) = some here -> HasName next other name := by
    intro other own otherLinked otherNamed known name here inSource
    have ownNamed := mirrors.named_old otherLinked populated otherNamed
    exact (mirrors.all other own otherLinked ownNamed known name here inSource).populated
      mirrors.isTree populated
  have twins := mirrors.noTwins.getChild mirrors.isTree steady.lists linked read
  have hashed := mirrors.hashes.getChild mirrors.isTree linked read
  obtain ⟨kids, free, tree⟩ := mirrors.isTree
  have isNode := tree.mem_index.mp linked
  obtain ⟨-, same | ⟨-, directory, -, way, top, des, climbed, answered, rest, new, grown⟩⟩ :=
    tree.getChild isNode read
  · have entries : next.entries = fs.entries := by rw [same]
    have index : next.index = fs.index := by rw [same]
    refine ⟨nextTree, hashed, twins, fun id own idLinked => old id own (index ▸ idLinked),
      fun other own otherLinked otherNamed known => ?_⟩
    exact kept other own (index ▸ otherLinked) otherNamed (entries ▸ known)
  · obtain rfl : way = names := by
      rw [named.climb mirrors.rootFather] at climbed
      split at climbed
      · exact (Prod.mk.inj (Option.some.inj climbed)).1.symm
      · cases climbed
    have listed : forall id, id ∈ new ->
        ((next.entries id).d_name, (next.entries id).st) ∈ env.listing way := by
      intro id fresh
      have member := List.mem_map_of_mem (f := fun id =>
        ((next.entries id).d_name, (next.entries id).st)) fresh
      rw [grown.names, List.mem_reverse, steady.entered_eq answered isRoot] at member
      exact member
    have made : forall id, id ∈ new -> next.father id = father := by
      intro id fresh
      obtain ⟨link, entry⟩ := grown.entries id fresh
      rw [Fs.father, entry]
    refine ⟨nextTree, hashed, twins, fun id own idLinked idNamed => ?_,
      fun other own otherLinked otherNamed known name here inSource => ?_⟩
    · rcases (grown.nodes id).mp (grown.tree.mem_index.mp idLinked) with oldNode | fresh
      · exact old id own (tree.mem_index.mpr oldNode) idNamed
      · cases idNamed with
        | root => exact absurd tree.shape.root (grown.fresh rootId fresh)
        | child some above =>
            rw [made id fresh] at above
            rw [mirrors.names_unique (mirrors.named_old linked populated above) named,
              mirrors.below_child linked named, if_pos directory,
              lookup_eq_some_iff (steady.listing_nodup _)]
            exact listed id fresh
    · rcases (grown.nodes other).mp (grown.tree.mem_index.mp otherLinked) with oldNode | fresh
      · have otherOld := tree.mem_index.mpr oldNode
        by_cases isFather : other = father
        · subst isFather
          obtain rfl := mirrors.names_unique (mirrors.named_old linked populated otherNamed) named
          rw [mirrors.below_child linked named, if_pos directory,
            lookup_eq_some_iff (steady.listing_nodup _), ← steady.entered_eq answered isRoot,
            ← List.mem_reverse, ← grown.names] at inSource
          obtain ⟨id, fresh, both⟩ := List.mem_map.mp inSource
          have below : id ≠ rootId := fun isRoot =>
            grown.fresh id fresh (isRoot ▸ tree.shape.root)
          exact nextTree.hasName_iff.mpr ⟨id,
            grown.tree.mem_index.mpr ((grown.nodes id).mpr (Or.inr fresh)), below, made id fresh,
            (Prod.mk.inj both).1⟩
        · refine kept other own otherOld otherNamed ?_ name here inSource
          rw [← grown.kept other oldNode isFather]
          exact known
      · obtain ⟨link, entry⟩ := grown.entries other fresh
        rw [entry] at known
        exact absurd rfl known

omit [DecidableEq Hash] in
theorem populated (mirrors : Mirrors env st fs) (steady : env.Steady st)
    (populated : Populated env fs next) : Mirrors env st next :=
  populated.keeps (fun _ _ _ _ holds => holds.getChild steady) mirrors

omit [DecidableEq Hash] in
/-- Only what the source has is there. -/
theorem hasName_source (mirrors : Mirrors env st fs) (linked : father ∈ fs.index)
    (named : Named fs father names) (hasName : HasName fs father name) :
    Exists fun here => env.below [] st (names ++ [name]) = some here := by
  obtain ⟨id, idLinked, idNamed⟩ := (mirrors.hasName_iff linked named).mp hasName
  exact ⟨_, mirrors.there id _ idLinked idNamed⟩

omit [DecidableEq Hash] in
/-- Reading the children of an entry ends, and then they are those that the source has. -/
theorem getChild_reads (mirrors : Mirrors env st fs) (steady : env.Steady st)
    (linked : father ∈ fs.index) (named : Named fs father names)
    (levels : names.length ≤ env.fuel) :
    Exists fun next => fs.getChild env father = .ok (next.first father, next) ∧
      Mirrors env st next ∧ Stays fs next father ∧ Named next father names ∧
      forall name, HasName next father name ↔
        Exists fun here => env.below [] st (names ++ [name]) = some here := by
  obtain ⟨child, next, read⟩ : Exists fun child => Exists fun next =>
      fs.getChild env father = .ok (child, next) := by
    unfold Fs.getChild
    split
    · exact ⟨_, _, rfl⟩
    · exact ⟨_, _, rfl⟩
    · split
      · exact ⟨_, _, rfl⟩
      · unfold Fs.recurseOpen
        rw [named.climb mirrors.rootFather, if_pos levels]
        cases answered : env.source fs.reads names with
        | none => exact ⟨_, _, by simp only [answered]; rfl⟩
        | some des => exact ⟨_, _, by simp only [answered]; rfl⟩
  have populated : Populated env fs next := .step .refl linked read
  have nextMirrors := mirrors.getChild steady linked read
  have stays := populated.stays mirrors.isTree linked
  have nextNamed := named.populated mirrors.isTree linked populated
  have first : child = next.first father := by
    obtain ⟨kids, free, tree⟩ := mirrors.isTree
    exact (tree.getChild (tree.mem_index.mp linked) read).1
  subst first
  refine ⟨next, read, nextMirrors, stays, nextNamed, fun name =>
    ⟨nextMirrors.hasName_source stays.linked nextNamed, ?_⟩⟩
  rintro ⟨here, inSource⟩
  have directory : (fs.entries father).st.isDir = true := by
    rw [mirrors.below_child linked named] at inSource
    split at inSource
    · next isDir => exact isDir
    · cases inSource
  refine nextMirrors.all father names stays.linked nextNamed ?_ name here inSource
  refine getChild_answered directory (fun way top climbed => ?_) read
  rw [named.climb mirrors.rootFather, if_pos levels] at climbed
  obtain ⟨rfl, rfl⟩ := Prod.mk.inj (Option.some.inj climbed)
  rw [steady.same]
  exact steady.readable names _ (mirrors.there father names linked named) directory

omit [DecidableEq Hash] in
/-- A directory has no more children than the source lists. -/
theorem kids_length {kids : Id -> List Id} {free : List Id} (mirrors : Mirrors env st fs)
    (steady : env.Steady st) (tree : Tree fs kids free) (linked : father ∈ fs.index)
    (positive : 0 < env.fuel) : (kids father).length < env.fuel := by
  obtain ⟨names, named, -⟩ := mirrors.named linked
  have isNode := tree.mem_index.mp linked
  have child : forall id, id ∈ kids father -> id ∈ fs.index ∧ id ≠ rootId ∧
      fs.father id = father := by
    intro id member
    obtain ⟨childNode, below, above⟩ := tree.child isNode member
    exact ⟨tree.mem_index.mpr childNode, below, above⟩
  have listed : forall id, id ∈ kids father -> (fs.entries father).st.isDir = true ∧
      (fs.entries id).d_name ∈ (env.listing names).map Prod.fst := by
    intro id member
    obtain ⟨idLinked, below, above⟩ := child id member
    have hasName : HasName fs father (fs.entries id).d_name :=
      mirrors.isTree.hasName_iff.mpr ⟨id, idLinked, below, above, rfl⟩
    obtain ⟨here, inSource⟩ := mirrors.hasName_source linked named hasName
    rw [mirrors.below_child linked named] at inSource
    split at inSource
    · next isDir =>
        have pair := (lookup_eq_some_iff (steady.listing_nodup names)).mp inSource
        exact ⟨isDir, List.mem_map_of_mem (f := Prod.fst) pair⟩
    · cases inSource
  cases many : kids father with
  | nil => exact positive
  | cons id rest =>
      rw [← many]
      have directory := (listed id (many ▸ List.mem_cons_self)).1
      obtain ⟨des, answered⟩ := steady.readable names _
        (mirrors.there father names linked named) directory
      have different : ((kids father).map fun id => (fs.entries id).d_name).Nodup := by
        refine (tree.shape.forest.list father isNode).nodup.map_on fun one oneKid two twoKid same => ?_
        obtain ⟨oneLinked, oneBelow, oneAbove⟩ := child one oneKid
        obtain ⟨twoLinked, twoBelow, twoAbove⟩ := child two twoKid
        exact mirrors.isTree.noTwins_iff.mp mirrors.noTwins one two oneLinked twoLinked oneBelow
          twoBelow (oneAbove.trans twoAbove.symm) same
      have inside : ((kids father).map fun id => (fs.entries id).d_name) ⊆
          (env.listing names).map Prod.fst := by
        intro own member
        obtain ⟨kid, kidMember, rfl⟩ := List.mem_map.mp member
        exact (listed kid kidMember).2
      have most := (different.subperm inside).length_le
      rw [List.length_map, List.length_map] at most
      exact most.trans_lt (steady.listing_length names (by rw [answered]; simp))

end Mirrors

end Mirrors

end Metadata
end Mcachefs
