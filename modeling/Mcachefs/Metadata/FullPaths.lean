import Mcachefs.Metadata.Fetching
import Mcachefs.Metadata.HashRekey
import Mcachefs.Metadata.Partition

namespace Mcachefs
namespace Metadata

open Library

/-!
# Hashes of full paths

The hash of an entry is computed from that of its father when it gets its name,
and is the hash of its full path as long as the hash of the father is.  A rename
of an entry changes the path of everything below it, and so the loop of
`mcachefs_metadata_rehash_children` has to visit all of that, fathers before
children.  It does not go down into what is not a directory.
-/

variable {Hash : Type}

/-- The names on the way from the root to an entry. -/
inductive Named (fs : Fs Hash) : Id -> List Component -> Prop
  | root : Named fs rootId []
  | child {id : Id} {names : List Component} (some : fs.father id ≠ 0)
      (above : Named fs (fs.father id) names) : Named fs id (names ++ [(fs.entries id).d_name])

/-- The hash of every entry of the tree is that of the path that
`mcachefs_metadata_get_path` tells, which has a limit of levels. -/
structure HashedByPath (env : Env Hash) (fs : Fs Hash) : Prop where
  root : (fs.entries rootId).hash = env.hashing.doHash [slash]
  below : forall id, Forest.Reaches fs.first fs.next rootId id -> id ≠ rootId ->
    Exists fun names => Named fs id names ∧
      (fs.entries id).hash = env.hashing.doHash (pathString names) ∧
      fs.getPath id = if names.length ≤ MAX_LEVELS then .ok (pathString names)
        else .error .tooManyLevels

/-- The hash is the one that `mcachefs_metadata_build_hash` computes. -/
def Hashed (env : Env Hash) (fs : Fs Hash) (id : Id) : Prop :=
  (fs.entries id).hash = childHash env (fs.entries (fs.father id)) (fs.entries id).d_name

/-- The root has its name and hash, and every other entry is hashed below its
father. -/
structure Hashes (env : Env Hash) (fs : Fs Hash) : Prop where
  rootHash : (fs.entries rootId).hash = env.hashing.doHash [slash]
  rootName : (fs.entries rootId).d_name = [slash]
  below : forall id, id ∈ fs.index -> id ≠ rootId -> Hashed env fs id

variable {env : Env Hash} {fs next : Fs Hash} {id : Id} {names : List Component}

/-! ## Full paths -/

theorem Named.climb (named : Named fs id names) (rootFather : fs.father rootId = 0)
    (levels : Nat) :
    fs.climb levels id = if names.length ≤ levels then some (names, rootId) else none := by
  induction named generalizing levels with
  | root =>
      unfold Fs.climb
      rw [rootFather, if_pos rfl]
      rfl
  | @child id names present _ inductionHypothesis =>
      unfold Fs.climb
      rw [if_neg present]
      cases levels with
      | zero => simp
      | succ levels =>
          change (fs.climb levels (fs.father id)).map _ = _
          rw [inductionHypothesis levels]
          simp only [List.length_append, List.length_singleton, Nat.add_le_add_iff_right]
          split <;> rfl

theorem Named.getPath (named : Named fs id names) (rootFather : fs.father rootId = 0)
    (rootName : (fs.entries rootId).d_name = [slash]) :
    fs.getPath id = if names.length ≤ MAX_LEVELS then .ok (pathString names)
      else .error .tooManyLevels := by
  unfold Fs.getPath
  rw [named.climb rootFather]
  by_cases short : names.length ≤ MAX_LEVELS
  · rw [if_pos short, if_pos short]
    exact if_pos rootName
  · rw [if_neg short, if_neg short]

/-- Hashing below the root and below another entry. -/
theorem childHash_absolutePath {above : Entry Hash} {name : Component}
    (hash : above.hash = env.hashing.doHash (absolutePath names))
    (isRoot : above.father = 0 ↔ names = []) :
    childHash env above name = env.hashing.doHash (pathString (names ++ [name])) := by
  rw [childHash, hash, pathString_concat]
  by_cases none : names = []
  · rw [if_neg (not_not.mpr (isRoot.mpr none)), HashFunction.continueHash_doHash, none]
    rfl
  · rw [if_pos (isRoot.not.mpr none), HashFunction.continueHash_doHash,
      HashFunction.continueHash_doHash, absolutePath, if_neg none, List.append_assoc,
      List.singleton_append]

variable [Inhabited Hash]

theorem Hashes.named (hashes : Hashes env fs) (isTree : IsTree fs) (linked : id ∈ fs.index) :
    Exists fun names => Named fs id names ∧ (id = rootId ↔ names = []) ∧
      (fs.entries id).hash = env.hashing.doHash (absolutePath names) := by
  have whole := isTree
  obtain ⟨kids, free, tree⟩ := whole
  have climbs := tree.shape.forest.climbs_root (fun id _ => top_none)
    (tree.mem_index.mp linked)
  induction climbs with
  | here => exact ⟨[], .root, by simp, hashes.rootHash⟩
  | @up id present _ inductionHypothesis =>
      have notRoot : id ≠ rootId := fun isRoot => present (isRoot ▸ tree.shape.rootFather)
      have fatherLinked := isTree.father linked notRoot
      obtain ⟨names, named, isRoot, hash⟩ := inductionHypothesis fatherLinked
      refine ⟨names ++ [(fs.entries id).d_name], .child present named, by simp [notRoot], ?_⟩
      have above : (fs.entries (fs.father id)).father = 0 ↔ names = [] :=
        (isTree.father_eq_zero fatherLinked).trans isRoot
      rw [hashes.below id linked notRoot, childHash_absolutePath hash above, absolutePath,
        if_neg (by simp)]

theorem Hashes.byPath (hashes : Hashes env fs) (isTree : IsTree fs) : HashedByPath env fs := by
  refine ⟨hashes.rootHash, fun id reached notRoot => ?_⟩
  have whole := isTree
  obtain ⟨kids, free, tree⟩ := whole
  have isNode := (tree.shape.forest.reaches_iff tree.shape.root
    (fun id _ => top_none) tree.shape.rootNext id).mp reached
  obtain ⟨names, named, isRoot, hash⟩ := hashes.named isTree (tree.mem_index.mpr isNode)
  refine ⟨names, named, ?_, named.getPath tree.shape.rootFather hashes.rootName⟩
  rw [hash, absolutePath, if_neg (isRoot.not.mp notRoot)]

/-! ## Changes that keep the hashes -/

omit [Inhabited Hash] in
theorem childHash_congr {one two : Entry Hash} (hash : one.hash = two.hash)
    (father : one.father = two.father) (name : Component) :
    childHash env one name = childHash env two name := by
  rw [childHash, childHash, hash, father]

omit [Inhabited Hash] in
/-- Only the place of the entry and of its father matter. -/
theorem Hashed.congr (hashed : Hashed env fs id)
    (hash : (next.entries id).hash = (fs.entries id).hash)
    (d_name : (next.entries id).d_name = (fs.entries id).d_name)
    (father : next.father id = fs.father id)
    (aboveHash : (next.entries (fs.father id)).hash = (fs.entries (fs.father id)).hash)
    (aboveFather : next.father (fs.father id) = fs.father (fs.father id)) : Hashed env next id := by
  rw [Hashed, hash, d_name, father, childHash_congr aboveHash aboveFather]
  exact hashed

theorem Hashes.shrinks (hashes : Hashes env fs) (shrinks : Shrinks fs next)
    (isTree : IsTree next) : Hashes env next := by
  have root := (shrinks rootId isTree.root).2
  refine ⟨root.hash.trans hashes.rootHash, root.d_name.trans hashes.rootName,
    fun id linked notRoot => ?_⟩
  obtain ⟨old, placed⟩ := shrinks id linked
  obtain ⟨-, above⟩ := shrinks _ (isTree.father linked notRoot)
  have link : next.father id = fs.father id := placed.father
  rw [link] at above
  exact (hashes.below id old notRoot).congr placed.hash placed.d_name link above.hash above.father

theorem Hashes.added {kids : Id -> List Id} {free rest : List Id} {father : Id}
    {name : Component} {st : Stat} {child : Child} (hashes : Hashes env fs)
    (tree : Tree fs kids free) (isNode : Node fs free father)
    (added : Added env fs kids free father id name st child next rest) : Hashes env next := by
  have alike : forall other, Node fs free other ->
      (next.entries other).Placed (fs.entries other) := by
    intro other old
    by_cases same : other = father
    · subst same
      rw [added.above]
      exact ⟨rfl, rfl, rfl, rfl, rfl⟩
    · rw [added.kept other old same]
      exact ⟨rfl, rfl, rfl, rfl, rfl⟩
  have root := alike rootId tree.shape.root
  refine ⟨root.hash.trans hashes.rootHash, root.d_name.trans hashes.rootName,
    fun other linked notRoot => ?_⟩
  rcases (added.nodes other).mp (added.tree.mem_index.mp linked) with old | rfl
  · have above := alike _ (tree.listed old notRoot).1
    have placed := alike other old
    exact (hashes.below other (tree.mem_index.mpr old) notRoot).congr placed.hash placed.d_name
      placed.father above.hash above.father
  · have above := alike father isNode
    have link : next.father other = father := by rw [Fs.father, added.entry]
    rw [Hashed, link, added.entry]
    exact (childHash_congr above.hash above.father name).symm

section Changes

variable [DecidableEq Hash]

omit [DecidableEq Hash] in
theorem Hashes.getChild {father child : Id} (hashes : Hashes env fs) (isTree : IsTree fs)
    (linked : father ∈ fs.index) (read : fs.getChild env father = .ok (child, next)) :
    Hashes env next := by
  have stays : forall id, id ∈ fs.index -> Stays fs next id := fun _ old =>
    getChild_stays isTree linked read old
  obtain ⟨kids, free, tree⟩ := isTree
  have isNode := tree.mem_index.mp linked
  have rootLinked := tree.mem_index.mpr tree.shape.root
  have kept : forall other, other ∈ fs.index -> other ≠ rootId -> Hashed env next other := by
    intro other old notRoot
    have alike := (stays other old).alike
    have above := (stays _ (tree.mem_index.mpr (tree.listed (tree.mem_index.mp old) notRoot).1)).alike
    exact (hashes.below other old notRoot).congr alike.hash alike.d_name alike.father above.hash
      above.father
  refine ⟨(stays rootId rootLinked).alike.hash.trans hashes.rootHash,
    (stays rootId rootLinked).alike.d_name.trans hashes.rootName, fun other there notRoot => ?_⟩
  obtain ⟨-, same | ⟨-, -, -, _, _, _, -, -, rest, new, grown⟩⟩ := tree.getChild isNode read
  · exact kept other (by rw [same] at there; exact there) notRoot
  · rcases (grown.nodes other).mp (grown.tree.mem_index.mp there) with old | fresh
    · exact kept other (tree.mem_index.mpr old) notRoot
    · obtain ⟨link, entry⟩ := grown.entries other fresh
      have father : next.father other = father := by rw [Fs.father, entry]
      have above := (stays _ linked).alike
      rw [Hashed, father, childHash_congr above.hash above.father, entry]

omit [DecidableEq Hash] in
theorem Changed.hashes (changed : Changed env fs next) (isTree : IsTree fs)
    (hashes : Hashes env fs) : Hashes env next := by
  induction changed with
  | refl => exact hashes
  | read before linked result inductionHypothesis =>
      exact inductionHypothesis.getChild (before.isTree isTree) linked result
  | added _ tree isNode result inductionHypothesis =>
      exact inductionHypothesis.added tree isNode result
  | removed _ isTree result inductionHypothesis => exact inductionHypothesis.shrinks result isTree

end Changes

/-! ## The walk that hashes again -/

/-- The cursor of the walk is a linked entry below `mdata` with its father. -/
structure WalksBelow (mdata : Id) (fs : Fs Hash) (cursor : Id × Id) : Prop where
  linked : cursor.1 ∈ fs.index
  above : cursor.2 = fs.father cursor.1
  below : Climbs fs.father mdata cursor.1
  apart : cursor.1 ≠ mdata

/-- The walk has done what it does with an entry, or has still to visit it. -/
def Rehashing (done : Fs Hash -> Id -> Prop) (mdata : Id) (kids : Id -> List Id) (fs : Fs Hash)
    (cursor : Id × Id) : Prop :=
  WalksBelow mdata fs cursor ∧ forall id, id ∈ fs.index -> id ≠ rootId ->
    done fs id ∨ Pending fs.father kids mdata cursor.1 id

/-- One turn does what is to be done with the entry at the cursor, and undoes it
at its children only. -/
def TurnDoes (env : Env Hash) [DecidableEq Hash] (mdata : Id) (fs : Fs Hash)
    (done : Fs Hash -> Id -> Prop) : Prop :=
  forall state cursor more after, Rehashed fs state -> WalksBelow mdata state cursor ->
    state.rehashTurn env mdata cursor = .ok (more, after) -> done after cursor.1 ∧
      forall id, id ∈ state.index -> id ≠ cursor.1 -> state.father id ≠ cursor.1 ->
        done state id -> done after id

omit [Inhabited Hash] in
/-- Children that are known are not read again. -/
theorem getChild_of_known [Inhabited Hash] [DecidableEq Hash]
    (known : (fs.entries id).child ≠ .unread) : fs.getChild env id = .ok (fs.first id, fs) := by
  unfold Fs.getChild Fs.first
  split
  · next empty =>
      rw [empty]
      rfl
  · next child first =>
      rw [first]
      rfl
  · next unread => exact absurd unread known

omit [Inhabited Hash] in
theorem AllRead.rehashed {mdata : Id} (all : AllRead fs mdata) (rehashed : Rehashed fs next) :
    AllRead next mdata := by
  intro id linked climbs directory
  rw [rehashed.father] at climbs
  rw [rehashed.st] at directory
  rw [rehashed.child]
  exact all id (rehashed.mem_index.mp linked) climbs directory

omit [Inhabited Hash] in
theorem OnlyDirectories.rehashed {mdata : Id} (only : OnlyDirectories fs mdata)
    (rehashed : Rehashed fs next) : OnlyDirectories next mdata := by
  intro id linked climbs some
  rw [rehashed.father] at climbs
  rw [rehashed.first] at some
  rw [rehashed.st]
  exact only id (rehashed.mem_index.mp linked) climbs some

section Walk

variable {mdata child : Id} {kids : Id -> List Id} {free : List Id}

/-- The inner loop, from below the entry, ends above nothing that is still to be
visited. -/
theorem rehashClimb_later {fatherid : Id} {fuel : Nat} {climbed : Option (Id × Id)}
    (tree : Tree fs kids free) (linked : child ∈ fs.index)
    (climbs : Climbs fs.father mdata child) (apart : child ≠ mdata)
    (climbing : fs.rehashClimb mdata fuel child fatherid = .ok climbed) :
    (climbed = none -> forall id, ¬ Later fs.father kids mdata child id) ∧
      forall way, climbed = some way -> Climbs fs.father mdata way.1 ∧ way.1 ≠ mdata ∧
        forall id, Later fs.father kids mdata child id -> Later fs.father kids mdata way.1 id := by
  induction fuel generalizing child fatherid with
  | zero => cases climbing
  | succ fuel inductionHypothesis =>
      obtain ⟨some, above⟩ := climbs.inv.resolve_left apart
      have isNode := tree.mem_index.mp linked
      have below : ¬ Top none child := fun isTop => some (tree.shape.tops child isTop)
      have up : forall id, fs.next child = 0 -> Later fs.father kids mdata child id ->
          fs.father child ≠ mdata ∧ Later fs.father kids mdata (fs.father child) id :=
        fun id => tree.shape.forest.later_up isNode below
      unfold Fs.rehashClimb at climbing
      split at climbing
      · obtain rfl := Except.ok.inj climbing
        refine ⟨fun none => absurd none (Option.some_ne_none _), fun way same => ?_⟩
        obtain rfl := Option.some.inj same
        exact ⟨climbs, apart, fun _ later => later⟩
      · next last =>
          have last := not_not.mp last
          split at climbing
          · next top =>
              obtain rfl := Except.ok.inj climbing
              exact ⟨fun _ id later => (up id last later).1 top,
                fun _ same => absurd same.symm (Option.some_ne_none _)⟩
          · next notTop =>
              have fatherLinked :=
                tree.mem_index.mpr (tree.shape.forest.listed child isNode below).1
              obtain ⟨ends, goesOn⟩ := inductionHypothesis fatherLinked above notTop climbing
              refine ⟨fun none id later => ends none id (up id last later).2, fun way same => ?_⟩
              obtain ⟨wayBelow, wayApart, all⟩ := goesOn way same
              exact ⟨wayBelow, wayApart, fun id later => all id (up id last later).2⟩

variable [DecidableEq Hash]

omit [DecidableEq Hash] in
/-- Below an entry there is not the root. -/
theorem WalksBelow.notRoot {cursor : Id × Id} (tree : Tree fs kids free)
    (walks : WalksBelow mdata fs cursor) : cursor.1 ≠ rootId := by
  intro isRoot
  obtain ⟨some, -⟩ := walks.below.inv.resolve_left walks.apart
  exact some (isRoot ▸ tree.shape.rootFather)

/-- One turn computes the hash of the entry at the cursor, and its children get
another one to continue. -/
theorem turnDoes_hashed (tree : Tree fs kids free) : TurnDoes env mdata fs (Hashed env) := by
  intro state cursor more after rehashed walks turn
  have stateTree := rehashed.tree tree
  obtain ⟨-, kept, -⟩ := rehashTurn_cases turn
  obtain ⟨further, here, others⟩ := kept walks.linked
  have isNode := stateTree.mem_index.mp walks.linked
  obtain ⟨fatherNode, member⟩ := stateTree.listed isNode (walks.notRoot stateTree)
  have notOwn : state.father cursor.1 ≠ cursor.1 := fun same =>
    stateTree.shape.forest.not_climbs stateTree.shape.tops fatherNode member
      (by rw [same]; exact .here)
  refine ⟨?_, fun id _ different notChild hashed => ?_⟩
  · rw [Hashed, further.father, here, walks.above, others _ notOwn, further.entries cursor.1]
  · rw [Hashed, further.father, others id different, others _ notChild]
    exact hashed

/-- What one turn of the walk keeps, and what holds where it ends. -/
theorem Rehashing.turn {done : Fs Hash -> Id -> Prop} {cursor : Id × Id} {more : Option (Id × Id)}
    (tree : Tree fs kids free) (rehashing : Rehashing done mdata kids fs cursor)
    (does : TurnDoes env mdata fs done) (all : AllRead fs mdata) (only : OnlyDirectories fs mdata)
    (turn : fs.rehashTurn env mdata cursor = .ok (more, next)) :
    (more = none ∧ forall id, id ∈ next.index -> id ≠ rootId -> done next id) ∨
      Exists fun other => more = some other ∧
        (other.1 = 0 ∨ Rehashing done mdata kids next other) := by
  obtain ⟨walks, pending⟩ := rehashing
  obtain ⟨cursorDone, others⟩ := does fs cursor more next (.refl fs) walks turn
  obtain ⟨linked, above, below, apart⟩ := walks
  obtain ⟨present, kept, way⟩ := rehashTurn_cases turn
  obtain ⟨rehashed, -, -⟩ := kept linked
  have nextTree := rehashed.tree tree
  -- What was done is undone at children of the entry only.
  have left : forall id, id ∈ next.index -> id ≠ rootId ->
      done next id ∨ Pending next.father kids mdata cursor.1 id := by
    intro id there idNotRoot
    rw [rehashed.father]
    have old := rehashed.mem_index.mp there
    by_cases same : id = cursor.1
    · exact Or.inl (same ▸ cursorDone)
    · by_cases isChild : fs.father id = cursor.1
      · refine Or.inr (Or.inl (.up ?_ ?_))
        · exact isChild.symm ▸ present
        · exact isChild.symm ▸ .here
      · rcases pending id old idNotRoot with finished | later
        · exact Or.inl (others id old same isChild finished)
        · exact Or.inr later
  have nextBelow : Climbs next.father mdata cursor.1 := rehashed.father.symm ▸ below
  have nextLinked := rehashed.mem_index.mpr linked
  have nextNode := nextTree.mem_index.mp nextLinked
  have nextAll := all.rehashed rehashed
  have nextOnly := only.rehashed rehashed
  rcases way with ⟨directory, unread, -⟩ | ⟨-, -, -, rfl⟩ | ⟨last, climbed, climbing, rfl⟩
  · exact absurd unread (nextAll cursor.1 nextLinked nextBelow directory)
  · right
    refine ⟨_, rfl, ?_⟩
    by_cases empty : next.first cursor.1 = 0
    · exact Or.inl empty
    · right
      have list := nextTree.shape.forest.list cursor.1 nextNode
      cases split : kids cursor.1 with
      | nil => exact absurd (list.head_zero_iff.mpr split) empty
      | cons child rest =>
          rw [split] at list
          obtain ⟨head, -, -⟩ := list.cons_inv
          have childMember : child ∈ kids cursor.1 := split ▸ List.mem_cons_self
          obtain ⟨childNode, -, link⟩ := nextTree.child nextNode childMember
          rw [head]
          refine ⟨⟨nextTree.mem_index.mpr childNode, link.symm,
            .up (link.symm ▸ present) (link.symm ▸ nextBelow), fun same => ?_⟩,
            fun id there idNotRoot => ?_⟩
          · have back : child = mdata := same
            exact nextTree.shape.forest.not_climbs nextTree.shape.tops nextNode childMember
              (back.symm ▸ nextBelow)
          · rcases left id there idNotRoot with finished | later
            · exact Or.inl finished
            · rcases nextTree.shape.forest.pending_down nextTree.shape.tops
                (nextTree.mem_index.mp there) nextNode nextBelow split later with rfl | later
              · exact Or.inl cursorDone
              · exact Or.inr later
  · have noChild : next.first cursor.1 = 0 := by
      by_contra some
      refine last ⟨nextOnly cursor.1 nextLinked nextBelow some, fun empty => some ?_⟩
      rw [Fs.first, empty]
      rfl
    have afterwards : forall id, id ∈ next.index -> id ≠ rootId ->
        done next id ∨ Later next.father kids mdata cursor.1 id := by
      intro id there idNotRoot
      rcases left id there idNotRoot with finished | later
      · exact Or.inl finished
      · rcases nextTree.shape.forest.pending_leaf nextTree.shape.tops
          (nextTree.mem_index.mp there) (nextTree.leaf nextLinked noChild) later with rfl | later
        · exact Or.inl cursorDone
        · exact Or.inr later.2
    obtain ⟨ends, goesOn⟩ := rehashClimb_later nextTree nextLinked nextBelow apart climbing
    cases climbed with
    | none =>
        exact Or.inl ⟨rfl, fun id there idNotRoot =>
          (afterwards id there idNotRoot).resolve_right (ends rfl id)⟩
    | some way =>
        obtain ⟨wayBelow, wayApart, all⟩ := goesOn way rfl
        obtain ⟨wayLinked, sibling, link⟩ := rehashClimb_linked ⟨kids, free, nextTree⟩ nextLinked
          (by rw [above, rehashed.father]) climbing
        have wayNode := nextTree.mem_index.mp wayLinked
        obtain ⟨some, -⟩ := wayBelow.inv.resolve_left wayApart
        have notTop : ¬ Top none way.1 := fun isTop => some (nextTree.shape.tops way.1 isTop)
        have step : forall id, Climbs next.father mdata (next.next way.1) ∧
            (Later next.father kids mdata way.1 id ->
              Pending next.father kids mdata (next.next way.1) id) := fun id =>
          nextTree.shape.forest.pending_next nextTree.shape.tops wayNode notTop wayBelow wayApart
            sibling
        have isTree : IsTree next := ⟨kids, free, nextTree⟩
        obtain ⟨siblingLinked, -, sameFather⟩ := isTree.sibling wayLinked sibling
        refine Or.inr ⟨_, rfl, Or.inr ⟨⟨siblingLinked, link.trans sameFather.symm, (step 0).1, ?_⟩,
          fun id there idNotRoot => ?_⟩⟩
        · intro same
          have back : next.next way.1 = mdata := same
          have fatherBelow := Forest.climbs_up wayBelow wayApart
          obtain ⟨wayFather, wayMember⟩ := nextTree.shape.forest.listed way.1 wayNode notTop
          exact nextTree.shape.forest.not_climbs nextTree.shape.tops wayFather
            (nextTree.shape.forest.next_mem wayFather wayMember sibling) (back.symm ▸ fatherBelow)
        · rcases afterwards id there idNotRoot with finished | later
          · exact Or.inl finished
          · exact Or.inr ((step id).2 (all id later))

end Walk

/-! ## Renaming -/

section Rename

variable [DecidableEq Hash] {mdata mtarget : Id} {lname : Component}

omit [DecidableEq Hash] in
/-- What is below an entry is not changed when the entry moves. -/
theorem Moved.climbs (moved : Moved env fs mdata mtarget lname next) :
    Climbs next.father mdata id ↔ Climbs fs.father mdata id := by
  have same : forall other, other ≠ mdata -> next.father other = fs.father other :=
    fun other different => (moved.others other different).father
  constructor
  · intro climbs
    induction climbs with
    | here => exact .here
    | @up other present _ inductionHypothesis =>
        by_cases here : other = mdata
        · exact here ▸ .here
        · rw [same other here] at present inductionHypothesis
          exact .up present inductionHypothesis
  · intro climbs
    induction climbs with
    | here => exact .here
    | @up other present _ inductionHypothesis =>
        by_cases here : other = mdata
        · exact here ▸ .here
        · rw [← same other here] at present inductionHypothesis
          exact .up present inductionHypothesis

omit [DecidableEq Hash] in
theorem AllRead.moved (all : AllRead fs mdata) (moved : Moved env fs mdata mtarget lname next) :
    AllRead next mdata := by
  intro id linked climbs directory
  refine moved.known id (all id ((moved.index id).mp linked) (moved.climbs.mp climbs) ?_)
  by_cases same : id = mdata
  · subst same
    rwa [← moved.st]
  · rwa [← (moved.others id same).st]

omit [DecidableEq Hash] in
theorem OnlyDirectories.moved (only : OnlyDirectories fs mdata) (isTree : IsTree fs)
    (linked : mdata ∈ fs.index) (legal : ¬ Climbs fs.father mdata mtarget)
    (moved : Moved env fs mdata mtarget lname next) : OnlyDirectories next mdata := by
  intro id there climbs some
  have below := moved.climbs.mp climbs
  have notTarget : id ≠ mtarget := fun same => legal (same ▸ below)
  have notFather : id ≠ fs.father mdata := by
    rintro rfl
    obtain ⟨kids, free, tree⟩ := isTree
    have isNode := tree.mem_index.mp linked
    by_cases isRoot : mdata = rootId
    · rw [isRoot, tree.shape.rootFather] at there
      have stays := (moved.index 0).mp there
      exact tree.some (tree.mem_index.mp stays) rfl
    · obtain ⟨fatherNode, member⟩ := tree.listed isNode isRoot
      exact tree.shape.forest.not_climbs tree.shape.tops fatherNode member below
  have old := only id ((moved.index id).mp there) below (by
    rwa [Fs.first, ← moved.still id notTarget notFather])
  by_cases same : id = mdata
  · subst same
    rwa [moved.st]
  · rwa [(moved.others id same).st]

omit [DecidableEq Hash] in
/-- After an entry has moved, only what is below it has hashes of old paths. -/
theorem Moved.hashed (moved : Moved env fs mdata mtarget lname next) (isTree : IsTree fs)
    (hashes : Hashes env fs) (legal : ¬ Climbs fs.father mdata mtarget)
    (notRoot : mdata ≠ rootId) :
    (next.entries rootId).hash = env.hashing.doHash [slash] ∧
      (next.entries rootId).d_name = [slash] ∧
      forall id, id ∈ next.index -> id ≠ rootId ->
        Hashed env next id ∨ id ≠ mdata ∧ Climbs next.father mdata id := by
  have root := moved.others rootId notRoot.symm
  refine ⟨root.hash.trans hashes.rootHash, root.d_name.trans hashes.rootName,
    fun id linked idNotRoot => ?_⟩
  have old := (moved.index id).mp linked
  by_cases same : id = mdata
  · subst same
    have target := moved.others mtarget fun same => legal (same ▸ .here)
    left
    have link : next.father id = mtarget := moved.place.father
    rw [Hashed, link, moved.place.d_name, childHash_congr target.hash target.father]
    exact moved.place.hash
  · have alike := moved.others id same
    have link : next.father id = fs.father id := alike.father
    by_cases child : fs.father id = mdata
    · refine Or.inr ⟨same, .up ?_ ?_⟩
      · rw [link]
        exact isTree.ne_zero (isTree.father old idNotRoot)
      · rw [link, child]
        exact .here
    · have above := moved.others _ child
      exact Or.inl ((hashes.below id old idNotRoot).congr alike.hash alike.d_name link above.hash
        above.father)

omit [Inhabited Hash] [DecidableEq Hash] in
/-- Hashes do not depend on the open files. -/
theorem Hashes.mfiles (hashes : Hashes env fs) (equal : next = { fs with mfiles := next.mfiles }) :
    Hashes env next := by
  rw [equal]
  exact ⟨hashes.rootHash, hashes.rootName, hashes.below⟩

/-- The walk does what it does with everything below an entry. -/
theorem rehashChildren_done {done : Fs Hash -> Id -> Prop} (isTree : IsTree fs)
    (linked : mdata ∈ fs.index) (all : AllRead fs mdata) (only : OnlyDirectories fs mdata)
    (directory : (fs.entries mdata).st.isDir = true)
    (does : TurnDoes env mdata fs done)
    (stale : forall id, id ∈ fs.index -> id ≠ rootId ->
      done fs id ∨ id ≠ mdata ∧ Climbs fs.father mdata id)
    (rehash : fs.rehashChildren env mdata = .ok next) :
    (next.entries rootId = fs.entries rootId ∧ Rehashed fs next) ∧
      forall id, id ∈ next.index -> id ≠ rootId -> done next id := by
  obtain ⟨kids, free, tree⟩ := isTree
  have isNode := tree.mem_index.mp linked
  rw [Fs.rehashChildren, getChild_of_known (all mdata linked .here directory)] at rehash
  change (if fs.first mdata = 0 then Except.ok fs else _) = _ at rehash
  split at rehash
  · next leaf =>
      obtain rfl := Except.ok.inj rehash
      refine ⟨⟨rfl, .refl _⟩, fun id there notRoot => ?_⟩
      rcases stale id there notRoot with finished | ⟨apart, climbs⟩
      · exact finished
      · rcases tree.shape.forest.climbs_child (tree.mem_index.mp there) tree.shape.tops climbs with
          same | ⟨child, member, -⟩
        · exact absurd same apart
        · rw [tree.leaf linked leaf] at member
          cases member
  · next some =>
      have list := tree.shape.forest.list mdata isNode
      have start : (fs.first mdata, mdata).1 = 0 ∨
          Rehashing done mdata kids fs (fs.first mdata, mdata) := by
        right
        cases split : kids mdata with
        | nil => exact absurd (list.head_zero_iff.mpr split) some
        | cons child rest =>
            rw [split] at list
            obtain ⟨head, -, -⟩ := list.cons_inv
            have member : child ∈ kids mdata := split ▸ List.mem_cons_self
            obtain ⟨childNode, -, link⟩ := tree.child isNode member
            have present := link.symm ▸ tree.some isNode
            rw [head]
            refine ⟨⟨tree.mem_index.mpr childNode, link.symm, .up present (link.symm ▸ .here),
              fun same => ?_⟩, fun id there notRoot => ?_⟩
            · have back : child = mdata := same
              exact tree.shape.forest.not_climbs tree.shape.tops isNode member (back.symm ▸ .here)
            · rcases stale id there notRoot with finished | ⟨apart, climbs⟩
              · exact Or.inl finished
              · exact Or.inr ((tree.shape.forest.pending_down tree.shape.tops
                  (tree.mem_index.mp there) isNode .here split (Or.inl climbs)).resolve_left apart)
      -- The walk visits entries below the root only.
      have turns : forall cursor state more after,
          (state.entries rootId = fs.entries rootId ∧ Rehashed fs state) ∧
            (cursor.1 = 0 ∨ Rehashing done mdata kids state cursor) ->
          state.rehashTurn env mdata cursor = .ok (more, after) ->
          (after.entries rootId = fs.entries rootId ∧ Rehashed fs after) ∧
            ((more = none ∧
                forall id, id ∈ after.index -> id ≠ rootId -> done after id) ∨
              Exists fun other => more = Option.some other ∧
                (other.1 = 0 ∨ Rehashing done mdata kids after other)) := by
        intro cursor state more after ⟨⟨rootSame, rehashed⟩, place⟩ turn
        obtain ⟨present, kept, -⟩ := rehashTurn_cases turn
        have rehashing := place.resolve_left present
        obtain ⟨further, -, others⟩ := kept rehashing.1.linked
        have stateTree := rehashed.tree tree
        have notRoot := rehashing.1.notRoot stateTree
        exact ⟨⟨(others rootId notRoot.symm).trans rootSame, rehashed.trans further⟩,
          rehashing.turn stateTree (fun state cursor more after step => does state cursor more after
            (rehashed.trans step)) (all.rehashed rehashed) (only.rehashed rehashed) turn⟩
      have goesOn : forall cursor state other after,
          (state.entries rootId = fs.entries rootId ∧ Rehashed fs state) ∧
            (cursor.1 = 0 ∨ Rehashing done mdata kids state cursor) ->
          state.rehashTurn env mdata cursor = .ok (Option.some other, after) ->
          (after.entries rootId = fs.entries rootId ∧ Rehashed fs after) ∧
            (other.1 = 0 ∨ Rehashing done mdata kids after other) := by
        intro cursor state other after holds turn
        obtain ⟨kept, ⟨impossible, -⟩ | ⟨same, more, place⟩⟩ := turns cursor state _ after holds turn
        · cases impossible
        · obtain rfl := Option.some.inj more
          exact ⟨kept, place⟩
      have ends : forall cursor state after,
          (state.entries rootId = fs.entries rootId ∧ Rehashed fs state) ∧
            (cursor.1 = 0 ∨ Rehashing done mdata kids state cursor) ->
          state.rehashTurn env mdata cursor = .ok (none, after) ->
          (after.entries rootId = fs.entries rootId ∧ Rehashed fs after) ∧
            forall id, id ∈ after.index -> id ≠ rootId -> done after id := by
        intro cursor state after holds turn
        obtain ⟨kept, ⟨-, finished⟩ | ⟨same, impossible, -⟩⟩ := turns cursor state _ after holds turn
        · exact ⟨kept, finished⟩
        · cases impossible
      exact iterate_ok goesOn ends ⟨⟨rfl, .refl fs⟩, start⟩ rehash

/-- The same where `mcachefs_metadata_rename_entry` walks only if there is something below the
entry. -/
theorem rehashBelow_done {done : Fs Hash -> Id -> Prop} (isTree : IsTree fs)
    (linked : mdata ∈ fs.index) (all : AllRead fs mdata) (only : OnlyDirectories fs mdata)
    (does : TurnDoes env mdata fs done)
    (stale : forall id, id ∈ fs.index -> id ≠ rootId ->
      done fs id ∨ id ≠ mdata ∧ Climbs fs.father mdata id)
    (rehash : (if (fs.entries mdata).st.isDir ∧ (fs.entries mdata).child ≠ .empty then
      fs.rehashChildren env mdata else .ok fs) = .ok next) :
    (next.entries rootId = fs.entries rootId ∧ Rehashed fs next) ∧
      forall id, id ∈ next.index -> id ≠ rootId -> done next id := by
  split at rehash
  · next down => exact rehashChildren_done isTree linked all only down.1 does stale rehash
  · next last =>
      obtain rfl := Except.ok.inj rehash
      refine ⟨⟨rfl, .refl _⟩, fun id there idNotRoot => ?_⟩
      -- Nothing is below the entry.
      have noChild : fs.first mdata = 0 := by
        by_contra some
        refine last ⟨only mdata linked .here some, fun empty => some ?_⟩
        rw [Fs.first, empty]
        rfl
      rcases stale id there idNotRoot with finished | ⟨apart, climbs⟩
      · exact finished
      · obtain ⟨kids, free, tree⟩ := isTree
        rcases tree.shape.forest.climbs_child (tree.mem_index.mp there) tree.shape.tops climbs with
          same | ⟨child, member, -⟩
        · exact absurd same apart
        · rw [tree.leaf linked noChild] at member
          cases member

omit [DecidableEq Hash] in
/-- The root is not moved. -/
theorem Moved.notRoot (move : Moved env fs mdata mtarget lname next) (isTree : IsTree fs)
    (linked : mdata ∈ fs.index) (targetLinked : mtarget ∈ fs.index) : mdata ≠ rootId := by
  intro isRoot
  have top := (move.isTree.father_eq_zero ((move.index mdata).mpr linked)).mpr isRoot
  exact isTree.ne_zero targetLinked (move.place.father.symm.trans top)

/-- What a rename does to the hashes. -/
theorem moveEntry_hashes (isTree : IsTree fs) (hashes : Hashes env fs) (linked : mdata ∈ fs.index)
    (targetLinked : mtarget ∈ fs.index) (legal : ¬ Climbs fs.father mdata mtarget)
    (all : AllRead fs mdata) (only : OnlyDirectories fs mdata)
    (moving : fs.moveEntry env mdata mtarget lname = .ok next) : Hashes env next := by
  obtain ⟨moved, move, middle, rehash, updating⟩ :=
    moveEntry_cases isTree linked targetLinked legal moving
  have movedLinked := (move.index mdata).mpr linked
  obtain ⟨rootHash, rootName, stale⟩ :=
    move.hashed isTree hashes legal (move.notRoot isTree linked targetLinked)
  have middleHashes : Hashes env middle := by
    obtain ⟨kids, free, tree⟩ := move.isTree
    obtain ⟨⟨rootSame, -⟩, hashed⟩ := rehashBelow_done ⟨kids, free, tree⟩ movedLinked
      (all.moved move) (only.moved isTree linked legal move) (turnDoes_hashed tree) stale rehash
    exact ⟨by rw [rootSame]; exact rootHash, by rw [rootSame]; exact rootName, hashed⟩
  exact middleHashes.mfiles (updateFhPath_eq updating)

/-- What a rename has found, if the entry has no children that are below a file. -/
theorem RenameFinds.allRead {path target : Path} {middle : Fs Hash} (isTree : IsTree fs)
    (directories : forall id found, fs.findLocked env path = .ok (id, found) -> id ≠ 0 ->
      OnlyDirectories found id)
    (finds : RenameFinds env fs path target mdata mtarget lname middle) :
    AllRead middle mdata ∧ OnlyDirectories middle mdata := by
  obtain ⟨found, fetched, between, targetpath, lookup, present, fetch, absent, -, above, -⟩ := finds
  obtain ⟨first, known⟩ := findLocked_populated isTree lookup
  have foundTree := first.isTree isTree
  have linked := known present
  have only := directories mdata found lookup present
  have second : Populated env found fetched ∧ AllRead fetched mdata := by
    split at fetch
    · exact ⟨fetchChildren_populated foundTree linked fetch,
        fetchChildren_allRead foundTree linked only fetch⟩
    · next file =>
        obtain rfl := Except.ok.inj fetch
        refine ⟨.refl, fun id there climbs directory => ?_⟩
        have noChild : found.first mdata = 0 := by
          by_contra some
          exact file (only mdata linked .here some)
        obtain ⟨kids, free, tree⟩ := foundTree
        rcases tree.shape.forest.climbs_child (tree.mem_index.mp there) tree.shape.tops climbs with
          rfl | ⟨child, member, -⟩
        · exact absurd directory file
        · rw [tree.leaf linked noChild] at member
          cases member
  obtain ⟨populated, all⟩ := second
  have fetchedTree := populated.isTree foundTree
  have fetchedLinked := (populated.stays foundTree linked).linked
  obtain ⟨third, -⟩ := findLocked_populated fetchedTree absent
  obtain ⟨fourth, -⟩ := findLocked_populated (third.isTree fetchedTree) above
  have rest := third.trans fourth
  exact ⟨rest.allRead fetchedTree fetchedLinked all,
    (populated.trans rest).onlyDirectories foundTree only⟩

end Rename

/-! ## Runs -/

section Runs

variable [DecidableEq Hash]

/-- At and below an entry that a rename finds, only directories have children. -/
def TreeCall.MovesDirectories (env : Env Hash) (fs : Fs Hash) : TreeCall -> Prop
  | .renameEntry path _ => forall id found, fs.findLocked env path = .ok (id, found) -> id ≠ 0 ->
      OnlyDirectories found id
  | _ => True

theorem TreeCall.run_hashes {call : TreeCall} (isTree : IsTree fs) (noLinks : NoLinks fs)
    (hashes : Hashes env fs) (legal : call.Legal env fs) (leaf : call.Leaf env fs)
    (directories : call.MovesDirectories env fs)
    (result : call.run env fs = .ok next) : Hashes env next := by
  rcases run_cases isTree noLinks leaf result with
    changed | ⟨path, target, rfl, mdata, mtarget, lname, middle, finds, moved⟩
  · exact changed.hashes isTree hashes
  · obtain ⟨populated, linked, targetLinked⟩ := finds.populated isTree
    obtain ⟨all, only⟩ := finds.allRead isTree directories
    exact moveEntry_hashes (populated.isTree isTree) ((Changed.ofPopulated populated).hashes isTree
      hashes) linked targetLinked (legal mdata mtarget lname middle finds) all only moved

omit [DecidableEq Hash] in
theorem format_hashes (env : Env Hash) (st : Stat) : Hashes env (Fs.format env st) := by
  refine ⟨?_, ?_, fun id linked notRoot => ?_⟩
  · rw [Shape.format_root]
    rfl
  · rw [Shape.format_root]
    rfl
  · have inside : id ∈ [rootId] := linked
    exact absurd (List.mem_singleton.mp inside) notRoot

/-- In every run of calls each entry has the hash of its full path, if no unlink
finds an entry with children, and no rename one that has children below a file. -/
theorem runs_hashed (env : Env Hash) (st : Stat) (calls : List TreeCall)
    (conditions : EachStep (TreeCall.run env)
      (fun fs call => call.Legal env fs ∧ call.Leaf env fs ∧ call.MovesDirectories env fs)
      (Fs.format env st) calls) :
    Throughout (TreeCall.run env) (HashedByPath env) (fun _ => True) (Fs.format env st) calls := by
  have enough : forall fs : Fs Hash, (IsTree fs ∧ NoLinks fs) ∧ Hashes env fs ->
      HashedByPath env fs := fun fs holds => holds.2.byPath holds.1.1
  refine Throughout.ofInvariant enough (fun fs call next holds condition result => ?_)
    (fun _ _ _ _ _ _ => trivial) ⟨format_isTree env st, format_hashes env st⟩ conditions
  obtain ⟨⟨isTree, noLinks⟩, hashes⟩ := holds
  obtain ⟨legal, leaf, directories⟩ := condition
  exact ⟨TreeCall.run_isTree isTree noLinks legal leaf result,
    TreeCall.run_hashes isTree noLinks hashes legal leaf directories result⟩

end Runs

/-- A mount, `mkdir /d` and `mknod /d/x`. -/
def madeInDirectory : List TreeCall :=
  [.populateVops, .makeEntry ⟨0, 0, 0⟩ (ascii "/d") (S_IFDIR ||| 0o755) 0,
    .makeEntry ⟨0, 0, 0⟩ (ascii "/d/x") (S_IFREG ||| 0o644) 0]

theorem onlyDirectories_of_all {fs : Fs UInt32} {mroot : Id}
    (all : (fs.index.all fun id => fs.first id = 0 ∨ (fs.entries id).st.isDir) = true) :
    OnlyDirectories fs mroot := by
  intro id linked _ some
  have either := of_decide_eq_true (List.all_eq_true.mp all id linked)
  exact either.resolve_left some

/-- What `rename /d /e` finds then. -/
theorem madeInDirectory_result :
    (do
      let fs ← madeInDirectory.foldlM (TreeCall.run mountedSource)
        (Fs.format mountedSource directoryStat)
      let lookup ← fs.findLocked mountedSource (ascii "/d")
      let finds ← fs.renameLookups mountedSource (ascii "/d") (ascii "/e")
      return (finds.1, [finds.2.2.father rootId],
        lookup.2.index.all fun id => lookup.2.first id = 0 ∨ (lookup.2.entries id).st.isDir) :
          Except Fault ((Id × Id × Id) × List Id × Bool)) = .ok ((15, 0, rootId), [0], true) := by
  decide +kernel

/-- A directory is renamed with the file in it. -/
theorem runs_hashed_rename :
    Throughout (TreeCall.run mountedSource) (HashedByPath mountedSource) (fun _ => True)
      (Fs.format mountedSource directoryStat)
      (madeInDirectory ++ [.renameEntry (ascii "/d") (ascii "/e")]) := by
  obtain ⟨fs, made, rest⟩ := bind_eq_ok.mp madeInDirectory_result
  obtain ⟨⟨id, found⟩, lookup, rest⟩ := bind_eq_ok.mp rest
  obtain ⟨⟨ids, lname, middle⟩, lookups, rest⟩ := bind_eq_ok.mp rest
  simp only [pure, Except.pure, Except.ok.injEq, Prod.mk.injEq, List.cons.injEq, and_true] at rest
  obtain ⟨rfl, middleRoot, directories⟩ := rest
  have finds := RenameFinds.ofLookups lookups (by decide) (by decide)
  obtain ⟨mounted, mount, rest⟩ := bind_eq_ok.mp made
  obtain ⟨first, make, rest⟩ := bind_eq_ok.mp rest
  obtain ⟨second, below, rest⟩ := bind_eq_ok.mp rest
  obtain rfl := Except.ok.inj rest
  refine runs_hashed mountedSource directoryStat _ ?_
  simp only [madeInDirectory, List.cons_append, List.nil_append, EachStep, mount, make, below]
  refine ⟨⟨trivial, trivial, trivial⟩, ⟨trivial, trivial, trivial⟩, ⟨trivial, trivial, trivial⟩,
    ⟨?_, trivial, ?_⟩, ?_⟩
  · exact TreeCall.legal_of_root finds (by decide) middleRoot
  · rintro other found' lookup' -
    obtain ⟨rfl, rfl⟩ := Prod.mk.inj (Except.ok.inj (lookup.symm.trans lookup'))
    exact onlyDirectories_of_all directories
  · split <;> trivial

/-- What `rename /f /g` leads to after `mknod /f` and `mknod /f/x`: the first children on the way
to `/g/x`, whether it has the hash of its path, and that the red-black tree takes the new hash of
`/g`. -/
theorem renameFather_result :
    (do
      let fs ← madeInFile.foldlM (TreeCall.run mountedSource)
        (Fs.format mountedSource directoryStat)
      let finds ← fs.renameLookups mountedSource (ascii "/f") (ascii "/g")
      let last ← TreeCall.run mountedSource fs (.renameEntry (ascii "/f") (ascii "/g"))
      let path ← last.getPath 16
      return (finds.1, [finds.2.2.father rootId, last.first rootId, last.first 15],
        [decide ((last.entries 16).hash = hash32_6_16.doHash path),
          (fs.insertedIndex >>= fun store =>
            store.rekey 64 15 (last.entries 15).hash.toNat).isOk]) :
          Except Fault ((Id × Id × Id) × List Id × List Bool)) =
      .ok ((15, 0, rootId), [0, 15, 16], [false, true]) := by decide +kernel

/-- `/g/x` has the hash of `/f/x` after its father was renamed. -/
theorem rename_of_father :
    mountedSource.Readable ∧
      EachStep (TreeCall.run mountedSource) (fun fs call => call.Legal mountedSource fs)
        (Fs.format mountedSource directoryStat)
        (madeInFile ++ [.renameEntry (ascii "/f") (ascii "/g")]) ∧
      (Exists fun fs => madeInFile.foldlM (TreeCall.run mountedSource)
          (Fs.format mountedSource directoryStat) = .ok fs ∧
        Exists fun last =>
          TreeCall.run mountedSource fs (.renameEntry (ascii "/f") (ascii "/g")) = .ok last ∧
          (fs.insertedIndex >>= fun store =>
            store.rekey 64 15 (last.entries 15).hash.toNat).isOk = true) ∧
      ¬ Throughout (TreeCall.run mountedSource) (HashedByPath mountedSource) (fun _ => True)
        (Fs.format mountedSource directoryStat)
        (madeInFile ++ [.renameEntry (ascii "/f") (ascii "/g")]) := by
  obtain ⟨fs, made, rest⟩ := bind_eq_ok.mp renameFather_result
  obtain ⟨⟨ids, lname, middle⟩, lookups, rest⟩ := bind_eq_ok.mp rest
  obtain ⟨last, rename, rest⟩ := bind_eq_ok.mp rest
  obtain ⟨path, told, rest⟩ := bind_eq_ok.mp rest
  simp only [pure, Except.pure, Except.ok.injEq, Prod.mk.injEq, List.cons.injEq, and_true] at rest
  obtain ⟨rfl, ⟨middleRoot, firstOfRoot, firstOfFather⟩, differ, indexed⟩ := rest
  have finds := RenameFinds.ofLookups lookups (by decide) (by decide)
  refine ⟨fun _ _ => ⟨[], rfl⟩, ?_, ⟨fs, made, last, rename, indexed⟩, ?_⟩
  all_goals
    obtain ⟨mounted, mount, rest⟩ := bind_eq_ok.mp made
    obtain ⟨first, make, rest⟩ := bind_eq_ok.mp rest
    obtain ⟨second, below, rest⟩ := bind_eq_ok.mp rest
    obtain rfl := Except.ok.inj rest
  · simp only [madeInFile, List.cons_append, List.nil_append, EachStep, mount, make, below, rename]
    exact ⟨trivial, trivial, trivial, TreeCall.legal_of_root finds (by decide) middleRoot, trivial⟩
  · intro throughout
    simp only [madeInFile, List.cons_append, List.nil_append, Throughout, mount, make, below,
      rename] at throughout
    have reached : Forest.Reaches last.first last.next rootId 16 := by
      have father : Forest.Reaches last.first last.next rootId 15 := by
        rw [← firstOfRoot]
        exact .child .root (by rw [firstOfRoot]; decide)
      rw [← firstOfFather]
      exact .child father (by rw [firstOfFather]; decide)
    obtain ⟨names, -, hash, getPath⟩ := throughout.2.2.2.2.below 16 reached (by decide)
    rw [told] at getPath
    split at getPath
    · rw [Except.ok.inj getPath, hash] at differ
      exact absurd rfl (of_decide_eq_false differ)
    · cases getPath

end Metadata
end Mcachefs
