import Mcachefs.Metadata.Renaming
import Mcachefs.Library.Preorder

namespace Mcachefs
namespace Metadata

open Library

/-!
# Fetching a subtree

Before a directory is renamed, `mcachefs_metadata_fetch_children` reads every
directory below it.  It walks without a stack over a tree that grows under it,
and where it ends, nothing below the directory is left to read: `AllRead`.  The
walk does not go down into what is not a directory; `OnlyDirectories` says that
there is nothing below that.
-/

variable {Hash : Type}

/-- Reading a directory of the source succeeds. -/
def Env.Readable (env : Env Hash) : Prop :=
  forall reads names, Exists fun des => env.source reads names = some des

/-- Every directory at or below an entry has been read. -/
def AllRead (fs : Fs Hash) (mroot : Id) : Prop :=
  forall id, id ∈ fs.index -> Climbs fs.father mroot id -> (fs.entries id).st.isDir = true ->
    (fs.entries id).child ≠ .unread

/-- At and below an entry, only directories have children. -/
def OnlyDirectories (fs : Fs Hash) (mroot : Id) : Prop :=
  forall id, id ∈ fs.index -> Climbs fs.father mroot id -> fs.first id ≠ 0 ->
    (fs.entries id).st.isDir = true

variable [Inhabited Hash] {env : Env Hash} {fs next : Fs Hash} {mroot id other : Id}

theorem climbs_stays (isTree : IsTree fs)
    (same : forall id, id ∈ fs.index -> next.father id = fs.father id) (linked : id ∈ fs.index) :
    Climbs next.father mroot id ↔ Climbs fs.father mroot id := by
  obtain ⟨kids, free, tree⟩ := isTree
  exact tree.shape.forest.climbs_congr tree.shape.tops
    (fun id isNode => same id (tree.mem_index.mpr isNode)) (tree.mem_index.mp linked)

/-! ## Reading one directory -/

section Read

variable [DecidableEq Hash] {father child : Id}

omit [DecidableEq Hash] in
/-- What is linked after a directory has been read was linked, or is a new child
of it. -/
theorem getChild_fresh (isTree : IsTree fs) (linked : father ∈ fs.index)
    (read : fs.getChild env father = .ok (child, next)) (there : id ∈ next.index) :
    id ∈ fs.index ∨ id ∉ fs.index ∧ (fs.entries father).child = .unread ∧
      (fs.entries father).st.isDir = true ∧ next.father id = father ∧
      (next.entries id).child = .unread := by
  obtain ⟨kids, free, tree⟩ := isTree
  obtain ⟨-, same | ⟨unread, directory, -, _, _, _, -, -, rest, new, grown⟩⟩ :=
    tree.getChild (tree.mem_index.mp linked) read
  · rw [same] at there
    exact Or.inl there
  · rcases (grown.nodes id).mp (grown.tree.mem_index.mp there) with old | fresh
    · exact Or.inl (tree.mem_index.mpr old)
    · obtain ⟨link, entry⟩ := grown.entries id fresh
      refine Or.inr ⟨fun old => grown.fresh id fresh (tree.mem_index.mp old), unread, directory, ?_,
        ?_⟩
      · rw [Fs.father, entry]
      · rw [entry]

omit [DecidableEq Hash] in
/-- Reading a directory gives no other entry children. -/
theorem getChild_child (isTree : IsTree fs) (linked : father ∈ fs.index)
    (read : fs.getChild env father = .ok (child, next)) (old : id ∈ fs.index) :
    (next.entries id).child = (fs.entries id).child ∨
      id = father ∧ (fs.entries father).st.isDir = true := by
  obtain ⟨kids, free, tree⟩ := isTree
  obtain ⟨-, same | ⟨-, directory, -, _, _, _, -, -, rest, new, grown⟩⟩ :=
    tree.getChild (tree.mem_index.mp linked) read
  · rw [same]
    exact Or.inl rfl
  · by_cases isFather : id = father
    · exact Or.inr ⟨isFather, directory⟩
    · rw [grown.kept id (tree.mem_index.mp old) isFather]
      exact Or.inl rfl

omit [Inhabited Hash] [DecidableEq Hash] in
theorem markEmpty_child (fs : Fs Hash) : ((fs.markEmpty father).entries father).child ≠ .unread := by
  unfold Fs.markEmpty
  split
  · rw [modify_self]
    exact (nomatch ·)
  · next known => exact known

omit [DecidableEq Hash] in
/-- The children of a directory that can be read are known afterwards. -/
theorem getChild_answered (directory : (fs.entries father).st.isDir = true)
    (readable : forall names top, fs.climb env.fuel father = some (names, top) ->
      Exists fun des => env.source fs.reads names = some des)
    (read : fs.getChild env father = .ok (child, next)) :
    (next.entries father).child ≠ .unread := by
  unfold Fs.getChild at read
  split at read
  · next empty =>
      obtain ⟨-, rfl⟩ := Prod.mk.inj (Except.ok.inj read)
      rw [empty]
      exact (nomatch ·)
  · next known =>
      obtain ⟨-, rfl⟩ := Prod.mk.inj (Except.ok.inj read)
      rw [known]
      exact (nomatch ·)
  · rw [directory, if_neg (nomatch ·)] at read
    obtain ⟨answer, opened, read⟩ := bind_eq_ok.mp read
    unfold Fs.recurseOpen at opened
    split at opened
    · cases opened
    · next names top way =>
        obtain rfl := Except.ok.inj opened
        obtain ⟨des, answered⟩ := readable names top way
        rw [answered] at read
        obtain ⟨-, rfl⟩ := Prod.mk.inj (Except.ok.inj read)
        exact markEmpty_child _

/-- However far the tree is read, reading one more directory succeeds. -/
def ReadsAll (env : Env Hash) (fs : Fs Hash) : Prop :=
  forall middle father child next, Populated env fs middle -> father ∈ middle.index ->
    (middle.entries father).st.isDir = true -> middle.getChild env father = .ok (child, next) ->
      (next.entries father).child ≠ .unread

omit [DecidableEq Hash] in
theorem OnlyDirectories.getChild (only : OnlyDirectories fs mroot) (isTree : IsTree fs)
    (linked : father ∈ fs.index) (read : fs.getChild env father = .ok (child, next)) :
    OnlyDirectories next mroot := by
  intro id there climbs some
  have stays : forall id, id ∈ fs.index -> Stays fs next id := fun _ old =>
    getChild_stays isTree linked read old
  rcases getChild_fresh isTree linked read there with old | ⟨-, -, -, -, leaf⟩
  · rw [(stays id old).alike.st]
    rcases getChild_child isTree linked read old with same | ⟨rfl, directory⟩
    · refine only id old ((climbs_stays isTree (fun id old => (stays id old).alike.father)
        old).mp climbs) ?_
      rwa [Fs.first, ← same]
    · exact directory
  · rw [Fs.first, leaf] at some
    exact absurd rfl some

omit [DecidableEq Hash] in
theorem AllRead.getChild (all : AllRead fs mroot) (isTree : IsTree fs)
    (inside : mroot ∈ fs.index) (linked : father ∈ fs.index)
    (read : fs.getChild env father = .ok (child, next)) : AllRead next mroot := by
  intro id there climbs directory
  have stays : forall id, id ∈ fs.index -> Stays fs next id := fun _ old =>
    getChild_stays isTree linked read old
  have fathers : forall id, id ∈ fs.index -> next.father id = fs.father id := fun id old =>
    (stays id old).alike.father
  rcases getChild_fresh isTree linked read there with old | ⟨fresh, unread, isDir, above, -⟩
  · have known := all id old ((climbs_stays isTree fathers old).mp climbs)
      ((stays id old).alike.st ▸ directory)
    rw [(stays id old).child known]
    exact known
  · -- A new entry would be below a directory that has been read.
    rcases climbs.inv with rfl | ⟨-, higher⟩
    · exact absurd inside fresh
    · rw [above] at higher
      exact absurd unread (all father linked ((climbs_stays isTree fathers linked).mp higher) isDir)

omit [DecidableEq Hash] in
theorem Populated.onlyDirectories (populated : Populated env fs next) (isTree : IsTree fs)
    (only : OnlyDirectories fs mroot) : OnlyDirectories next mroot := by
  induction populated with
  | refl => exact only
  | step before linked read inductionHypothesis =>
      exact inductionHypothesis.getChild (before.isTree isTree) linked read

omit [DecidableEq Hash] in
theorem Populated.allRead (populated : Populated env fs next) (isTree : IsTree fs)
    (inside : mroot ∈ fs.index) (all : AllRead fs mroot) : AllRead next mroot := by
  induction populated with
  | refl => exact all
  | step before linked read inductionHypothesis =>
      exact inductionHypothesis.getChild (before.isTree isTree)
        (before.stays isTree inside).linked linked read

end Read

/-! ## The walk -/

/-- The walk is at `currentid`: what is below the entry has been read, or is still
to be visited. -/
def Fetching (mroot currentid : Id) (fs : Fs Hash) : Prop :=
  Exists fun kids => Exists fun free => Tree fs kids free ∧ mroot ∈ fs.index ∧
    currentid ∈ fs.index ∧ Climbs fs.father mroot currentid ∧
    forall id, id ∈ fs.index -> Climbs fs.father mroot id -> (fs.entries id).st.isDir = true ->
      (fs.entries id).child ≠ .unread ∨ Pending fs.father kids mroot currentid id

theorem Fetching.start (isTree : IsTree fs) (linked : mroot ∈ fs.index) :
    Fetching mroot mroot fs := by
  obtain ⟨kids, free, tree⟩ := isTree
  exact ⟨kids, free, tree, linked, linked, .here, fun id _ climbs _ => Or.inr (Or.inl climbs)⟩

/-- An entry without a first child is a leaf. -/
theorem Tree.leaf {kids : Id -> List Id} {free : List Id} (tree : Tree fs kids free)
    (linked : id ∈ fs.index) (none : fs.first id = 0) : kids id = [] :=
  (tree.kids_eq_nil (tree.mem_index.mp linked)).mpr none

section Walk

variable [DecidableEq Hash] {currentid : Id}

omit [DecidableEq Hash] in
/-- Reading the directory at the cursor, should that succeed. -/
theorem Fetching.read (fetching : Fetching mroot currentid fs)
    (result : fs.readChildren env currentid = .ok next)
    (known : (next.entries currentid).child ≠ .unread) : Fetching mroot currentid next := by
  obtain ⟨kids, free, tree, inside, linked, below, pending⟩ := fetching
  by_cases unread : (fs.entries currentid).child = .unread
  · rw [Fs.readChildren, if_pos unread] at result
    cases got : fs.getChild env currentid with
    | error fault =>
        rw [got] at result
        cases result
    | ok both =>
        rw [got] at result
        obtain rfl := Except.ok.inj result
        have isNode := tree.mem_index.mp linked
        have stays : forall id, id ∈ fs.index -> Stays fs both.2 id := fun _ old =>
          getChild_stays ⟨kids, free, tree⟩ linked got old
        have fathers : forall id, Node fs free id -> both.2.father id = fs.father id :=
          fun id isNode => (stays id (tree.mem_index.mpr isNode)).alike.father
        have leaf := tree.leaf linked (by rw [Fs.first, unread]; rfl)
        obtain ⟨-, same | ⟨-, -, -, names, top, des, -, -, rest, new, grown⟩⟩ :=
          tree.getChild isNode got
        · rw [same] at known
          exact absurd unread known
        · have lists : forall id, kids id ≠ [] ->
              Function.update kids currentid (new ++ kids currentid) id = kids id := by
            intro id some
            rw [Function.update_of_ne]
            rintro rfl
            exact some leaf
          have upward : forall id, id ∈ fs.index ->
              (Climbs both.2.father mroot id ↔ Climbs fs.father mroot id) := fun id old =>
            tree.shape.forest.climbs_congr tree.shape.tops fathers (tree.mem_index.mp old)
          refine ⟨_, rest, grown.tree, (stays mroot inside).linked, (stays _ linked).linked,
            (upward _ linked).mpr below, fun id there climbs isDir => ?_⟩
          rcases (grown.nodes id).mp (grown.tree.mem_index.mp there) with oldNode | fresh
          · have old := tree.mem_index.mpr oldNode
            rcases pending id old ((upward id old).mp climbs) ((stays id old).alike.st ▸ isDir) with
              read | later
            · left
              rw [(stays id old).child read]
              exact read
            · exact Or.inr (tree.shape.forest.pending_congr tree.shape.tops fathers lists isNode
                below oldNode later)
          · obtain ⟨link, entry⟩ := grown.entries id fresh
            have above : both.2.father id = currentid := by rw [Fs.father, entry]
            refine Or.inr (Or.inl (.up ?_ ?_))
            · exact above.symm ▸ tree.some isNode
            · exact above.symm ▸ .here
  · rw [Fs.readChildren, if_neg unread] at result
    obtain rfl := Except.ok.inj result
    exact ⟨kids, free, tree, inside, linked, below, pending⟩

omit [DecidableEq Hash] in
/-- The inner loop, from below the entry, ends above nothing that is still to be
visited. -/
theorem fetchClimb_later {kids : Id -> List Id} {free : List Id} {current : Id} {fuel : Nat}
    {climbed : Option Id} (tree : Tree fs kids free) (linked : current ∈ fs.index)
    (climbs : Climbs fs.father mroot current) (apart : current ≠ mroot)
    (climbing : fs.fetchClimb mroot fuel current = .ok climbed) :
    (climbed = none -> forall id, ¬ Later fs.father kids mroot current id) ∧
      forall other, climbed = some other -> other ∈ fs.index ∧ Climbs fs.father mroot other ∧
        other ≠ mroot ∧ fs.next other ≠ 0 ∧
        forall id, Later fs.father kids mroot current id -> Later fs.father kids mroot other id := by
  induction fuel generalizing current with
  | zero => cases climbing
  | succ fuel inductionHypothesis =>
      obtain ⟨some, above⟩ := climbs.inv.resolve_left apart
      have isNode := tree.mem_index.mp linked
      have below : ¬ Top none current := fun isTop => some (tree.shape.tops current isTop)
      have up : forall id, fs.next current = 0 -> Later fs.father kids mroot current id ->
          fs.father current ≠ mroot ∧ Later fs.father kids mroot (fs.father current) id :=
        fun id => tree.shape.forest.later_up isNode below
      unfold Fs.fetchClimb at climbing
      split at climbing
      · next present =>
          obtain rfl := Except.ok.inj climbing
          refine ⟨fun none => absurd none (Option.some_ne_none _), fun other same => ?_⟩
          obtain rfl := Option.some.inj same
          exact ⟨linked, climbs, apart, present, fun _ later => later⟩
      · next last =>
          have last := not_not.mp last
          split at climbing
          · next top =>
              obtain rfl := Except.ok.inj climbing
              exact ⟨fun _ id later => (up id last later).1 top,
                fun _ same => absurd same.symm (Option.some_ne_none _)⟩
          · next notTop =>
              split at climbing
              · next root =>
                  -- The root is above nothing that `mroot` is above, unless it is `mroot`.
                  rw [root] at above
                  rcases above.inv with same | ⟨higher, -⟩
                  · exact absurd (root.trans same) notTop
                  · exact absurd tree.shape.rootFather higher
              · have fatherLinked :=
                  tree.mem_index.mpr (tree.shape.forest.listed current isNode below).1
                obtain ⟨ends, goesOn⟩ := inductionHypothesis fatherLinked above notTop climbing
                refine ⟨fun none id later => ends none id (up id last later).2,
                  fun other same => ?_⟩
                obtain ⟨otherLinked, otherBelow, otherApart, sibling, all⟩ := goesOn other same
                exact ⟨otherLinked, otherBelow, otherApart, sibling,
                  fun id later => all id (up id last later).2⟩

omit [DecidableEq Hash] in
/-- What one turn of the walk keeps, and what holds where it ends.  From a directory that
cannot be read it goes to the null entry. -/
theorem Fetching.turn {more : Option Id} (fetching : Fetching mroot currentid fs)
    (only : OnlyDirectories fs mroot)
    (turn : fs.fetchTurn env mroot currentid = .ok (more, next)) :
    AllRead next mroot ∨ Exists fun other => more = some other ∧
      (other = 0 ∨ Fetching mroot other next) := by
  obtain ⟨present, read, way⟩ := fetchTurn_cases turn
  obtain ⟨kids, free, tree, inside, linked, -⟩ := id fetching
  have isTree : IsTree fs := ⟨kids, free, tree⟩
  have kept : OnlyDirectories next mroot ∧
      (next.entries currentid).st = (fs.entries currentid).st ∧
      ((fs.entries currentid).st.isDir = true -> (next.entries currentid).child ≠ .unread ->
        Fetching mroot currentid next) ∧
      ((fs.entries currentid).st.isDir ≠ true -> Fetching mroot currentid next) := by
    split at read
    · next directory =>
        have populated := (readChildren_populated linked read).1
        exact ⟨populated.onlyDirectories isTree only, (populated.stays isTree linked).alike.st,
          fun _ known => fetching.read read known, fun file => absurd directory file⟩
    · obtain rfl := Except.ok.inj read
      exact ⟨only, rfl, fun _ _ => fetching, fun _ => fetching⟩
  obtain ⟨only, st, directoryRead, fileKept⟩ := kept
  by_cases unreadable : (fs.entries currentid).st.isDir = true ∧
      (next.entries currentid).child = .unread
  · obtain ⟨directory, unread⟩ := unreadable
    rcases way with ⟨-, -, rfl⟩ | ⟨last, -⟩
    · refine Or.inr ⟨_, rfl, Or.inl ?_⟩
      rw [Fs.first, unread]
      rfl
    · exact absurd ⟨directory, unread ▸ Child.empty_ne_unread.symm⟩ last
  have known : (next.entries currentid).st.isDir = true ->
      (next.entries currentid).child ≠ .unread := fun directory unread =>
    unreadable ⟨st ▸ directory, unread⟩
  have still : Fetching mroot currentid next := by
    by_cases directory : (fs.entries currentid).st.isDir = true
    · exact directoryRead directory (known (st.symm ▸ directory))
    · exact fileKept directory
  obtain ⟨kids, free, tree, inside, linked, below, pending⟩ := still
  have isNode := tree.mem_index.mp linked
  rcases way with ⟨directory, some, rfl⟩ | ⟨last, climbed, climbing, rfl⟩
  · right
    refine ⟨_, rfl, ?_⟩
    by_cases empty : next.first currentid = 0
    · exact Or.inl empty
    · right
      have list := tree.shape.forest.list currentid isNode
      cases split : kids currentid with
      | nil => exact absurd (list.head_zero_iff.mpr split) empty
      | cons child rest =>
          rw [split] at list
          obtain ⟨head, -, -⟩ := list.cons_inv
          obtain ⟨childNode, -, link⟩ := tree.child isNode (split ▸ List.mem_cons_self)
          rw [head]
          refine ⟨kids, free, tree, inside, tree.mem_index.mpr childNode,
            .up (link.symm ▸ tree.some isNode) (link.symm ▸ below), fun id there climbs isDir => ?_⟩
          rcases pending id there climbs isDir with read | later
          · exact Or.inl read
          · rcases tree.shape.forest.pending_down tree.shape.tops (tree.mem_index.mp there) isNode
              below split later with rfl | later
            · exact Or.inl (known isDir)
            · exact Or.inr later
  · -- The entry has no children, so that only what comes later is left.
    have noChild : next.first currentid = 0 := by
      by_contra some
      refine last ⟨st ▸ only currentid linked below some, fun empty => some ?_⟩
      rw [Fs.first, empty]
      rfl
    have left : forall id, id ∈ next.index -> Climbs next.father mroot id ->
        (next.entries id).st.isDir = true -> (next.entries id).child ≠ .unread ∨
          currentid ≠ mroot ∧ Later next.father kids mroot currentid id := by
      intro id there climbs isDir
      rcases pending id there climbs isDir with read | later
      · exact Or.inl read
      · rcases tree.shape.forest.pending_leaf tree.shape.tops (tree.mem_index.mp there)
          (tree.leaf linked noChild) later with rfl | later
        · exact Or.inl (known isDir)
        · exact Or.inr later
    by_cases same : currentid = mroot
    · exact Or.inl fun id there climbs isDir =>
        (left id there climbs isDir).resolve_right fun later => later.1 same
    · obtain ⟨ends, goesOn⟩ := fetchClimb_later tree linked below same climbing
      cases climbed with
      | none =>
          exact Or.inl fun id there climbs isDir =>
            (left id there climbs isDir).resolve_right fun later => ends rfl id later.2
      | some current =>
          obtain ⟨currentLinked, currentBelow, apart, sibling, all⟩ := goesOn current rfl
          have currentNode := tree.mem_index.mp currentLinked
          obtain ⟨some, -⟩ := currentBelow.inv.resolve_left apart
          have notTop : ¬ Top none current := fun isTop => some (tree.shape.tops current isTop)
          have step : forall id, Climbs next.father mroot (next.next current) ∧
              (Later next.father kids mroot current id ->
                Pending next.father kids mroot (next.next current) id) := fun id =>
            tree.shape.forest.pending_next tree.shape.tops currentNode notTop currentBelow apart
              sibling
          have nextTree : IsTree next := ⟨kids, free, tree⟩
          refine Or.inr ⟨next.next current, by simp [apart], Or.inr ⟨kids, free, tree, inside,
            (nextTree.sibling currentLinked sibling).1, (step 0).1, fun id there climbs isDir => ?_⟩⟩
          rcases left id there climbs isDir with read | later
          · exact Or.inl read
          · exact Or.inr ((step id).2 (all id later.2))

end Walk

/-- Fetching a subtree reads every directory of it, if it comes to an end. -/
theorem fetchChildren_allRead [DecidableEq Hash] (isTree : IsTree fs) (linked : mroot ∈ fs.index)
    (only : OnlyDirectories fs mroot)
    (fetched : fs.fetchChildren env mroot = .ok next) : AllRead next mroot := by
  have start : Populated env fs fs ∧
      (mroot = 0 ∨ Fetching mroot mroot fs ∨ mroot ∈ fs.index ∧ AllRead fs mroot) :=
    ⟨.refl, Or.inr (Or.inl (.start isTree linked))⟩
  have turns : forall cursor state more after, Populated env fs state ∧
      (cursor = 0 ∨ Fetching mroot cursor state ∨ cursor ∈ state.index ∧ AllRead state mroot) ->
      state.fetchTurn env mroot cursor = .ok (more, after) -> Populated env fs after ∧
        (AllRead after mroot ∨ Exists fun other => more = some other ∧
          (other = 0 ∨ Fetching mroot other after)) ∧
        forall other, more = some other -> other = 0 ∨ other ∈ after.index := by
    intro cursor state more after ⟨populated, place⟩ turn
    have stateTree := populated.isTree isTree
    have stateOnly := populated.onlyDirectories isTree only
    have present := (fetchTurn_cases turn).1
    rcases place.resolve_left present with fetching | ⟨cursorLinked, all⟩
    · obtain ⟨kids, free, -, -, cursorLinked, -⟩ := id fetching
      obtain ⟨step, known⟩ := fetchTurn_populated stateTree (Or.inr cursorLinked) turn
      exact ⟨populated.trans step, fetching.turn stateOnly turn, known⟩
    · obtain ⟨step, known⟩ := fetchTurn_populated stateTree (Or.inr cursorLinked) turn
      exact ⟨populated.trans step, Or.inl (step.allRead stateTree
        (populated.stays isTree linked).linked all), known⟩
  have goesOn : forall cursor state other after, Populated env fs state ∧
      (cursor = 0 ∨ Fetching mroot cursor state ∨ cursor ∈ state.index ∧ AllRead state mroot) ->
      state.fetchTurn env mroot cursor = .ok (some other, after) -> Populated env fs after ∧
        (other = 0 ∨ Fetching mroot other after ∨ other ∈ after.index ∧ AllRead after mroot) := by
    intro cursor state other after holds turn
    obtain ⟨populated, rest, known⟩ := turns cursor state _ after holds turn
    refine ⟨populated, ?_⟩
    rcases known other rfl with none | there
    · exact Or.inl none
    · rcases rest with all | ⟨same, more, place⟩
      · exact Or.inr (Or.inr ⟨there, all⟩)
      · obtain rfl := Option.some.inj more
        exact place.imp_right Or.inl
  have ends : forall cursor state after, Populated env fs state ∧
      (cursor = 0 ∨ Fetching mroot cursor state ∨ cursor ∈ state.index ∧ AllRead state mroot) ->
      state.fetchTurn env mroot cursor = .ok (none, after) -> AllRead after mroot := by
    intro cursor state after holds turn
    obtain ⟨-, all | ⟨other, more, -⟩, -⟩ := turns cursor state _ after holds turn
    · exact all
    · cases more
  exact iterate_ok goesOn ends start fetched

end Metadata
end Mcachefs
