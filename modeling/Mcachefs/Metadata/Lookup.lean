import Mcachefs.Metadata.Population

namespace Mcachefs
namespace Metadata

open Library

/-!
# Lookups populate the tree

Looking a path up, and fetching everything below a directory, read directories
and do nothing else.  `Populated` says this of two states of the metadata file;
what reading one directory preserves is preserved by a lookup.
-/

variable {Hash : Type} [Inhabited Hash]

/-- The metadata file is a tree between two calls. -/
def IsTree (fs : Fs Hash) : Prop :=
  Exists fun kids => Exists fun free => Tree fs kids free

variable {env : Env Hash} {fs middle next : Fs Hash}

/-! ## Links of a tree -/

theorem IsTree.root (isTree : IsTree fs) : rootId ∈ fs.index := by
  obtain ⟨kids, free, tree⟩ := isTree
  exact tree.mem_index.mpr tree.shape.root

theorem IsTree.ne_zero (isTree : IsTree fs) {id : Id} (linked : id ∈ fs.index) : id ≠ 0 := by
  obtain ⟨kids, free, tree⟩ := isTree
  exact tree.some (tree.mem_index.mp linked)

theorem IsTree.father (isTree : IsTree fs) {id : Id} (linked : id ∈ fs.index)
    (notRoot : id ≠ rootId) : fs.father id ∈ fs.index := by
  obtain ⟨kids, free, tree⟩ := isTree
  exact tree.mem_index.mpr (tree.listed (tree.mem_index.mp linked) notRoot).1

theorem IsTree.first (isTree : IsTree fs) {id : Id} (linked : id ∈ fs.index)
    (present : fs.first id ≠ 0) : fs.first id ∈ fs.index ∧ fs.father (fs.first id) = id := by
  obtain ⟨kids, free, tree⟩ := isTree
  have isNode := tree.mem_index.mp linked
  obtain ⟨childNode, -, link⟩ :=
    tree.child isNode (tree.shape.forest.first_mem isNode present)
  exact ⟨tree.mem_index.mpr childNode, link⟩

/-- The next sibling has the same father. -/
theorem IsTree.sibling (isTree : IsTree fs) {id : Id} (linked : id ∈ fs.index)
    (present : fs.next id ≠ 0) :
    fs.next id ∈ fs.index ∧ id ≠ rootId ∧ fs.father (fs.next id) = fs.father id := by
  obtain ⟨kids, free, tree⟩ := isTree
  have isNode := tree.mem_index.mp linked
  have notRoot : id ≠ rootId := fun isRoot => present (isRoot ▸ tree.shape.rootNext)
  obtain ⟨fatherNode, member⟩ := tree.listed isNode notRoot
  obtain ⟨siblingNode, -, link⟩ :=
    tree.child fatherNode (tree.shape.forest.next_mem fatherNode member present)
  exact ⟨tree.mem_index.mpr siblingNode, notRoot, link⟩

theorem IsTree.father_eq_zero (isTree : IsTree fs) {id : Id} (linked : id ∈ fs.index) :
    fs.father id = 0 ↔ id = rootId := by
  obtain ⟨kids, free, tree⟩ := isTree
  exact tree.father_eq_zero (tree.mem_index.mp linked)

/-! ## Loops over siblings -/

omit [Inhabited Hash] in
theorem findSibling_mem {found : Id -> Bool} {fuel : Nat} {start result : Id} {ids : List Id}
    (list : Segment fs.next start ids 0) (ends : fs.findSibling found fuel start = .ok result) :
    result = 0 ∨ result ∈ ids ∧ found result = true := by
  induction fuel generalizing start ids with
  | zero => cases ends
  | succ fuel inductionHypothesis =>
      unfold Fs.findSibling at ends
      split at ends
      · exact Or.inl (Except.ok.inj ends).symm
      · next present =>
          cases ids with
          | nil => exact absurd list.nil_inv present
          | cons id ids =>
              obtain ⟨rfl, -, rest⟩ := list.cons_inv
              split at ends
              · next here =>
                  obtain rfl := Except.ok.inj ends
                  exact Or.inr ⟨List.mem_cons_self, here⟩
              · rcases inductionHypothesis rest ends with none | ⟨member, here⟩
                · exact Or.inl none
                · exact Or.inr ⟨List.mem_cons_of_mem _ member, here⟩

/-- A child that a loop over the children of a linked entry finds. -/
theorem IsTree.findSibling (isTree : IsTree fs) {father result : Id} {found : Id -> Bool}
    {fuel : Nat} (linked : father ∈ fs.index)
    (ends : fs.findSibling found fuel (fs.first father) = .ok result) :
    result = 0 ∨ result ∈ fs.index ∧ result ≠ rootId ∧ fs.father result = father ∧
      found result = true := by
  obtain ⟨kids, free, tree⟩ := isTree
  have isNode := tree.mem_index.mp linked
  rcases findSibling_mem (tree.shape.forest.list father isNode) ends with none | ⟨member, here⟩
  · exact Or.inl none
  · obtain ⟨childNode, notRoot, link⟩ := tree.child isNode member
    exact Or.inr ⟨tree.mem_index.mpr childNode, notRoot, link, here⟩

/-! ## Lookups -/

variable [DecidableEq Hash]

/-- Some linked directories have been read. -/
inductive Populated (env : Env Hash) (fs : Fs Hash) : Fs Hash -> Prop
  | refl : Populated env fs fs
  | step {middle next : Fs Hash} {father child : Id} (before : Populated env fs middle)
      (linked : father ∈ middle.index) (read : middle.getChild env father = .ok (child, next)) :
      Populated env fs next

omit [DecidableEq Hash] in
theorem Populated.trans (one : Populated env fs middle) (two : Populated env middle next) :
    Populated env fs next := by
  induction two with
  | refl => exact one
  | step _ linked read inductionHypothesis => exact .step inductionHypothesis linked read

omit [DecidableEq Hash] in
/-- The invariant rule for lookups. -/
theorem Populated.keeps {invariant : Fs Hash -> Prop}
    (preserved : forall fs next father child, invariant fs -> father ∈ fs.index ->
      fs.getChild env father = .ok (child, next) -> invariant next)
    (populated : Populated env fs next) (holds : invariant fs) : invariant next := by
  induction populated with
  | refl => exact holds
  | step _ linked read inductionHypothesis =>
      exact preserved _ _ _ _ inductionHypothesis linked read

/-- An entry that was linked is still linked, and its known children are. -/
structure Stays (fs next : Fs Hash) (id : Id) : Prop where
  linked : id ∈ next.index
  alike : (next.entries id).Alike (fs.entries id)
  child : (fs.entries id).child ≠ .unread -> (next.entries id).child = (fs.entries id).child

omit [Inhabited Hash] [DecidableEq Hash] in
theorem Stays.trans {id : Id} (one : Stays fs middle id) (two : Stays middle next id) :
    Stays fs next id := by
  refine ⟨two.linked, ⟨two.alike.hash.trans one.alike.hash, two.alike.d_name.trans one.alike.d_name,
    two.alike.st.trans one.alike.st, two.alike.father.trans one.alike.father,
    two.alike.fh.trans one.alike.fh, two.alike.hardlink.trans one.alike.hardlink⟩, fun known => ?_⟩
  have same := one.child known
  rw [two.child (same ▸ known), same]

omit [DecidableEq Hash] in
theorem getChild_isTree {father child : Id} (isTree : IsTree fs) (linked : father ∈ fs.index)
    (read : fs.getChild env father = .ok (child, next)) : IsTree next := by
  obtain ⟨kids, free, tree⟩ := isTree
  obtain ⟨-, same | ⟨-, -, -, _, _, _, -, -, rest, new, grown⟩⟩ :=
    tree.getChild (tree.mem_index.mp linked) read
  · rw [same]
    exact ⟨kids, free, tree.congr rfl rfl (List.Perm.refl _) (fun _ _ => ⟨rfl, rfl, rfl⟩)
      fun _ _ => rfl⟩
  · exact ⟨_, rest, grown.tree⟩

omit [DecidableEq Hash] in
theorem getChild_stays {father child id : Id} (isTree : IsTree fs) (linked : father ∈ fs.index)
    (read : fs.getChild env father = .ok (child, next)) (old : id ∈ fs.index) :
    Stays fs next id := by
  obtain ⟨kids, free, tree⟩ := isTree
  obtain ⟨-, same | ⟨unread, -, -, _, _, _, -, -, rest, new, grown⟩⟩ :=
    tree.getChild (tree.mem_index.mp linked) read
  · rw [same]
    exact ⟨old, .refl _, fun _ => rfl⟩
  · have isNode := tree.mem_index.mp old
    refine ⟨grown.tree.mem_index.mpr ((grown.nodes id).mpr (Or.inl isNode)), grown.alike isNode,
      fun known => ?_⟩
    by_cases same : id = father
    · exact absurd unread (same ▸ known)
    · rw [grown.kept id isNode same]

namespace Populated

omit [DecidableEq Hash] in
theorem isTree (populated : Populated env fs next) (isTree : IsTree fs) : IsTree next :=
  populated.keeps (fun _ _ _ _ => getChild_isTree) isTree

omit [DecidableEq Hash] in
theorem stays (populated : Populated env fs next) (isTree : IsTree fs) {id : Id}
    (old : id ∈ fs.index) : Stays fs next id := by
  induction populated with
  | refl => exact ⟨old, .refl _, fun _ => rfl⟩
  | step before linked read inductionHypothesis =>
      exact inductionHypothesis.trans
        (getChild_stays (before.isTree isTree) linked read inductionHypothesis.linked)

end Populated

/-! ## Looking up paths -/

omit [Inhabited Hash] [DecidableEq Hash] in
theorem findEqual_mem {path : Path} {path_size : Nat} {ids : List Id} {result : Id}
    (found : fs.findEqual path path_size ids = .ok result) :
    result = 0 ∨ result ∈ ids ∧ fs.equals result path path_size = .ok true := by
  induction ids with
  | nil => exact Or.inl (Except.ok.inj found).symm
  | cons id ids inductionHypothesis =>
      obtain ⟨equal, compared, found⟩ := bind_eq_ok.mp found
      cases equal with
      | true =>
          obtain rfl := Except.ok.inj found
          exact Or.inr ⟨List.mem_cons_self, compared⟩
      | false =>
          rcases inductionHypothesis found with none | ⟨member, compared⟩
          · exact Or.inl none
          · exact Or.inr ⟨List.mem_cons_of_mem _ member, compared⟩

omit [Inhabited Hash] in
theorem findHash_mem {path : Path} {hash : Hash} {path_size : Nat} {result : Id}
    (found : fs.findHash path hash path_size = .ok result) :
    result = 0 ∨ result ∈ fs.index ∧ (fs.entries result).hash = hash ∧
      fs.equals result path path_size = .ok true := by
  rcases findEqual_mem found with none | ⟨member, compared⟩
  · exact Or.inl none
  · obtain ⟨linked, same⟩ := List.mem_filter.mp member
    exact Or.inr ⟨linked, decide_eq_true_eq.mp same, compared⟩

theorem semiLookup_mem (isTree : IsTree fs) {path : Path} {size path_size : Nat} {result : Id}
    (found : fs.semiLookup env path size = .ok (result, path_size)) : result ∈ fs.index := by
  induction size with
  | zero =>
      obtain ⟨rfl, -⟩ := Prod.mk.inj (Except.ok.inj found)
      exact isTree.root
  | succ size inductionHypothesis =>
      unfold Fs.semiLookup at found
      split at found
      · exact inductionHypothesis found
      · split at found
        · obtain ⟨rfl, -⟩ := Prod.mk.inj (Except.ok.inj found)
          exact isTree.root
        · obtain ⟨metadata, hit, found⟩ := bind_eq_ok.mp found
          split at found
          · next some =>
              obtain ⟨rfl, -⟩ := Prod.mk.inj (Except.ok.inj found)
              exact ((findHash_mem hit).resolve_left some).1
          · exact inductionHypothesis found

/-- A walk reads directories on its way, and ends at a linked entry or at none. -/
theorem walkDown_populated {path : Path} {rounds path_size : Nat} {father result : Id}
    (isTree : IsTree fs) (linked : father ∈ fs.index)
    (found : fs.walkDown env path rounds father path_size = .ok (result, next)) :
    Populated env fs next ∧ (result ≠ 0 -> result ∈ next.index) := by
  induction rounds generalizing fs father path_size with
  | zero => cases found
  | succ rounds inductionHypothesis =>
      unfold Fs.walkDown at found
      simp only at found
      split at found
      · cases found
      · obtain ⟨⟨child, middle⟩, read, found⟩ := bind_eq_ok.mp found
        have populated : Populated env fs middle := .step .refl linked read
        have middleTree := populated.isTree isTree
        have stays := populated.stays isTree linked
        obtain ⟨kids, free, tree⟩ := isTree
        obtain ⟨childEq, -⟩ := tree.getChild (tree.mem_index.mp linked) read
        simp only at found
        split at found
        · obtain ⟨rfl, rfl⟩ := Prod.mk.inj (Except.ok.inj found)
          exact ⟨populated, fun some => absurd rfl some⟩
        · obtain ⟨hit, searched, found⟩ := bind_eq_ok.mp found
          rw [childEq] at searched
          have member := middleTree.findSibling stays.linked searched
          split at found
          · obtain ⟨rfl, rfl⟩ := Prod.mk.inj (Except.ok.inj found)
            exact ⟨populated, fun some => absurd rfl some⟩
          · next some =>
              have hitLinked := (member.resolve_left some).1
              split at found
              · obtain ⟨rest, last⟩ := inductionHypothesis middleTree hitLinked found
                exact ⟨populated.trans rest, last⟩
              · obtain ⟨rfl, rfl⟩ := Prod.mk.inj (Except.ok.inj found)
                exact ⟨populated, fun _ => hitLinked⟩

theorem findLocked_populated {path : Path} {result : Id} (isTree : IsTree fs)
    (found : fs.findLocked env path = .ok (result, next)) :
    Populated env fs next ∧ (result ≠ 0 -> result ∈ next.index) := by
  unfold Fs.findLocked at found
  split at found
  · obtain ⟨rfl, rfl⟩ := Prod.mk.inj (Except.ok.inj found)
    exact ⟨.refl, fun _ => isTree.root⟩
  · obtain ⟨metadata, hit, found⟩ := bind_eq_ok.mp found
    split at found
    · next some =>
        obtain ⟨rfl, rfl⟩ := Prod.mk.inj (Except.ok.inj found)
        exact ⟨.refl, fun _ => ((findHash_mem hit).resolve_left some).1⟩
    · obtain ⟨⟨start, path_size⟩, semi, found⟩ := bind_eq_ok.mp found
      exact walkDown_populated isTree (semiLookup_mem isTree semi) found

/-! ## Fetching a subtree -/

omit [DecidableEq Hash] in
theorem readChildren_populated {id : Id} (linked : id ∈ fs.index)
    (read : fs.readChildren env id = .ok next) :
    Populated env fs next ∧ ((fs.entries id).child ≠ .unread -> next = fs) := by
  unfold Fs.readChildren at read
  split at read
  · next unread =>
      cases result : fs.getChild env id with
      | error fault =>
          rw [result] at read
          cases read
      | ok both =>
          rw [result] at read
          obtain rfl := Except.ok.inj read
          exact ⟨.step .refl linked result, fun known => absurd unread known⟩
  · obtain rfl := Except.ok.inj read
    exact ⟨.refl, fun _ => rfl⟩

omit [DecidableEq Hash] in
/-- One turn of the loop reads the entry, if it is a directory, and goes down
into it or on from it. -/
theorem fetchTurn_cases {rootid currentid : Id} {more : Option Id}
    (turn : fs.fetchTurn env rootid currentid = .ok (more, next)) :
    currentid ≠ 0 ∧
      (if (fs.entries currentid).st.isDir then fs.readChildren env currentid else .ok fs) =
        .ok next ∧
      (((fs.entries currentid).st.isDir = true ∧ (next.entries currentid).child ≠ .empty ∧
          more = some (next.first currentid)) ∨
        (¬ ((fs.entries currentid).st.isDir = true ∧ (next.entries currentid).child ≠ .empty) ∧
          Exists fun climbed => next.fetchClimb rootid env.fuel currentid = .ok climbed ∧
            more = climbed.bind fun current =>
              if current = rootid then none else some (next.next current))) := by
  unfold Fs.fetchTurn at turn
  split at turn
  · cases turn
  · next present =>
      obtain ⟨middle, read, turn⟩ := bind_eq_ok.mp turn
      refine ⟨present, ?_⟩
      split at turn
      · next down =>
          obtain ⟨rfl, rfl⟩ := Prod.mk.inj (Except.ok.inj turn)
          exact ⟨read, Or.inl ⟨down.1, down.2, rfl⟩⟩
      · next last =>
          obtain ⟨climbed, climbing, turn⟩ := bind_eq_ok.mp turn
          cases climbed with
          | none =>
              obtain ⟨rfl, rfl⟩ := Prod.mk.inj (Except.ok.inj turn)
              exact ⟨read, Or.inr ⟨last, none, climbing, rfl⟩⟩
          | some current =>
              simp only at turn
              split at turn
              · next back =>
                  obtain ⟨rfl, rfl⟩ := Prod.mk.inj (Except.ok.inj turn)
                  exact ⟨read, Or.inr ⟨last, _, climbing, by simp [back]⟩⟩
              · next on =>
                  obtain ⟨rfl, rfl⟩ := Prod.mk.inj (Except.ok.inj turn)
                  exact ⟨read, Or.inr ⟨last, _, climbing, by simp [on]⟩⟩

omit [DecidableEq Hash] in
/-- The inner loop ends at a linked entry that has a sibling. -/
theorem fetchClimb_linked {rootid current other : Id} {fuel : Nat} (isTree : IsTree fs)
    (linked : current ∈ fs.index)
    (climbing : fs.fetchClimb rootid fuel current = .ok (some other)) :
    other ∈ fs.index ∧ fs.next other ≠ 0 := by
  induction fuel generalizing current with
  | zero => cases climbing
  | succ fuel inductionHypothesis =>
      unfold Fs.fetchClimb at climbing
      split at climbing
      · next present =>
          obtain rfl := Option.some.inj (Except.ok.inj climbing)
          exact ⟨linked, present⟩
      · split at climbing
        · cases Except.ok.inj climbing
        · split at climbing
          · cases Except.ok.inj climbing
          · split at climbing
            · cases climbing
            · next above =>
                have notRoot : current ≠ rootId := fun isRoot =>
                  above ((isTree.father_eq_zero linked).mpr isRoot)
                exact inductionHypothesis (isTree.father linked notRoot) climbing

omit [DecidableEq Hash] in
theorem fetchTurn_populated {rootid cursor : Id} {more : Option Id} (isTree : IsTree fs)
    (known : cursor = 0 ∨ cursor ∈ fs.index)
    (turn : fs.fetchTurn env rootid cursor = .ok (more, next)) :
    Populated env fs next ∧ forall other, more = some other -> other = 0 ∨ other ∈ next.index := by
  obtain ⟨present, read, way⟩ := fetchTurn_cases turn
  have here := known.resolve_left present
  have step : Populated env fs next := by
    split at read
    · exact (readChildren_populated here read).1
    · exact Except.ok.inj read ▸ .refl
  have nextTree := step.isTree isTree
  have there := (step.stays isTree here).linked
  refine ⟨step, fun other goesOn => ?_⟩
  rcases way with ⟨-, -, rfl⟩ | ⟨-, climbed, climbing, rfl⟩
  · obtain rfl := Option.some.inj goesOn
    by_cases none : next.first cursor = 0
    · exact Or.inl none
    · exact Or.inr (nextTree.first there none).1
  · cases climbed with
    | none => cases goesOn
    | some current =>
        obtain ⟨currentLinked, sibling⟩ := fetchClimb_linked nextTree there climbing
        simp only [Option.bind_some] at goesOn
        split at goesOn
        · cases goesOn
        · obtain rfl := Option.some.inj goesOn
          exact Or.inr (nextTree.sibling currentLinked sibling).1

omit [DecidableEq Hash] in
theorem fetchChildren_populated {mroot : Id} (isTree : IsTree fs) (linked : mroot ∈ fs.index)
    (fetched : fs.fetchChildren env mroot = .ok next) : Populated env fs next := by
  have start : Populated env fs fs ∧ (mroot = 0 ∨ mroot ∈ fs.index) := ⟨.refl, Or.inr linked⟩
  have goesOn : forall cursor state other after,
      Populated env fs state ∧ (cursor = 0 ∨ cursor ∈ state.index) ->
      state.fetchTurn env mroot cursor = .ok (some other, after) ->
      Populated env fs after ∧ (other = 0 ∨ other ∈ after.index) := by
    intro cursor state other after holds turn
    obtain ⟨populated, known⟩ := fetchTurn_populated (holds.1.isTree isTree) holds.2 turn
    exact ⟨holds.1.trans populated, known other rfl⟩
  refine iterate_ok goesOn (fun cursor state after holds turn => ?_) start fetched
  exact holds.1.trans (fetchTurn_populated (holds.1.isTree isTree) holds.2 turn).1

end Metadata
end Mcachefs
