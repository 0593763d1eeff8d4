import Mcachefs.Metadata.Lookup

namespace Mcachefs
namespace Metadata

open Library

/-!
# Removing entries

`mcachefs_metadata_remove_children` frees everything below an entry without a
stack of its own: it goes down to a first entry without children, frees it, and
goes on to the sibling or back to the father.  The `child` field of a father is
not changed on the way, so that it leads to an entry that is free already.  The
fathers of which this is true are those on the way from the entry to the cursor,
the spine.
-/

variable {Hash : Type} [Inhabited Hash]

/-- Two entries at the same place with the same name, hash, type and link. -/
structure Entry.Placed (one two : Entry Hash) : Prop where
  hash : one.hash = two.hash
  d_name : one.d_name = two.d_name
  father : one.father = two.father
  st_mode : one.st.st_mode = two.st.st_mode
  hardlink : one.hardlink = two.hardlink

omit [Inhabited Hash] in
theorem Entry.Alike.placed {one two : Entry Hash} (alike : one.Alike two) : one.Placed two :=
  ⟨alike.hash, alike.d_name, alike.father, congrArg Stat.st_mode alike.st, alike.hardlink⟩

omit [Inhabited Hash] in
theorem Entry.Placed.trans {one two three : Entry Hash} (first : one.Placed two)
    (second : two.Placed three) : one.Placed three :=
  ⟨first.hash.trans second.hash, first.d_name.trans second.d_name,
    first.father.trans second.father, first.st_mode.trans second.st_mode,
    first.hardlink.trans second.hardlink⟩

/-- What is linked afterwards was linked, and is where it was. -/
def Shrinks (fs next : Fs Hash) : Prop :=
  forall id, id ∈ next.index -> id ∈ fs.index ∧ (next.entries id).Placed (fs.entries id)

omit [Inhabited Hash] in
theorem Shrinks.refl (fs : Fs Hash) : Shrinks fs fs :=
  fun _ linked => ⟨linked, rfl, rfl, rfl, rfl, rfl⟩

omit [Inhabited Hash] in
theorem Shrinks.trans {fs middle next : Fs Hash} (one : Shrinks fs middle)
    (two : Shrinks middle next) : Shrinks fs next := by
  intro id linked
  obtain ⟨linked, second⟩ := two id linked
  obtain ⟨linked, first⟩ := one id linked
  exact ⟨linked, second.trans first⟩

/-! ## The end of an unlink -/

section Unlink

variable {env : Env Hash} {fs next : Fs Hash} {kids : Id -> List Id} {free : List Id}

/-- `removeHash` and `remove` of the entry in hand. -/
theorem Shape.discard {first : Id -> Id} {id : Id} (shape : Shape fs first kids free (some id))
    (indexed : Indexed fs free none) (leaf : kids id = [])
    (removed : (fs.removeHash id).remove id = .ok next) :
    Shape next first kids (id :: free) none ∧ Indexed next (id :: free) none ∧
      forall other, other ≠ id -> next.entries other = fs.entries other := by
  have framed : Shape (fs.removeHash id) first kids free (some id) :=
    shape.frame rfl rfl (fun _ _ => rfl) (fun _ _ => rfl) (fun _ _ => rfl) fun _ _ => rfl
  have equal := remove_eq removed
  refine ⟨framed.remove leaf removed, ?_, fun other different => ?_⟩
  · have index : next.index = fs.index.erase id := by rw [equal]; rfl
    have alloced_nb : next.alloced_nb = fs.alloced_nb := by rw [equal]; rfl
    refine ⟨index ▸ indexed.nodup.erase id, fun other => ?_⟩
    rw [index, indexed.nodup.mem_erase_iff, indexed.exact]
    simp only [Node, alloced_nb, List.mem_cons, not_or]
    tauto
  · rw [equal]
    exact Function.update_of_ne different _ _

/-- An entry without children goes. -/
theorem Tree.unlinkRemove {id : Id} (tree : Tree fs kids free) (isNode : Node fs free id)
    (notRoot : id ≠ rootId) (leaf : kids id = [])
    (removed : fs.unlinkRemove env id = .ok next) :
    (Exists fun kids' => Tree next kids' (id :: free)) ∧ Shrinks fs next ∧ id ∉ next.index := by
  obtain ⟨middle, unlinked, removed⟩ := bind_eq_ok.mp removed
  obtain ⟨before, after, split, shape, relinked⟩ := tree.shape.unlinkEntry isNode notRoot unlinked
  have indexed : Indexed middle free none := by
    refine ⟨relinked.index ▸ tree.indexed.nodup, fun other => ?_⟩
    rw [relinked.index, tree.indexed.exact, Node, Node, relinked.alloced_nb]
  have leaf' : Function.update kids (fs.father id) (before ++ after) id = [] := by
    rw [Function.update_of_ne, leaf]
    intro same
    have member := (tree.listed isNode notRoot).2
    rw [← same, leaf] at member
    cases member
  obtain ⟨last, lastIndexed, kept⟩ := shape.discard indexed leaf' removed
  have lastTree : Tree next (Function.update kids (fs.father id) (before ++ after)) (id :: free) := by
    refine ⟨last.frame rfl rfl (fun _ _ => rfl) (fun _ _ => rfl) (fun other inside => ?_)
      fun _ _ => rfl, lastIndexed⟩
    have different : other ≠ id := fun same => inside.2.2 (same ▸ List.mem_cons_self)
    exact congrArg (Child.id ∘ Entry.child) (kept other different)
  have gone : id ∉ next.index := by
    rw [lastTree.mem_index]
    exact fun inside => inside.2.2 List.mem_cons_self
  refine ⟨⟨_, lastTree⟩, fun other linked => ?_, gone⟩
  have different : other ≠ id := fun same => gone (same ▸ linked)
  have inside : other ∈ middle.index := indexed.mem_iff.mpr ?_
  · rw [kept other different]
    exact ⟨relinked.index ▸ inside, (relinked.alike other).placed⟩
  · obtain ⟨above, below, apart⟩ := lastTree.mem_index.mp linked
    have alloced_nb : next.alloced_nb = middle.alloced_nb := by rw [remove_eq removed]; rfl
    exact ⟨above, alloced_nb ▸ below, fun member => apart (List.mem_cons_of_mem _ member)⟩

end Unlink

/-! ## The spine -/

section Spine

/-- The way from an entry down to `id`, by first children. -/
inductive Spine (kids : Id -> List Id) (metadata : Id) : Id -> List Id -> Prop
  | base : Spine kids metadata metadata [metadata]
  | down {above id : Id} {stack : List Id} (rest : Spine kids metadata above stack)
      (head : (kids above).head? = some id) : Spine kids metadata id (id :: stack)

variable {fs : Fs Hash} {first : Id -> Id} {kids kids' : Id -> List Id} {free stack : List Id}
  {metadata id child : Id}

theorem Shape.tops (shape : Shape fs first kids free none) :
    forall id, Top none id -> fs.father id = 0 := by
  rintro id (rfl | held)
  · exact shape.rootFather
  · cases held

theorem Spine.climbs (spine : Spine kids metadata id stack) (shape : Shape fs first kids free none)
    (inside : Node fs free metadata) :
    Node fs free id ∧ forall other, other ∈ stack -> Climbs fs.father other id := by
  induction spine with
  | base => exact ⟨inside, fun other member => List.mem_singleton.mp member ▸ .here⟩
  | @down above id stack _ head inductionHypothesis =>
      obtain ⟨aboveNode, all⟩ := inductionHypothesis
      obtain ⟨idNode, -, link⟩ := shape.forest.child above id aboveNode
        (List.mem_of_mem_head? (Option.mem_def.mpr head))
      refine ⟨idNode, fun other member => ?_⟩
      rcases List.mem_cons.mp member with rfl | member
      · exact .here
      · exact .up (link ▸ shape.forest.some above aboveNode) (link ▸ all other member)

/-- A child of the lowest entry of the spine is not on the spine. -/
theorem Spine.fresh (spine : Spine kids metadata id stack) (shape : Shape fs first kids free none)
    (inside : Node fs free metadata) (member : child ∈ kids id) : child ∉ stack := by
  obtain ⟨idNode, all⟩ := spine.climbs shape inside
  exact fun onSpine => shape.forest.not_climbs shape.tops idNode member (all child onSpine)

theorem Spine.tail (spine : Spine kids metadata id stack) (shape : Shape fs first kids free none)
    (inside : Node fs free metadata) : Exists fun tail => stack = id :: tail ∧ id ∉ tail := by
  cases spine with
  | base => exact ⟨[], rfl, List.not_mem_nil⟩
  | down rest head =>
      exact ⟨_, rfl, rest.fresh shape inside (List.mem_of_mem_head? (Option.mem_def.mpr head))⟩

theorem Spine.mem (spine : Spine kids metadata id stack) : id ∈ stack := by
  cases spine with
  | base => exact List.mem_cons_self
  | down _ _ => exact List.mem_cons_self

theorem Spine.bottom (spine : Spine kids metadata id stack) : metadata ∈ stack := by
  induction spine with
  | base => exact List.mem_cons_self
  | down _ _ inductionHypothesis => exact List.mem_cons_of_mem _ inductionHypothesis

/-- The children of the lowest entry do not matter. -/
theorem Spine.congr (spine : Spine kids metadata id stack)
    (same : forall other, other ∈ stack.tail -> kids' other = kids other) :
    Spine kids' metadata id stack := by
  induction spine with
  | base => exact .base
  | @down above other rest spine head inductionHypothesis =>
      refine .down (inductionHypothesis fun other member => same other (List.mem_of_mem_tail member)) ?_
      rw [same above spine.mem]
      exact head

end Spine

/-! ## The loop -/

section Loop

/-- What holds in the loop of `mcachefs_metadata_remove_children`: the first
children are right away from the spine. -/
structure Removing (old : Fs Hash) (metadata : Id) (fs : Fs Hash) (first : Id -> Id)
    (kids : Id -> List Id) (free stack : List Id) : Prop where
  shape : Shape fs first kids free none
  indexed : Indexed fs free none
  firsts : forall id, Node fs free id -> id ∉ stack -> fs.first id = first id
  shrinks : Shrinks old fs
  inside : Node fs free metadata

/-- The cursor is below the spine, at a first child or where there is none left. -/
def RemoveAt (old : Fs Hash) (metadata : Id) (cursor : Fs.RemoveCursor) (fs : Fs Hash) : Prop :=
  Exists fun first => Exists fun kids => Exists fun free => Exists fun stack =>
    Removing old metadata fs first kids free stack ∧
      match cursor with
      | .current id => Exists fun above => Spine kids metadata above stack ∧
          (kids above).head? = some id
      | .rewind father => Spine kids metadata father stack ∧ kids father = []

variable {old fs next : Fs Hash} {metadata : Id} {first : Id -> Id} {kids : Id -> List Id}
  {free stack : List Id}

/-- A first child is taken in hand; its father's field stays as it is. -/
theorem Shape.unlinkFirst {id : Id} {after : List Id} (shape : Shape fs first kids free none)
    (isNode : Node fs free id) (notRoot : id ≠ rootId)
    (split : kids (fs.father id) = id :: after) :
    Shape fs (Function.update first (fs.father id) (fs.next id))
      (Function.update kids (fs.father id) after) free (some id) := by
  have below : ¬ Top none id := fun isTop => notRoot (top_none.mp isTop)
  have fatherNode := (shape.forest.listed id isNode below).1
  refine ⟨(shape.forest.unlinkFirst isNode below split).congr (fun _ => Iff.rfl) (fun other _ => ?_)
    (fun _ _ => rfl) (fun _ _ => rfl) (fun _ _ => rfl) fun _ _ => rfl, shape.freeList,
    shape.freeRange, shape.blank, fun other outside => ?_, shape.rootInside, shape.rootFather,
    shape.rootNext, fun other held => ?_⟩
  · simp only [Top, reduceCtorEq, or_false, Option.some.injEq]
    exact or_congr_right eq_comm
  · rw [Function.update_of_ne]
    · exact shape.outside other outside
    · rintro rfl
      exact outside fatherNode
  · obtain rfl := Option.some.inj held
    exact ⟨isNode, notRoot⟩

/-- The entry below the spine goes, and the cursor to its sibling or back. -/
theorem Removing.drop {id above : Id} {after wide : List Id}
    (removing : Removing old metadata fs first kids free wide)
    (within : forall other, other ∈ wide -> other = id ∨ other ∈ stack)
    (spine : Spine kids metadata above stack) (split : kids above = id :: after)
    (leaf : kids id = []) (removed : (fs.removeHash id).remove id = .ok next) :
    RemoveAt old metadata (.after (fs.next id) (fs.father id)) next := by
  have shape := removing.shape
  have aboveNode := (spine.climbs shape removing.inside).1
  have member : id ∈ kids above := split ▸ List.mem_cons_self
  obtain ⟨idNode, below, rfl⟩ := shape.forest.child above id aboveNode member
  have notRoot : id ≠ rootId := fun isRoot => below (Or.inl isRoot)
  have fresh : id ∉ stack := spine.fresh shape removing.inside member
  have different : id ≠ fs.father id := fun same => fresh (by rw [same]; exact spine.mem)
  have unlinked := shape.unlinkFirst idNode notRoot split
  have indexed : Indexed fs free none := removing.indexed
  obtain ⟨last, lastIndexed, kept⟩ := unlinked.discard indexed
    (by rw [Function.update_of_ne different, leaf]) removed
  have alloced_nb : next.alloced_nb = fs.alloced_nb := by rw [remove_eq removed]; rfl
  have nodes : forall other, Node next (id :: free) other ↔ Node fs free other ∧ other ≠ id := by
    intro other
    simp only [Node, alloced_nb, List.mem_cons, not_or]
    tauto
  have metadataStays : metadata ≠ id := fun same => fresh (same ▸ spine.bottom)
  obtain ⟨tail, stackEq, apart⟩ := spine.tail shape removing.inside
  have onward : Spine (Function.update kids (fs.father id) after) metadata (fs.father id) stack := by
    refine spine.congr fun other inTail => Function.update_of_ne ?_ _ _
    rintro rfl
    rw [stackEq] at inTail
    exact apart inTail
  have removingNext : Removing old metadata next
      (Function.update first (fs.father id) (fs.next id))
      (Function.update kids (fs.father id) after) (id :: free) stack := by
    refine ⟨last, lastIndexed, fun other otherNode outside => ?_, fun other linked => ?_,
      (nodes metadata).mpr ⟨removing.inside, metadataStays⟩⟩
    · obtain ⟨otherNode, notId⟩ := (nodes other).mp otherNode
      rw [Function.update_of_ne fun same => outside (by rw [same]; exact spine.mem),
        ← removing.firsts other otherNode fun inWide =>
          (within other inWide).elim notId outside]
      exact congrArg (Child.id ∘ Entry.child) (kept other notId)
    · have inside := ((lastIndexed.exact other).mp linked).1
      obtain ⟨otherNode, notId⟩ := (nodes other).mp inside
      rw [kept other notId]
      exact removing.shrinks other (indexed.mem_iff.mpr otherNode)
  refine ⟨_, _, _, stack, removingNext, ?_⟩
  have list := shape.forest.list _ aboveNode
  rw [split] at list
  have follows : fs.next id = after.headD 0 :=
    Segment.next_eq (show Segment fs.next _ ([] ++ id :: after) 0 from list)
  cases after with
  | nil =>
      rw [Fs.RemoveCursor.after, follows, List.headD_nil, if_neg (not_not.mpr rfl)]
      exact ⟨onward, Function.update_self _ _ _⟩
  | cons sibling after =>
      have some : sibling ≠ 0 := list.ne_zero (List.mem_cons_of_mem _ List.mem_cons_self)
      rw [Fs.RemoveCursor.after, follows, List.headD_cons, if_pos some]
      exact ⟨fs.father id, onward, by rw [Function.update_self]; rfl⟩

/-- A turn that goes on keeps the cursor below the spine. -/
theorem removeTurn_some {cursor other : Fs.RemoveCursor} (holds : RemoveAt old metadata cursor fs)
    (turn : Fs.removeTurn metadata cursor fs = .ok (some other, next)) :
    RemoveAt old metadata other next := by
  obtain ⟨first, kids, free, stack, removing, place⟩ := holds
  cases cursor with
  | current id =>
      obtain ⟨above, spine, head⟩ := place
      have member : id ∈ kids above := List.mem_of_mem_head? (Option.mem_def.mpr head)
      have aboveNode := (spine.climbs removing.shape removing.inside).1
      have idNode := (removing.shape.forest.child above id aboveNode member).1
      have firstEq := removing.firsts id idNode (spine.fresh removing.shape removing.inside member)
      have list := removing.shape.forest.list id idNode
      rw [← firstEq] at list
      unfold Fs.removeTurn at turn
      simp only at turn
      split at turn
      · next down =>
          obtain ⟨same, rfl⟩ := Prod.mk.inj (Except.ok.inj turn)
          obtain rfl := Option.some.inj same
          have wider : Removing old metadata fs first kids free (id :: stack) :=
            ⟨removing.shape, removing.indexed, fun other otherNode outside =>
              removing.firsts other otherNode fun inside => outside (List.mem_cons_of_mem _ inside),
              removing.shrinks, removing.inside⟩
          refine ⟨first, kids, free, id :: stack, wider, id, .down spine head, ?_⟩
          cases shape : kids id with
          | nil => exact absurd (list.head_zero_iff.mpr shape) down
          | cons child rest =>
              rw [shape] at list
              rw [list.cons_inv.1]
              rfl
      · next bottom =>
          obtain ⟨after, removed, last⟩ := bind_eq_ok.mp turn
          obtain ⟨same, rfl⟩ := Prod.mk.inj (Except.ok.inj last)
          obtain rfl := Option.some.inj same
          obtain ⟨rest, split⟩ := List.head?_eq_some_iff.mp head
          exact removing.drop (fun _ => Or.inr) spine split
            (list.head_zero_iff.mp (not_not.mp bottom)) removed
  | rewind father =>
      obtain ⟨spine, empty⟩ := place
      unfold Fs.removeTurn at turn
      simp only at turn
      split at turn
      · cases turn
      · split at turn
        · cases Prod.mk.inj (Except.ok.inj turn) |>.1
        · next notBase =>
            obtain ⟨after, removed, last⟩ := bind_eq_ok.mp turn
            obtain ⟨same, rfl⟩ := Prod.mk.inj (Except.ok.inj last)
            obtain rfl := Option.some.inj same
            cases spine with
            | base => exact absurd rfl notBase
            | @down above _ stack spine head =>
                obtain ⟨rest, split⟩ := List.head?_eq_some_iff.mp head
                exact removing.drop (fun _ => List.mem_cons.mp) spine split empty removed

/-- The loop ends with the spine at the entry where it began. -/
theorem removeTurn_none {cursor : Fs.RemoveCursor} (holds : RemoveAt old metadata cursor fs)
    (turn : Fs.removeTurn metadata cursor fs = .ok (none, next)) :
    Exists fun first => Exists fun kids => Exists fun free =>
      Removing old metadata next first kids free [metadata] ∧ kids metadata = [] := by
  obtain ⟨first, kids, free, stack, removing, place⟩ := holds
  cases cursor with
  | current id =>
      unfold Fs.removeTurn at turn
      simp only at turn
      split at turn
      · cases (Prod.mk.inj (Except.ok.inj turn)).1
      · obtain ⟨after, removed, last⟩ := bind_eq_ok.mp turn
        cases (Prod.mk.inj (Except.ok.inj last)).1
  | rewind father =>
      obtain ⟨spine, empty⟩ := place
      unfold Fs.removeTurn at turn
      simp only at turn
      split at turn
      · cases turn
      · split at turn
        · next same =>
            subst same
            obtain ⟨-, rfl⟩ := Prod.mk.inj (Except.ok.inj turn)
            cases spine with
            | base => exact ⟨first, kids, free, removing, empty⟩
            | down spine head =>
                have member := List.mem_of_mem_head? (Option.mem_def.mpr head)
                exact absurd spine.bottom (spine.fresh removing.shape removing.inside member)
        · obtain ⟨after, removed, last⟩ := bind_eq_ok.mp turn
          cases (Prod.mk.inj (Except.ok.inj last)).1

/-- The cursor where the loop begins. -/
theorem RemoveAt.start (isTree : IsTree fs) (linked : metadata ∈ fs.index)
    (some : fs.first metadata ≠ 0) : RemoveAt fs metadata (.current (fs.first metadata)) fs := by
  obtain ⟨kids, free, tree⟩ := isTree
  have inside := tree.mem_index.mp linked
  refine ⟨fs.first, kids, free, [metadata], ⟨tree.shape, tree.indexed, fun _ _ _ => rfl,
    .refl fs, inside⟩, metadata, .base, ?_⟩
  have list := tree.shape.forest.list metadata inside
  cases shape : kids metadata with
  | nil => exact absurd (list.head_zero_iff.mpr shape) some
  | cons child rest =>
      rw [shape] at list
      rw [list.cons_inv.1]
      rfl

/-- Everything below the entry goes, and nothing else changes. -/
theorem removeChildren_shrinks {env : Env Hash} (isTree : IsTree fs) (linked : metadata ∈ fs.index)
    (removed : fs.removeChildren env metadata = .ok next) :
    IsTree next ∧ Shrinks fs next ∧ metadata ∈ next.index ∧ next.first metadata = 0 := by
  unfold Fs.removeChildren at removed
  split at removed
  · next none =>
      obtain rfl := Except.ok.inj removed
      exact ⟨isTree, .refl _, linked, none⟩
  · next some =>
      obtain ⟨middle, loop, last⟩ := bind_eq_ok.mp removed
      obtain rfl := Except.ok.inj last
      have start := RemoveAt.start isTree linked some
      obtain ⟨first, kids', free', removing, empty⟩ := iterate_ok
        (fun _ _ _ _ => removeTurn_some) (fun _ _ _ => removeTurn_none) start loop
      have metadataNode := removing.inside
      have firstEq : first metadata = 0 :=
        (removing.shape.forest.list metadata metadataNode).head_zero_iff.mpr empty
      have cleared : (middle.modify metadata fun entry => { entry with child := .unread }).first =
          Function.update middle.first metadata 0 := modify_first
      have last : Tree (middle.modify metadata fun entry => { entry with child := .unread }) kids'
          free' := by
        refine ⟨removing.shape.frame rfl rfl (fun other _ => ?_) (fun other _ => ?_)
          (fun other otherNode => ?_)
          (fun other member => modify_other fun same => metadataNode.2.2 (same ▸ member)),
          removing.indexed.nodup, removing.indexed.exact⟩
        · rw [modify_father, update_father]
        · rw [modify_next, update_next]
        · rw [cleared]
          by_cases same : other = metadata
          · rw [same, Function.update_self, firstEq]
          · rw [Function.update_of_ne same]
            exact removing.firsts other otherNode fun inside => same (List.mem_singleton.mp inside)
      refine ⟨⟨kids', free', last⟩, fun other otherLinked => ?_,
        last.mem_index.mpr metadataNode, by rw [cleared, Function.update_self]⟩
      obtain ⟨old, placed⟩ := removing.shrinks other otherLinked
      refine ⟨old, ?_⟩
      by_cases same : other = metadata
      · subst same
        rw [modify_self]
        exact ⟨placed.hash, placed.d_name, placed.father, placed.st_mode, placed.hardlink⟩
      · rw [modify_other same]
        exact placed

end Loop

/-! ## Calls that remove entries -/

section Calls

variable [DecidableEq Hash] {env : Env Hash} {fs next : Fs Hash}

/-- No entry is linked to another one by `hardlink`. -/
def NoLinks (fs : Fs Hash) : Prop :=
  forall id, id ∈ fs.index -> (fs.entries id).hardlink = 0

omit [Inhabited Hash] [DecidableEq Hash] in
theorem Shrinks.noLinks (shrinks : Shrinks fs next) (noLinks : NoLinks fs) : NoLinks next := by
  intro id linked
  obtain ⟨old, placed⟩ := shrinks id linked
  exact placed.hardlink.trans (noLinks id old)

omit [DecidableEq Hash] in
theorem Populated.noLinks (populated : Populated env fs next) (isTree : IsTree fs)
    (noLinks : NoLinks fs) : NoLinks next := by
  have preserved : forall (fs next : Fs Hash) (father child : Id), IsTree fs ∧ NoLinks fs ->
      father ∈ fs.index -> fs.getChild env father = .ok (child, next) ->
      IsTree next ∧ NoLinks next := by
    rintro fs next father child ⟨isTree, noLinks⟩ linked read
    refine ⟨getChild_isTree isTree linked read, fun id idLinked => ?_⟩
    obtain ⟨kids, free, tree⟩ := isTree
    obtain ⟨-, same | ⟨-, -, -, _, _, _, -, -, rest, new, grown⟩⟩ :=
      tree.getChild (tree.mem_index.mp linked) read
    · rw [same] at idLinked ⊢
      exact noLinks id idLinked
    · rcases (grown.nodes id).mp (grown.tree.mem_index.mp idLinked) with old | fresh
      · exact (grown.alike old).hardlink.trans (noLinks id (tree.mem_index.mpr old))
      · obtain ⟨link, entry⟩ := grown.entries id fresh
        rw [entry]
  exact (populated.keeps preserved ⟨isTree, noLinks⟩).2

omit [DecidableEq Hash] in
theorem unlinkRemove_shrinks {id : Id} (isTree : IsTree fs) (linked : id ∈ fs.index)
    (leaf : fs.first id = 0) (removed : fs.unlinkRemove env id = .ok next) :
    IsTree next ∧ Shrinks fs next ∧ id ∉ next.index := by
  obtain ⟨kids, free, tree⟩ := isTree
  have isNode := tree.mem_index.mp linked
  have notRoot : id ≠ rootId := by
    rintro rfl
    obtain ⟨middle, unlinked, -⟩ := bind_eq_ok.mp removed
    unfold Fs.unlinkEntry at unlinked
    rw [tree.shape.rootFather, if_pos rfl] at unlinked
    cases unlinked
  obtain ⟨⟨kids', last⟩, shrinks, gone⟩ :=
    tree.unlinkRemove isNode notRoot ((tree.kids_eq_nil isNode).mpr leaf) removed
  exact ⟨⟨kids', _, last⟩, shrinks, gone⟩

/-- What `mcachefs_metadata_rmdir_unlink` does: after a lookup it removes an
entry, or nothing. -/
theorem rmdirUnlink_cases {path : Path} {isDir : Bool} {code : Int} (isTree : IsTree fs)
    (noLinks : NoLinks fs) (result : fs.rmdirUnlink env path isDir = .ok (code, next)) :
    Exists fun found => Exists fun id => fs.findLocked env path = .ok (id, found) ∧
      Exists fun middle => Populated env fs middle ∧
        (code ≠ 0 ∧ next = middle ∨
          code = 0 ∧ id ∈ middle.index ∧ middle.unlinkRemove env id = .ok next ∧
            if isDir then middle.first id = 0
            else middle = found ∧
              ((found.entries id).st.isReg = true ∨ (found.entries id).st.isLnk = true)) := by
  obtain ⟨⟨id, found⟩, lookup, result⟩ := bind_eq_ok.mp result
  obtain ⟨populated, known⟩ := findLocked_populated isTree lookup
  refine ⟨found, id, lookup, ?_⟩
  simp only at result
  split at result
  · obtain ⟨rfl, rfl⟩ := Prod.mk.inj (Except.ok.inj result)
    exact ⟨found, populated, Or.inl ⟨by decide, rfl⟩⟩
  · next present =>
      have linked := known present
      split at result
      · next directory =>
          split at result
          · obtain ⟨rfl, rfl⟩ := Prod.mk.inj (Except.ok.inj result)
            exact ⟨found, populated, Or.inl ⟨by decide, rfl⟩⟩
          · obtain ⟨middle, read, result⟩ := bind_eq_ok.mp result
            have further := (readChildren_populated linked read).1
            have whole := populated.trans further
            refine ⟨middle, whole, ?_⟩
            split at result
            · obtain ⟨rfl, rfl⟩ := Prod.mk.inj (Except.ok.inj result)
              exact Or.inl ⟨by decide, rfl⟩
            · next empty =>
                obtain ⟨last, removed, result⟩ := bind_eq_ok.mp result
                obtain ⟨rfl, rfl⟩ := Prod.mk.inj (Except.ok.inj result)
                refine Or.inr ⟨rfl, (further.stays (populated.isTree isTree) linked).linked,
                  removed, ?_⟩
                rw [if_pos directory, Fs.first, not_not.mp empty]
                rfl
      · next file =>
          split at result
          · obtain ⟨rfl, rfl⟩ := Prod.mk.inj (Except.ok.inj result)
            exact ⟨found, populated, Or.inl ⟨by decide, rfl⟩⟩
          · next type =>
              obtain ⟨middle, lists, result⟩ := bind_eq_ok.mp result
              obtain ⟨last, removed, result⟩ := bind_eq_ok.mp result
              obtain ⟨rfl, rfl⟩ := Prod.mk.inj (Except.ok.inj result)
              have same : middle = found := by
                split at lists
                · unfold Fs.unlinkList at lists
                  rw [populated.noLinks isTree noLinks id linked, if_pos rfl] at lists
                  cases lists
                · exact (Except.ok.inj lists).symm
              subst same
              refine ⟨middle, populated, Or.inr ⟨rfl, linked, removed, ?_⟩⟩
              rw [if_neg file]
              refine ⟨rfl, ?_⟩
              cases regular : (middle.entries id).st.isReg
              · cases symlink : (middle.entries id).st.isLnk
                · exact absurd ⟨regular, symlink⟩ type
                · exact Or.inr rfl
              · exact Or.inl rfl

omit [DecidableEq Hash] in
/-- `mcachefs_metadata_vops_remove_previous` reads the root and removes a subtree. -/
theorem vopsRemovePrevious_shrinks {mdata_root : Id} (isTree : IsTree fs)
    (linked : mdata_root ∈ fs.index)
    (removed : fs.vopsRemovePrevious env mdata_root = .ok next) :
    Exists fun middle => Populated env fs middle ∧ IsTree next ∧ Shrinks middle next := by
  obtain ⟨⟨child, middle⟩, read, removed⟩ := bind_eq_ok.mp removed
  have populated : Populated env fs middle := .step .refl linked read
  have middleTree := populated.isTree isTree
  have stays := populated.stays isTree linked
  obtain ⟨kids, free, tree⟩ := isTree
  obtain ⟨childEq, -⟩ := tree.getChild (tree.mem_index.mp linked) read
  obtain ⟨found, searched, removed⟩ := bind_eq_ok.mp removed
  rw [childEq] at searched
  refine ⟨middle, populated, ?_⟩
  split at removed
  · obtain rfl := Except.ok.inj removed
    exact ⟨middleTree, .refl _⟩
  · next present =>
      have foundLinked := ((middleTree.findSibling stays.linked searched).resolve_left present).1
      obtain ⟨cleared, children, last⟩ := bind_eq_ok.mp removed
      obtain ⟨clearedTree, first, still, leaf⟩ :=
        removeChildren_shrinks middleTree foundLinked children
      obtain ⟨lastTree, second, -⟩ := unlinkRemove_shrinks clearedTree still leaf last
      exact ⟨lastTree, first.trans second⟩

end Calls

end Metadata
end Mcachefs
