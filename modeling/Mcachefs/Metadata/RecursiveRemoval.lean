import Mcachefs.Library.Postorder
import Mcachefs.Metadata.Moves

namespace Mcachefs
namespace Metadata

open Library

/-!
# The order in which entries are removed

`mcachefs_metadata_remove_children` calls `mcachefs_metadata_remove_hash` and then
`mcachefs_metadata_remove` for the entries below an entry, in postorder.  The loop
is given here once more with the list of its calls.  What is below a list of
siblings is freed in a number of turns that is independent of all the rest of the
tree, which is an induction over their postorder; no invariant of the half-removed
tree is needed, since an entry keeps its links until it is freed itself.
-/

variable {Hash : Type} [Inhabited Hash]

/-- The calls that free an entry. -/
inductive RemoveCall
  | removeHash (id : Id)
  | remove (id : Id)
  deriving DecidableEq, Repr

/-- Both calls for one entry. -/
def RemoveCall.both (id : Id) : List RemoveCall :=
  [.removeHash id, .remove id]

namespace Fs

/-- `removeTurn` with the calls so far. -/
def traceRemoveTurn (metadata : Id) (cursor : RemoveCursor) (state : Fs Hash × List RemoveCall) :
    Except Fault (Option RemoveCursor × Fs Hash × List RemoveCall) :=
  match cursor with
  | .current current =>
      if state.1.first current ≠ 0 then .ok (some (.current (state.1.first current)), state)
      else do
        let cursor := RemoveCursor.after (state.1.next current) (state.1.father current)
        let fs ← (state.1.removeHash current).remove current
        .ok (some cursor, fs, state.2 ++ RemoveCall.both current)
  | .rewind father =>
      if father = 0 then .error .noFather
      else if father = metadata then .ok (none, state)
      else do
        let cursor := RemoveCursor.after (state.1.next father) (state.1.father father)
        let fs ← (state.1.removeHash father).remove father
        .ok (some cursor, fs, state.2 ++ RemoveCall.both father)

/-- `mcachefs_metadata_remove_children` with its calls. -/
def traceRemoveChildren (env : Env Hash) (metadata : Id) (fs : Fs Hash) :
    Except Fault (Fs Hash × List RemoveCall) :=
  if fs.first metadata = 0 then .ok (fs, [])
  else do
    let state ← iterate .fuel (traceRemoveTurn metadata) env.fuel (.current (fs.first metadata))
      (fs, [])
    .ok (state.1.modify metadata fun entry => { entry with child := .unread }, state.2)

/-- The calls are those of the turn of the source. -/
theorem traceRemoveTurn_fst (metadata : Id) (cursor : RemoveCursor)
    (state : Fs Hash × List RemoveCall) :
    (traceRemoveTurn metadata cursor state).map (Prod.map id Prod.fst) =
      removeTurn metadata cursor state.1 := by
  cases cursor with
  | current current =>
      rw [traceRemoveTurn, removeTurn]
      split
      · rfl
      · cases (state.1.removeHash current).remove current <;> rfl
  | rewind father =>
      rw [traceRemoveTurn, removeTurn]
      split
      · rfl
      · split
        · rfl
        · cases (state.1.removeHash father).remove father <;> rfl

theorem traceRemoveChildren_fst (env : Env Hash) (metadata : Id) (fs : Fs Hash) :
    (fs.traceRemoveChildren env metadata).map Prod.fst = fs.removeChildren env metadata := by
  have loop := @iterate_map _ _ _ _ .fuel Prod.fst _ _ (traceRemoveTurn_fst metadata) env.fuel
    (.current (fs.first metadata)) (fs, ([] : List RemoveCall))
  unfold traceRemoveChildren removeChildren
  split
  · rfl
  · rw [← loop]
    cases iterate .fuel (traceRemoveTurn metadata) env.fuel (.current (fs.first metadata))
      (fs, ([] : List RemoveCall)) <;> rfl

end Fs

/-- Strictly below an entry. -/
def Below (fs : Fs Hash) (metadata id : Id) : Prop :=
  id ∈ fs.index ∧ id ≠ metadata ∧ Climbs fs.father metadata id

/-- Every file that an entry says is open is open. -/
def HandlesOpen (fs : Fs Hash) : Prop :=
  forall id, id ∈ fs.index -> (fs.entries id).fh ≠ 0 -> fs.mfiles (fs.entries id).fh ≠ none

omit [Inhabited Hash] in
theorem HandlesOpen.none {fs : Fs Hash}
    (none : forall fh, fh ∈ fs.index.map (fun id => (fs.entries id).fh) -> fh = 0) :
    HandlesOpen fs :=
  fun id linked some => absurd (none _ (List.mem_map.mpr ⟨id, linked, rfl⟩)) some

/-- The links are those of a tree, and the files are there. -/
structure WellFormed (fs : Fs Hash) : Prop where
  isTree : IsTree fs
  handles : HandlesOpen fs

/-! ## Freeing a list of entries -/

theorem mem_foldl_erase {ids order : List Id} (nodup : ids.Nodup) {id : Id} :
    id ∈ order.foldl List.erase ids ↔ id ∈ ids ∧ id ∉ order := by
  induction order generalizing ids with
  | nil => simp
  | cons first order inductionHypothesis =>
      rw [List.foldl_cons, inductionHypothesis (nodup.erase first), nodup.mem_erase_iff,
        List.mem_cons, not_or]
      tauto

/-- What freeing the entries `order`, one after the other, does. -/
structure Freed (fs : Fs Hash) (order : List Id) (next : Fs Hash) : Prop where
  entries : forall id, id ∉ order -> next.entries id = fs.entries id
  index : next.index = order.foldl List.erase fs.index
  mfiles : forall fh, fs.mfiles fh ≠ none -> next.mfiles fh ≠ none
  freeList : forall free, (forall id, id ∈ order -> id ∉ free) ->
    Segment fs.next fs.first_free free 0 ->
      Segment next.next next.first_free (order.reverse ++ free) 0

section Freed

variable {fs middle next : Fs Hash} {order later : List Id} {id : Id}

omit [Inhabited Hash] in
theorem Freed.refl (fs : Fs Hash) : Freed fs [] fs :=
  ⟨fun _ _ => rfl, rfl, fun _ present => present, fun _ _ list => list⟩

omit [Inhabited Hash] in
theorem Freed.trans (one : Freed fs order middle) (two : Freed middle later next)
    (apart : forall id, id ∈ later -> id ∉ order) : Freed fs (order ++ later) next := by
  refine ⟨fun id outside => ?_, ?_, fun fh present => two.mfiles fh (one.mfiles fh present),
    fun free disjoint list => ?_⟩
  · rw [List.mem_append, not_or] at outside
    rw [two.entries id outside.2, one.entries id outside.1]
  · rw [two.index, one.index, List.foldl_append]
  · rw [List.reverse_append, List.append_assoc]
    refine two.freeList _ (fun id inLater inRest => ?_) (one.freeList free
      (fun id inOrder => disjoint id (List.mem_append_left _ inOrder)) list)
    rcases List.mem_append.mp inRest with inOrder | inFree
    · exact apart id inLater (List.mem_reverse.mp inOrder)
    · exact disjoint id (List.mem_append_right _ inLater) inFree

omit [Inhabited Hash] in
theorem exists_modifyFile {change : Mfile -> Mfile}
    (present : (fs.entries id).fh ≠ 0 -> fs.mfiles (fs.entries id).fh ≠ none) :
    Exists fun next => fs.modifyFile id change = .ok next ∧
      forall fh, fs.mfiles fh ≠ none -> next.mfiles fh ≠ none := by
  unfold Fs.modifyFile
  by_cases handle : (fs.entries id).fh = 0
  · exact ⟨fs, if_pos handle, fun _ there => there⟩
  · obtain ⟨mfile, found⟩ := Option.ne_none_iff_exists'.mp (present handle)
    simp only [if_neg handle, found]
    refine ⟨_, rfl, fun fh there => ?_⟩
    change Function.update fs.mfiles (fs.entries id).fh _ fh ≠ none
    by_cases same : fh = (fs.entries id).fh
    · rw [same, Function.update_self]
      exact Option.some_ne_none _
    · rwa [Function.update_of_ne same]

/-- `mcachefs_metadata_remove_hash` and `mcachefs_metadata_remove`. -/
theorem exists_freed (some : id ≠ 0)
    (present : (fs.entries id).fh ≠ 0 -> fs.mfiles (fs.entries id).fh ≠ none) :
    Exists fun next => (fs.removeHash id).remove id = .ok next ∧ Freed fs [id] next := by
  have closing : Exists fun closed =>
      (fs.removeHash id).modifyFile id (fun mfile => { mfile with metadata_id := 0 }) = .ok closed ∧
        forall fh, fs.mfiles fh ≠ none -> closed.mfiles fh ≠ none := exists_modifyFile present
  obtain ⟨closed, changed, mfiles⟩ := closing
  have removed : (fs.removeHash id).remove id = .ok
      { closed.modify id fun _ => .free closed.first_free with first_free := id } := by
    rw [Fs.remove, changed]
    rfl
  generalize next_eq : { closed.modify id fun _ => .free closed.first_free with first_free := id } =
    next at removed
  have mfiles : forall fh, fs.mfiles fh ≠ none -> next.mfiles fh ≠ none := next_eq ▸ mfiles
  have equal := remove_eq removed
  refine ⟨next, removed, fun other outside => ?_, ?_, mfiles, fun free disjoint list => ?_⟩
  · rw [equal]
    exact Function.update_of_ne (fun same => outside (List.mem_singleton.mpr same)) _ _
  · rw [equal]
    rfl
  · have links : next.next = Function.update fs.next id fs.first_free := by
      rw [equal]
      exact @modify_next _ (fs.removeHash id) id fun _ => .free fs.first_free
    have head : next.first_free = id := by rw [equal]
    rw [links, head]
    exact list.push some (disjoint id List.mem_cons_self)

end Freed

/-! ## The turns of a postorder -/

section Turns

variable {fs : Fs Hash} {kids : Id -> List Id} {free ids order : List Id} {metadata father : Id}

/-- The loop of `mcachefs_metadata_remove_children` with its calls. -/
def RemoveLeads (metadata : Id) (cursor : Fs.RemoveCursor) (state : Fs Hash × List RemoveCall)
    (other : Fs.RemoveCursor) (next : Fs Hash × List RemoveCall) : Prop :=
  Leads .fuel (Fs.traceRemoveTurn metadata) cursor state other next

/-- A turn frees the entry at the cursor, with or without the inner loop. -/
theorem removeLeads_free {cursor : Fs.RemoveCursor} {id : Id} {fs next : Fs Hash}
    {calls : List RemoveCall} (some : id ≠ 0)
    (place : cursor = .current id ∧ fs.first id = 0 ∨ cursor = .rewind id ∧ id ≠ metadata)
    (removed : (fs.removeHash id).remove id = .ok next) :
    RemoveLeads metadata cursor (fs, calls) (.after (fs.next id) (fs.father id))
      (next, calls ++ RemoveCall.both id) := by
  refine .step ?_
  rcases place with ⟨rfl, leaf⟩ | ⟨rfl, apart⟩
  · rw [Fs.traceRemoveTurn, if_neg (not_not.mpr leaf)]
    simp only [removed]
    rfl
  · rw [Fs.traceRemoveTurn, if_neg some, if_neg apart]
    simp only [removed]
    rfl

/-- A turn goes down to the first child of an entry. -/
theorem removeLeads_down {id : Id} {fs : Fs Hash} {calls : List RemoveCall}
    (some : fs.first id ≠ 0) : RemoveLeads metadata (.current id) (fs, calls)
      (.after (fs.first id) id) (fs, calls) := by
  have ahead : Fs.RemoveCursor.after (fs.first id) id = .current (fs.first id) := if_pos some
  refine .step ?_
  rw [ahead, Fs.traceRemoveTurn]
  exact if_pos some

/-- What is below a list of siblings is freed in postorder, up to the way back to
their father.  The entries that are to be freed are as they were in `fs`. -/
theorem Tree.removeLeads (tree : Tree fs kids free) (walk : Postorder kids ids order)
    (list : Segment fs.next (ids.headD 0) ids 0)
    (children : forall id, id ∈ ids -> Node fs free id ∧ fs.father id = father)
    (outside : metadata ∉ order) (once : order.Nodup) (now : Fs Hash) (calls : List RemoveCall)
    (same : forall id, id ∈ order -> now.entries id = fs.entries id)
    (present : forall id, id ∈ order -> (fs.entries id).fh ≠ 0 ->
      now.mfiles (fs.entries id).fh ≠ none) :
    Exists fun next => Freed now order next ∧
      RemoveLeads metadata (.after (ids.headD 0) father) (now, calls) (.rewind father)
        (next, calls ++ order.flatMap RemoveCall.both) := by
  induction walk generalizing father now calls with
  | nil =>
      refine ⟨now, .refl now, ?_⟩
      rw [List.flatMap_nil, List.append_nil]
      exact .refl
  | @cons id ids inner outer below after innerHypothesis outerHypothesis =>
      obtain ⟨-, some, rest⟩ := list.cons_inv
      obtain ⟨isNode, link⟩ := children id List.mem_cons_self
      obtain ⟨innerOnce, outerOnce, disjoint⟩ := List.nodup_append'.mp once
      obtain ⟨fresh, outerOnce⟩ := List.nodup_cons.mp outerOnce
      have notInner : id ∉ inner := fun inInner => disjoint inInner List.mem_cons_self
      have member : id ∈ inner ++ id :: outer := List.mem_append_right _ List.mem_cons_self
      have ofInner : forall other, other ∈ inner -> other ∈ inner ++ id :: outer :=
        fun other => List.mem_append_left _
      have ofOuter : forall other, other ∈ outer -> other ∈ inner ++ id :: outer :=
        fun other inOuter => List.mem_append_right _ (List.mem_cons_of_mem _ inOuter)
      have notMetadata : id ≠ metadata := fun isMetadata => outside (isMetadata ▸ member)
      have links := tree.shape.forest.list id isNode
      -- The way down, through what is below the entry and back to it.
      have descent : Exists fun middle => Exists fun cursor => Freed now inner middle ∧
          RemoveLeads metadata (.after id father) (now, calls) cursor
            (middle, calls ++ inner.flatMap RemoveCall.both) ∧
          (cursor = .current id ∧ middle.first id = 0 ∨ cursor = .rewind id ∧ id ≠ metadata) := by
        have first : now.first id = fs.first id := by rw [Fs.first, Fs.first, same id member]
        have start : Fs.RemoveCursor.after id father = .current id := if_pos some
        rw [start]
        cases shape : kids id with
        | nil =>
            rw [shape] at below links
            rw [below.nil_inv]
            refine ⟨now, .current id, .refl now, ?_, Or.inl ⟨rfl, first.trans links.nil_inv⟩⟩
            rw [List.flatMap_nil, List.append_nil]
            exact .refl
        | cons child others =>
            have children : forall other, other ∈ kids id ->
                Node fs free other ∧ fs.father other = id := fun other inKids =>
              ⟨(tree.shape.forest.child id other isNode inKids).1,
                (tree.shape.forest.child id other isNode inKids).2.2⟩
            have nonzero : fs.first id ≠ 0 := fun zero => by
              rw [links.head_zero_iff.mp zero] at shape
              cases shape
            obtain ⟨middle, freed, leads⟩ := innerHypothesis (links.first_eq ▸ links) children
              (fun inInner => outside (ofInner _ inInner)) innerOnce now calls
              (fun other inInner => same other (ofInner other inInner))
              (fun other inInner => present other (ofInner other inInner))
            have down : RemoveLeads metadata (.current id) (now, calls) (.after (now.first id) id)
                (now, calls) := removeLeads_down (first.symm ▸ nonzero)
            rw [first, links.first_eq] at down
            exact ⟨middle, .rewind id, freed, down.trans leads, Or.inr ⟨rfl, notMetadata⟩⟩
      obtain ⟨middle, cursor, freed, leads, place⟩ := descent
      have kept : middle.entries id = fs.entries id :=
        (freed.entries id notInner).trans (same id member)
      have handled : (middle.entries id).fh ≠ 0 -> middle.mfiles (middle.entries id).fh ≠ none := by
        rw [kept]
        exact fun handle => freed.mfiles _ (present id member handle)
      obtain ⟨last, removed, freedOne⟩ := exists_freed some handled
      have upward : RemoveLeads metadata cursor (middle, calls ++ inner.flatMap RemoveCall.both)
          (.after (middle.next id) (middle.father id))
          (last, calls ++ inner.flatMap RemoveCall.both ++ RemoveCall.both id) :=
        removeLeads_free some place removed
      have ahead : Fs.RemoveCursor.after (middle.next id) (middle.father id) =
          .after (ids.headD 0) father := by
        rw [Fs.next, Fs.father, kept]
        change Fs.RemoveCursor.after (fs.next id) (fs.father id) = _
        rw [link, rest.first_eq]
      have both := freed.trans freedOne fun other isId inInner =>
        notInner (List.mem_singleton.mp isId ▸ inInner)
      have apart : forall other, other ∈ outer -> other ∉ inner ++ [id] := by
        intro other inOuter inFirst
        rcases List.mem_append.mp inFirst with inInner | isId
        · exact disjoint inInner (List.mem_cons_of_mem _ inOuter)
        · exact fresh (List.mem_singleton.mp isId ▸ inOuter)
      obtain ⟨final, freedRest, onward⟩ := outerHypothesis
        (rest.first_eq ▸ rest)
        (fun other later => children other (List.mem_cons_of_mem _ later))
        (fun inOuter => outside (ofOuter _ inOuter)) outerOnce last
        (calls ++ inner.flatMap RemoveCall.both ++ RemoveCall.both id)
        (fun other inOuter => (both.entries other (apart other inOuter)).trans
          (same other (ofOuter other inOuter)))
        (fun other inOuter handle => both.mfiles _ (present other (ofOuter other inOuter) handle))
      have order : inner ++ id :: outer = (inner ++ [id]) ++ outer := by
        rw [List.append_assoc, List.singleton_append]
      refine ⟨final, order ▸ both.trans freedRest apart, ?_⟩
      have calls_eq : calls ++ (inner ++ id :: outer).flatMap RemoveCall.both =
          calls ++ inner.flatMap RemoveCall.both ++ RemoveCall.both id ++
            outer.flatMap RemoveCall.both := by
        simp only [List.flatMap_append, List.flatMap_cons, List.append_assoc]
      rw [calls_eq]
      exact leads.trans (upward.trans (ahead ▸ onward))

end Turns

/-! ## The whole call -/

/-- The entries below `metadata` are freed in this order, and nothing else changes. -/
structure FreesBelow (fs : Fs Hash) (metadata : Id) (order : List Id) (next : Fs Hash) : Prop where
  once : order.Nodup
  mem_iff : forall id, id ∈ order ↔ Below fs metadata id
  /-- What is below an entry is freed before it. -/
  bottomUp : forall before id later, order = before ++ id :: later ->
    forall other, Below fs id other -> other ∈ before
  child : fs.first metadata ≠ 0 -> (next.entries metadata).child = .unread
  freeList : forall free, Segment fs.next fs.first_free free 0 ->
    Segment next.next next.first_free (order.reverse ++ free) 0
  others : forall id, id ∉ order -> id ≠ metadata -> next.entries id = fs.entries id
  own : next.entries metadata = { fs.entries metadata with child := (next.entries metadata).child }
  index : forall id, id ∈ next.index ↔ id ∈ fs.index ∧ id ∉ order

section Whole

variable {fs next : Fs Hash} {kids : Id -> List Id} {free order : List Id} {metadata : Id}

/-- The order of a walk below an entry. -/
theorem Tree.postorder (tree : Tree fs kids free) (isNode : Node fs free metadata) :
    Exists fun order => Postorder kids (kids metadata) order ∧ order.Nodup ∧
      (forall id, id ∈ order ↔ Below fs metadata id) ∧
      forall before id later, order = before ++ id :: later ->
        forall other, Below fs id other -> other ∈ before := by
  have forest := tree.shape.forest
  have tops := tree.shape.tops
  obtain ⟨order, walk⟩ := forest.exists_postorder tops (fun _ inside => inside.2.1) isNode
  have nodup : forall id, Node fs free id -> (kids id).Nodup := fun id inside =>
    (forest.list id inside).nodup
  have apart := walk.pairwise forest tops nodup isNode (fun _ member => member)
    (nodup metadata isNode)
  have mem_iff : forall id, id ∈ order ↔ Below fs metadata id := by
    intro id
    rw [walk.mem_iff forest tops fun child member => (forest.child metadata child isNode member).1,
      Below, tree.mem_index]
    constructor
    · rintro ⟨child, member, inside, climbs⟩
      refine ⟨inside, ?_, forest.climbs_of_child isNode member climbs⟩
      rintro rfl
      exact forest.not_climbs tops isNode member climbs
    · rintro ⟨inside, different, climbs⟩
      obtain ⟨child, member, climbs⟩ :=
        (forest.climbs_child inside tops climbs).resolve_left different
      exact ⟨child, member, inside, climbs⟩
  have once : order.Pairwise fun one two => one ≠ two := by
    refine apart.imp fun notBelow same => notBelow ?_
    rw [same]
    exact .here
  refine ⟨order, walk, once, mem_iff, ?_⟩
  rintro before id later rfl other ⟨linked, different, climbs⟩
  have above := (mem_iff id).mp (List.mem_append_right _ List.mem_cons_self)
  have strict : other ≠ metadata := by
    rintro rfl
    -- An entry below the entry cannot be above it.
    obtain ⟨child, member, lower⟩ := (forest.climbs_child (tree.mem_index.mp above.1) tops
      above.2.2).resolve_left above.2.1
    exact forest.not_climbs tops isNode member (lower.trans climbs)
  have member := (mem_iff other).mpr ⟨linked, strict, above.2.2.trans climbs⟩
  rcases List.mem_append.mp member with early | late
  · exact early
  · rcases List.mem_cons.mp late with same | late
    · exact absurd same different
    · exact absurd climbs ((List.pairwise_cons.mp (List.pairwise_append.mp apart).2.1).1 other late)

/-- The loop ends, and has freed exactly what is below the entry. -/
theorem removeChildren_frees (fs : Fs Hash) (wellFormed : WellFormed fs) (metadata : Id)
    (linked : metadata ∈ fs.index) :
    Exists fun order => Exists fun next => FreesBelow fs metadata order next ∧
      forall env : Env Hash,
        Returns (fun fuel => fs.traceRemoveChildren { env with fuel := fuel } metadata)
          (next, order.flatMap RemoveCall.both) ∧
        Returns (fun fuel => fs.removeChildren { env with fuel := fuel } metadata) next := by
  obtain ⟨⟨kids, free, tree⟩, handles⟩ := wellFormed
  have isNode := tree.mem_index.mp linked
  have list := tree.shape.forest.list metadata isNode
  obtain ⟨order, walk, once, mem_iff, bottomUp⟩ := tree.postorder isNode
  have outside : metadata ∉ order := fun member => ((mem_iff metadata).mp member).2.1 rfl
  have notFree : forall free, Segment fs.next fs.first_free free 0 ->
      forall id, id ∈ order -> id ∉ free := by
    intro others others_list id member inFree
    have inside := tree.mem_index.mp ((mem_iff id).mp member).1
    exact inside.2.2 (others_list.unique tree.shape.freeList ▸ inFree)
  obtain ⟨last, freed, leads⟩ := tree.removeLeads walk (list.first_eq ▸ list)
    (fun child member => ⟨(tree.shape.forest.child metadata child isNode member).1,
      (tree.shape.forest.child metadata child isNode member).2.2⟩) outside once fs []
    (fun _ _ => rfl) fun id member => handles id ((mem_iff id).mp member).1
  have index : forall id, id ∈ last.index ↔ id ∈ fs.index ∧ id ∉ order := by
    intro id
    rw [freed.index]
    exact mem_foldl_erase tree.indexed.nodup
  by_cases leaf : fs.first metadata = 0
  · have none : order = [] := by
      rw [list.head_zero_iff.mp leaf] at walk
      exact walk.nil_inv
    refine ⟨order, fs, ⟨once, mem_iff, bottomUp, fun some => absurd leaf some, fun free list => ?_,
      fun _ _ _ => rfl, rfl, fun id => ?_⟩, fun env => ⟨⟨0, fun fuel _ => ?_⟩, 0, fun fuel _ => ?_⟩⟩
    · rw [none]
      exact list
    · rw [none]
      simp
    · dsimp only
      rw [Fs.traceRemoveChildren, if_pos leaf, none]
      rfl
    · dsimp only
      rw [Fs.removeChildren, if_pos leaf]
  · have start : Fs.RemoveCursor.after ((kids metadata).headD 0) metadata =
        .current (fs.first metadata) := by
      rw [← list.first_eq]
      exact if_pos leaf
    rw [start] at leads
    have ends : Fs.traceRemoveTurn metadata (.rewind metadata)
        (last, [] ++ order.flatMap RemoveCall.both) =
          .ok (none, last, [] ++ order.flatMap RemoveCall.both) := by
      rw [Fs.traceRemoveTurn, if_neg (tree.some isNode), if_pos rfl]
    obtain ⟨enough, loop⟩ := leads.returns ends
    generalize cleared : (last.modify metadata fun entry => { entry with child := .unread }) = next
    have traced : forall (env : Env Hash) fuel, enough ≤ fuel ->
        fs.traceRemoveChildren { env with fuel := fuel } metadata =
          .ok (next, order.flatMap RemoveCall.both) := by
      intro env fuel large
      rw [Fs.traceRemoveChildren, if_neg leaf]
      simp only [loop fuel large]
      rw [← cleared]
      rfl
    have links : next.next = last.next := by
      rw [← cleared, modify_next]
      exact update_next
    refine ⟨order, next, ⟨once, mem_iff, bottomUp, fun _ => ?_, fun free list => ?_,
      fun id notFreed different => ?_, ?_, ?_⟩, fun env => ⟨⟨enough, traced env⟩, enough,
      fun fuel large => ?_⟩⟩
    · rw [← cleared, modify_self]
    · rw [links, ← cleared]
      exact freed.freeList free (notFree free list) list
    · rw [← cleared, modify_other different]
      exact freed.entries id notFreed
    · rw [← cleared, modify_self, freed.entries metadata outside]
    · rw [← cleared]
      exact index
    · dsimp only
      rw [← Fs.traceRemoveChildren_fst, traced env fuel large]
      rfl

end Whole

/-- `mkdir /d`, `mknod /d/f`, and what is below the root goes. -/
theorem removeChildren_frees_nested : Exists fun first => Exists fun fs =>
    TreeCall.run emptySource (Fs.format emptySource directoryStat)
        (.makeEntry ⟨0, 0, 0⟩ (ascii "/d") (S_IFDIR ||| 0o755) 0) = .ok first ∧
      TreeCall.run emptySource first
        (.makeEntry ⟨0, 0, 0⟩ (ascii "/d/f") (S_IFREG ||| 0o644) 0) = .ok fs ∧
      fs.first rootId ≠ 0 ∧
      Exists fun order => Exists fun next => FreesBelow fs rootId order next ∧
        forall env : Env UInt32,
          Returns (fun fuel => fs.traceRemoveChildren { env with fuel := fuel } rootId)
            (next, order.flatMap RemoveCall.both) ∧
          Returns (fun fuel => fs.removeChildren { env with fuel := fuel } rootId) next := by
  have evaluated : (do
      let first ← TreeCall.run emptySource (Fs.format emptySource directoryStat)
        (.makeEntry ⟨0, 0, 0⟩ (ascii "/d") (S_IFDIR ||| 0o755) 0)
      let fs ← TreeCall.run emptySource first
        (.makeEntry ⟨0, 0, 0⟩ (ascii "/d/f") (S_IFREG ||| 0o644) 0)
      return (fs.index.map (fun id => (fs.entries id).fh), fs.first rootId) :
        Except Fault (List Transfer.Fh × Id)) = .ok ([0, 0, 0], 2) := by decide +kernel
  obtain ⟨first, make, rest⟩ := bind_eq_ok.mp evaluated
  obtain ⟨fs, below, rest⟩ := bind_eq_ok.mp rest
  simp only [pure, Except.pure, Except.ok.injEq, Prod.mk.injEq] at rest
  obtain ⟨files, child⟩ := rest
  obtain ⟨firstTree, firstHashes⟩ := made_hashes (format_isTree emptySource directoryStat)
    (format_hashes emptySource directoryStat) make
  obtain ⟨⟨isTree, -⟩, -⟩ := made_hashes firstTree firstHashes below
  exact ⟨first, fs, make, below, by rw [child]; decide,
    removeChildren_frees fs ⟨isTree, .none (by simp [files])⟩ rootId isTree.root⟩

end Metadata
end Mcachefs
