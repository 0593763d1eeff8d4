import Mcachefs.Library.Postorder
import Mcachefs.Metadata.Fetching

namespace Mcachefs
namespace Metadata

open Library

/-!
# The walk over a subtree

What `mcachefs_metadata_fetch_children` is to do is a depth-first walk with a list
of the entries that are still to be visited: `Fetches`.  The code has no such list.
Where its loop is, the list is what the links say: the later siblings of the entry,
of its father, and so on: `Ahead`.  One turn of the loop is one step of the walk,
`fetchTurn_visit`, and so the loop ends where the walk ends, `ends_iff_fetches`.
-/

variable {Hash : Type} [Inhabited Hash] [DecidableEq Hash]

/-- A directory of the source that was opened and read, and whether that succeeded. -/
structure DirectoryRead where
  directory : Id
  succeeded : Bool
  deriving DecidableEq, Repr

namespace Fs

/-- The directory that a turn of `mcachefs_metadata_fetch_children` reads. -/
def readsAt (fs next : Fs Hash) (id : Id) : List DirectoryRead :=
  if (fs.entries id).st.isDir ∧ (fs.entries id).child = .unread then
    [⟨id, decide ((next.entries id).child ≠ .unread)⟩]
  else []

/-- `fetchTurn` with the directories that were read so far. -/
def traceFetchTurn (env : Env Hash) (rootid currentid : Id) (state : Fs Hash × List DirectoryRead) :
    Except Fault (Option Id × Fs Hash × List DirectoryRead) := do
  let turn ← state.1.fetchTurn env rootid currentid
  .ok (turn.1, turn.2, state.2 ++ state.1.readsAt turn.2 currentid)

/-- `mcachefs_metadata_fetch_children` with the directories that it reads. -/
def traceFetchChildren (env : Env Hash) (mroot : Id) (fs : Fs Hash) :
    Except Fault (Fs Hash × List DirectoryRead) :=
  iterate .fuel (traceFetchTurn env mroot) env.fuel mroot (fs, [])

omit [DecidableEq Hash] in
theorem traceFetchChildren_fst (env : Env Hash) (mroot : Id) (fs : Fs Hash) :
    (fs.traceFetchChildren env mroot).map Prod.fst = fs.fetchChildren env mroot := by
  refine iterate_map Prod.fst (fun cursor state => ?_) env.fuel mroot (fs, [])
  unfold traceFetchTurn
  cases state.1.fetchTurn env mroot cursor <;> rfl

end Fs

variable {env : Env Hash} {fs next : Fs Hash}

/-! ## More fuel -/

/-- The same surroundings with another amount of fuel. -/
def Env.withFuel (env : Env Hash) (fuel : Nat) : Env Hash :=
  { env with fuel := fuel }

section Fuel

variable {less more : Nat} {id : Id}

omit [Inhabited Hash] [DecidableEq Hash] in
theorem climb_more {way : List Component × Id} (le : less ≤ more)
    (climbed : fs.climb less id = some way) : fs.climb more id = some way := by
  induction less generalizing more id way with
  | zero =>
      unfold Fs.climb at climbed ⊢
      split at climbed
      · next top => rw [if_pos top]; exact climbed
      · cases climbed
  | succ less inductionHypothesis =>
      obtain ⟨more, rfl⟩ := Nat.exists_eq_add_of_le' (Nat.le_trans (Nat.le_add_left 1 less) le)
      unfold Fs.climb at climbed ⊢
      split at climbed
      · next top => rw [if_pos top]; exact climbed
      · next below =>
          rw [if_neg below]
          simp only at climbed ⊢
          obtain ⟨above, higher, rfl⟩ := Option.map_eq_some_iff.mp climbed
          exact Option.map_eq_some_iff.mpr
            ⟨above, inductionHypothesis (Nat.le_of_succ_le_succ le) higher, rfl⟩

omit [DecidableEq Hash] in
theorem getChild_more {result : Id × Fs Hash} (le : less ≤ more)
    (read : fs.getChild (env.withFuel less) id = .ok result) :
    fs.getChild (env.withFuel more) id = .ok result := by
  unfold Fs.getChild at read ⊢
  split at read
  · exact read
  · exact read
  · next unread =>
      simp only
      split at read
      · next file => rw [if_pos file]; exact read
      · next directory =>
          rw [if_neg directory]
          obtain ⟨des, opened, read⟩ := bind_eq_ok.mp read
          refine bind_eq_ok.mpr ⟨des, ?_, read⟩
          unfold Fs.recurseOpen at opened ⊢
          split at opened
          · cases opened
          · next names top climbed =>
              have higher : fs.climb (env.withFuel more).fuel id = some (names, top) :=
                climb_more le climbed
              rw [higher]
              exact opened

omit [DecidableEq Hash] in
theorem readChildren_more (le : less ≤ more)
    (read : fs.readChildren (env.withFuel less) id = .ok next) :
    fs.readChildren (env.withFuel more) id = .ok next := by
  unfold Fs.readChildren at read ⊢
  split at read
  · next unread =>
      rw [if_pos unread]
      cases result : fs.getChild (env.withFuel less) id with
      | error fault =>
          rw [result] at read
          cases read
      | ok both =>
          rw [getChild_more le result]
          rw [result] at read
          exact read
  · next known =>
      rw [if_neg known]
      exact read

omit [Inhabited Hash] [DecidableEq Hash] in
theorem fetchClimb_more {rootid : Id} {climbed : Option Id} (le : less ≤ more)
    (climbing : fs.fetchClimb rootid less id = .ok climbed) :
    fs.fetchClimb rootid more id = .ok climbed := by
  induction less generalizing more id with
  | zero => cases climbing
  | succ less inductionHypothesis =>
      obtain ⟨more, rfl⟩ := Nat.exists_eq_add_of_le' (Nat.le_trans (Nat.le_add_left 1 less) le)
      unfold Fs.fetchClimb at climbing ⊢
      split at climbing
      · next some => rw [if_pos some]; exact climbing
      · next none =>
          rw [if_neg none]
          split at climbing
          · next top => rw [if_pos top]; exact climbing
          · next notTop =>
              rw [if_neg notTop]
              split at climbing
              · next root => rw [if_pos root]; exact climbing
              · next notRoot =>
                  rw [if_neg notRoot]
                  split at climbing
                  · cases climbing
                  · next above =>
                      rw [if_neg above]
                      exact inductionHypothesis (Nat.le_of_succ_le_succ le) climbing

end Fuel

/-! ## Visits -/

/-- A directory is known to be empty, or has a first child. -/
def HasRead (fs : Fs Hash) (id : Id) : Prop :=
  (fs.entries id).child = .empty ∨ fs.first id ≠ 0

omit [Inhabited Hash] [DecidableEq Hash] in
theorem HasRead.ne_unread {id : Id} (hasRead : HasRead fs id) :
    (fs.entries id).child ≠ .unread := by
  intro unread
  rcases hasRead with empty | some
  · rw [unread] at empty
    cases empty
  · rw [Fs.first, unread] at some
    exact some rfl

/-- An entry is visited.  A directory is read, unless that was done before, and is
then empty or has the children `kids`. -/
inductive Visit (env : Env Hash) (fs : Fs Hash) (id : Id) : Fs Hash -> List Id -> Prop
  | file (notDir : ¬ (fs.entries id).st.isDir = true) : Visit env fs id fs []
  | directory {next : Fs Hash} {kids : List Id} (isDir : (fs.entries id).st.isDir = true)
      (read : Returns (fun fuel => fs.readChildren (env.withFuel fuel) id) next)
      (known : HasRead next id)
      (list : Segment next.next (next.first id) kids 0) : Visit env fs id next kids

/-- What a visit does. -/
structure VisitDone (fs : Fs Hash) (id : Id) (next : Fs Hash) (kids : List Id) : Prop where
  isTree : IsTree next
  stays : forall other, other ∈ fs.index -> Stays fs next other
  next_eq : forall other, other ∈ fs.index -> next.next other = fs.next other
  others : forall other, other ∈ fs.index -> other ≠ id -> next.entries other = fs.entries other
  fresh : forall other, other ∈ next.index -> other ∈ fs.index ∨
    (fs.entries id).child = .unread ∧ (fs.entries id).st.isDir = true ∧ next.father other = id
  mem_kids : (fs.entries id).st.isDir = true ->
    forall kid, kid ∈ kids ↔ kid ∈ next.index ∧ next.father kid = id
  known : (fs.entries id).st.isDir = true -> HasRead next id
  same : (fs.entries id).child ≠ .unread -> next = fs

section Visit

variable {id : Id} {kids : List Id}

omit [DecidableEq Hash] in
theorem IsTree.mem_list (isTree : IsTree fs) (linked : id ∈ fs.index)
    (list : Segment fs.next (fs.first id) kids 0) (kid : Id) :
    kid ∈ kids ↔ kid ∈ fs.index ∧ fs.father kid = id := by
  obtain ⟨lists, free, tree⟩ := isTree
  have isNode := tree.mem_index.mp linked
  rw [list.unique (tree.shape.forest.list id isNode), tree.mem_index]
  constructor
  · intro member
    obtain ⟨kidNode, -, link⟩ := tree.child isNode member
    exact ⟨kidNode, link⟩
  · rintro ⟨kidNode, rfl⟩
    have notRoot : kid ≠ rootId := by
      rintro rfl
      exact tree.some isNode tree.shape.rootFather
    exact (tree.listed kidNode notRoot).2

omit [DecidableEq Hash] in
theorem getChild_links {child : Id} (isTree : IsTree fs) (linked : id ∈ fs.index)
    (read : fs.getChild env id = .ok (child, next)) :
    (forall other, other ∈ fs.index -> next.next other = fs.next other) ∧
      forall other, other ∈ fs.index -> other ≠ id -> next.entries other = fs.entries other := by
  obtain ⟨lists, free, tree⟩ := isTree
  obtain ⟨-, same | ⟨-, -, -, _, _, _, -, -, rest, new, grown⟩⟩ :=
    tree.getChild (tree.mem_index.mp linked) read
  · rw [same]
    exact ⟨fun _ _ => rfl, fun _ _ _ => rfl⟩
  · have kept : forall other, other ∈ fs.index -> other ≠ id ->
        next.entries other = fs.entries other := fun other old =>
      grown.kept other (tree.mem_index.mp old)
    refine ⟨fun other old => ?_, kept⟩
    by_cases here : other = id
    · rw [here]
      exact (congrArg Entry.next grown.above).trans rfl
    · exact congrArg Entry.next (kept other old here)

omit [DecidableEq Hash] in
theorem Visit.done (visit : Visit env fs id next kids) (isTree : IsTree fs)
    (linked : id ∈ fs.index) : VisitDone fs id next kids := by
  cases visit with
  | file notDir =>
      exact ⟨isTree, fun _ old => ⟨old, .refl _, fun _ => rfl⟩, fun _ _ => rfl, fun _ _ _ => rfl,
        fun _ there => Or.inl there, fun isDir => absurd isDir notDir,
        fun isDir => absurd isDir notDir, fun _ => rfl⟩
  | directory isDir read known list =>
      obtain ⟨fuel, read⟩ := read
      have read : fs.readChildren (env.withFuel fuel) id = .ok next := read fuel le_rfl
      unfold Fs.readChildren at read
      split at read
      · next unread =>
          cases result : fs.getChild (env.withFuel fuel) id with
          | error fault =>
              rw [result] at read
              cases read
          | ok both =>
              rw [result] at read
              obtain rfl := Except.ok.inj read
              have stays : forall other, other ∈ fs.index -> Stays fs both.2 other := fun _ old =>
                getChild_stays isTree linked result old
              have nextTree := getChild_isTree isTree linked result
              obtain ⟨links, others⟩ := getChild_links isTree linked result
              refine ⟨nextTree, stays, links, others, fun other there => ?_,
                fun _ => nextTree.mem_list (stays id linked).linked list, fun _ => known,
                fun read => absurd unread read⟩
              rcases getChild_fresh isTree linked result there with old | ⟨-, -, -, above, -⟩
              · exact Or.inl old
              · exact Or.inr ⟨unread, isDir, above⟩
      · obtain rfl := Except.ok.inj read
        exact ⟨isTree, fun _ old => ⟨old, .refl _, fun _ => rfl⟩, fun _ _ => rfl, fun _ _ _ => rfl,
          fun _ there => Or.inl there, fun _ => isTree.mem_list linked list, fun _ => known,
          fun _ => rfl⟩

end Visit

/-- Entries are visited one after the other, and the children of each before what
follows it; `reads` are the directories that are read. -/
inductive Fetches (env : Env Hash) : List Id -> Fs Hash -> List DirectoryRead -> Fs Hash -> Prop
  | nil {fs : Fs Hash} : Fetches env [] fs [] fs
  | cons {id : Id} {ids kids : List Id} {fs next last : Fs Hash} {reads : List DirectoryRead}
      (visit : Visit env fs id next kids) (rest : Fetches env (kids ++ ids) next reads last) :
      Fetches env (id :: ids) fs (fs.readsAt next id ++ reads) last

/-! ## What is ahead -/

/-- What follows an entry in a walk below `stop`: its later siblings, those of its
father, and so on up to a child of `stop` or of the root. -/
inductive Ahead (fs : Fs Hash) (stop : Id) : Id -> List Id -> Prop
  | last {id : Id} {later : List Id} (list : Segment fs.next (fs.next id) later 0)
      (top : fs.father id = stop ∨ fs.father id = rootId) : Ahead fs stop id later
  | up {id : Id} {later above : List Id} (list : Segment fs.next (fs.next id) later 0)
      (notStop : fs.father id ≠ stop) (notRoot : fs.father id ≠ rootId) (some : fs.father id ≠ 0)
      (rest : Ahead fs stop (fs.father id) above) : Ahead fs stop id (later ++ above)

section Ahead

variable {stop id other : Id} {later ahead : List Id}

omit [DecidableEq Hash] in
/-- The later siblings of an entry, in the list of its father. -/
theorem IsTree.exists_later (isTree : IsTree fs) (linked : id ∈ fs.index) (notRoot : id ≠ rootId) :
    Exists fun later => Segment fs.next (fs.next id) later 0 ∧
      forall other, other ∈ later -> other ≠ id ∧ other ∈ fs.index ∧ fs.father other = fs.father id := by
  obtain ⟨kids, free, tree⟩ := isTree
  obtain ⟨fatherNode, member⟩ := tree.listed (tree.mem_index.mp linked) notRoot
  have list := tree.shape.forest.list _ fatherNode
  have nodup := list.nodup
  obtain ⟨before, later, split⟩ := List.append_of_mem member
  rw [split] at list nodup
  obtain ⟨-, -, rest⟩ := list.suffix.cons_inv
  refine ⟨later, rest, fun other inLater => ?_⟩
  have inKids : other ∈ kids (fs.father id) := by
    rw [split]
    exact List.mem_append_right _ (List.mem_cons_of_mem _ inLater)
  obtain ⟨otherNode, -, link⟩ := tree.child fatherNode inKids
  refine ⟨?_, tree.mem_index.mpr otherNode, link⟩
  rintro rfl
  exact (List.nodup_cons.mp (List.nodup_append.mp nodup).2.1).1 inLater

omit [DecidableEq Hash] in
theorem mem_later (isTree : IsTree fs) (linked : id ∈ fs.index) (notRoot : id ≠ rootId)
    (list : Segment fs.next (fs.next id) later 0) (member : other ∈ later) :
    other ≠ id ∧ other ∈ fs.index ∧ fs.father other = fs.father id := by
  obtain ⟨same, sameList, all⟩ := isTree.exists_later linked notRoot
  exact all other (list.unique sameList ▸ member)

omit [DecidableEq Hash] in
theorem Ahead.notRoot (isAhead : Ahead fs stop id ahead) (isTree : IsTree fs)
    (stopSome : stop ≠ 0) : id ≠ rootId := by
  rintro rfl
  have none := (isTree.father_eq_zero isTree.root).mpr rfl
  cases isAhead with
  | last _ top =>
      rcases top with isStop | isRoot
      · exact stopSome (isStop.symm.trans none)
      · exact absurd (isRoot.symm.trans none) (by decide)
  | up _ _ _ some _ => exact some none

omit [DecidableEq Hash] in
theorem exists_ahead (isTree : IsTree fs) (linked : id ∈ fs.index) (notRoot : id ≠ rootId)
    (stop : Id) : Exists fun ahead => Ahead fs stop id ahead := by
  have climbs : Climbs fs.father rootId id := by
    obtain ⟨kids, free, tree⟩ := isTree
    exact tree.shape.forest.climbs_root (fun _ _ => top_none) (tree.mem_index.mp linked)
  induction climbs with
  | here => exact absurd rfl notRoot
  | @up id some _ inductionHypothesis =>
      obtain ⟨later, list, -⟩ := isTree.exists_later linked notRoot
      by_cases isStop : fs.father id = stop
      · exact ⟨later, .last list (Or.inl isStop)⟩
      · by_cases isRoot : fs.father id = rootId
        · exact ⟨later, .last list (Or.inr isRoot)⟩
        · obtain ⟨above, rest⟩ := inductionHypothesis (isTree.father linked notRoot) isRoot
          exact ⟨later ++ above, .up list isStop isRoot some rest⟩

omit [DecidableEq Hash] in
/-- Only the links of linked entries matter. -/
theorem Ahead.congr (isAhead : Ahead fs stop id ahead) (isTree : IsTree fs)
    (linked : id ∈ fs.index) (stopSome : stop ≠ 0)
    (fathers : forall other, other ∈ fs.index -> next.father other = fs.father other)
    (nexts : forall other, other ∈ fs.index -> next.next other = fs.next other) :
    Ahead next stop id ahead := by
  induction isAhead with
  | @last id later list top =>
      have notRoot := (Ahead.last list top).notRoot isTree stopSome
      refine .last ?_ (by rwa [fathers id linked])
      rw [nexts id linked]
      exact list.congr fun other member => nexts other (mem_later isTree linked notRoot list member).2.1
  | @up id later above list notStop notRoot some rest inductionHypothesis =>
      have below : id ≠ rootId := (Ahead.up list notStop notRoot some rest).notRoot isTree stopSome
      have same := fathers id linked
      refine .up ?_ (same.symm ▸ notStop) (same.symm ▸ notRoot) (same.symm ▸ some)
        (same.symm ▸ inductionHypothesis (isTree.father linked below))
      rw [nexts id linked]
      exact list.congr fun other member => nexts other (mem_later isTree linked below list member).2.1

omit [Inhabited Hash] [DecidableEq Hash] in
theorem Ahead.unique {others : List Id} (isAhead : Ahead fs stop id ahead)
    (isOther : Ahead fs stop id others) : others = ahead := by
  induction isAhead generalizing others with
  | last list top =>
      cases isOther with
      | last same _ => exact same.unique list
      | up _ notStop notRoot _ _ => exact absurd top (not_or.mpr ⟨notStop, notRoot⟩)
  | up list notStop notRoot _ _ inductionHypothesis =>
      cases isOther with
      | last _ top => exact absurd top (not_or.mpr ⟨notStop, notRoot⟩)
      | up same _ _ _ rest => rw [same.unique list, inductionHypothesis rest]

omit [DecidableEq Hash] in
/-- What is ahead of an entry is a sibling of it or of an entry above it. -/
theorem Ahead.mem (isAhead : Ahead fs stop id ahead) (isTree : IsTree fs) (linked : id ∈ fs.index)
    (stopSome : stop ≠ 0) (member : other ∈ ahead) :
    Exists fun above => Climbs fs.father above id ∧ above ∈ fs.index ∧ above ≠ rootId ∧
      other ≠ above ∧ other ∈ fs.index ∧ fs.father other = fs.father above := by
  induction isAhead with
  | @last id later list top =>
      have notRoot := (Ahead.last list top).notRoot isTree stopSome
      exact ⟨id, .here, linked, notRoot, mem_later isTree linked notRoot list member⟩
  | @up id later above list notStop notRoot some rest inductionHypothesis =>
      have below : id ≠ rootId := (Ahead.up list notStop notRoot some rest).notRoot isTree stopSome
      rcases List.mem_append.mp member with inLater | inAbove
      · exact ⟨id, .here, linked, below, mem_later isTree linked below list inLater⟩
      · obtain ⟨higher, climbs, rest⟩ := inductionHypothesis (isTree.father linked below) inAbove
        exact ⟨higher, .up some climbs, rest⟩

omit [DecidableEq Hash] in
/-- Nothing ahead of an entry is above something that the entry is above. -/
theorem Ahead.apart (isAhead : Ahead fs stop id ahead) (isTree : IsTree fs) (linked : id ∈ fs.index)
    (stopSome : stop ≠ 0) (member : other ∈ ahead) {lower : Id} (below : Climbs fs.father id lower) :
    ¬ Climbs fs.father other lower := by
  obtain ⟨above, climbs, aboveLinked, notRoot, different, otherLinked, sibling⟩ :=
    isAhead.mem isTree linked stopSome member
  obtain ⟨kids, free, tree⟩ := isTree
  obtain ⟨fatherNode, aboveIn⟩ := tree.listed (tree.mem_index.mp aboveLinked) notRoot
  have otherRoot : other ≠ rootId := by
    rintro rfl
    exact tree.some fatherNode (sibling.symm.trans tree.shape.rootFather)
  have otherIn := (tree.listed (tree.mem_index.mp otherLinked) otherRoot).2
  rw [sibling] at otherIn
  exact fun lowerClimbs => different (tree.shape.forest.siblings_apart tree.shape.tops fatherNode
    otherIn aboveIn lowerClimbs (climbs.trans below))

end Ahead

/-! ## One turn -/

section Turn

variable {stop id : Id} {ahead kids : List Id} {reads : List DirectoryRead}

omit [Inhabited Hash] [DecidableEq Hash] in
theorem fetchClimb_up {climbed : Option Id} (last : fs.next id = 0)
    (notStop : fs.father id ≠ stop) (notRoot : fs.father id ≠ rootId) (some : fs.father id ≠ 0)
    (above : Returns (fun fuel => fs.fetchClimb stop fuel (fs.father id)) climbed) :
    Returns (fun fuel => fs.fetchClimb stop fuel id) climbed := by
  obtain ⟨enough, above⟩ := above
  refine ⟨enough + 1, fun fuel large => ?_⟩
  obtain ⟨fuel, rfl⟩ := Nat.exists_eq_add_of_le' (Nat.le_trans (Nat.le_add_left 1 enough) large)
  simp only
  rw [Fs.fetchClimb, if_neg (not_not.mpr last), if_neg notStop, if_neg notRoot, if_neg some]
  exact above fuel (Nat.le_of_succ_le_succ large)

omit [DecidableEq Hash] in
/-- The inner loop goes to the first entry that is ahead. -/
theorem Ahead.climb (isAhead : Ahead fs stop id ahead) (isTree : IsTree fs) (linked : id ∈ fs.index)
    (stopSome : stop ≠ 0) :
    (ahead = [] -> Returns (fun fuel => fs.fetchClimb stop fuel id) none) ∧
      forall other rest, ahead = other :: rest -> Exists fun current =>
        Returns (fun fuel => fs.fetchClimb stop fuel id) (some current) ∧
          (current = id ∨ current ≠ stop) ∧ fs.next current = other ∧ other ≠ 0 ∧
          other ∈ fs.index ∧ Ahead fs stop other rest := by
  have here : forall id other, fs.next id = other -> other ≠ 0 ->
      Returns (fun fuel => fs.fetchClimb stop fuel id) (some id) := by
    rintro id other rfl present
    refine ⟨1, fun fuel large => ?_⟩
    obtain ⟨fuel, rfl⟩ := Nat.exists_eq_add_of_le' large
    simp only
    rw [Fs.fetchClimb, if_pos present]
  induction isAhead with
  | @last id later list top =>
      have notRoot := (Ahead.last list top).notRoot isTree stopSome
      constructor
      · rintro rfl
        refine ⟨1, fun fuel large => ?_⟩
        obtain ⟨fuel, rfl⟩ := Nat.exists_eq_add_of_le' large
        simp only
        rw [Fs.fetchClimb, if_neg (not_not.mpr list.nil_inv)]
        rcases top with isStop | isRoot
        · rw [if_pos isStop]
        · rw [if_pos isRoot, ite_self]
      · rintro other rest rfl
        obtain ⟨head, some, tail⟩ := list.cons_inv
        obtain ⟨-, otherLinked, sibling⟩ :=
          mem_later isTree linked notRoot list List.mem_cons_self
        exact ⟨id, here id other head some, Or.inl rfl, head, some, otherLinked,
          .last tail (sibling.symm ▸ top)⟩
  | @up id later above list notStop notRoot some rest inductionHypothesis =>
      have below : id ≠ rootId := (Ahead.up list notStop notRoot some rest).notRoot isTree stopSome
      obtain ⟨nothing, first⟩ := inductionHypothesis (isTree.father linked below)
      cases later with
      | nil =>
          have last := list.nil_inv
          constructor
          · exact fun none => fetchClimb_up last notStop notRoot some (nothing none)
          · intro other rest same
            obtain ⟨current, climbs, place, found⟩ := first other rest same
            refine ⟨current, fetchClimb_up last notStop notRoot some climbs, Or.inr ?_, found⟩
            rcases place with isFather | notStop
            · exact isFather ▸ notStop
            · exact notStop
      | cons sibling later =>
          obtain ⟨head, present, tail⟩ := list.cons_inv
          obtain ⟨-, siblingLinked, link⟩ := mem_later isTree linked below list List.mem_cons_self
          constructor
          · intro none
            cases none
          · intro other rest same
            obtain ⟨rfl, rfl⟩ := List.cons.inj same
            exact ⟨id, here id sibling head present, Or.inl rfl, head, present, siblingLinked,
              .up tail (link.symm ▸ notStop) (link.symm ▸ notRoot) (link.symm ▸ some)
                (link.symm ▸ rest)⟩

/-- A turn of the loop, with enough fuel. -/
def FetchTurn (env : Env Hash) (mroot currentid : Id) (state : Fs Hash × List DirectoryRead)
    (result : Option Id × Fs Hash × List DirectoryRead) : Prop :=
  Returns (fun fuel => Fs.traceFetchTurn (env.withFuel fuel) mroot currentid state) result

omit [DecidableEq Hash] in
theorem FetchTurn.ofTurn {more : Option Id}
    (turn : Returns (fun fuel => fs.fetchTurn (env.withFuel fuel) stop id) (more, next)) :
    FetchTurn env stop id (fs, reads) (more, next, reads ++ fs.readsAt next id) := by
  obtain ⟨enough, turn⟩ := turn
  refine ⟨enough, fun fuel large => ?_⟩
  have taken : fs.fetchTurn (env.withFuel fuel) stop id = .ok (more, next) := turn fuel large
  simp only [Fs.traceFetchTurn, taken]
  rfl

omit [DecidableEq Hash] in
/-- The loop goes down into a directory with children. -/
theorem Visit.turnDown {child : Id} {rest : List Id} (visit : Visit env fs id next (child :: rest))
    (reads : List DirectoryRead) (inside : id ≠ 0) :
    FetchTurn env stop id (fs, reads) (some child, next, reads ++ fs.readsAt next id) := by
  refine .ofTurn ?_
  cases visit with
  | directory isDir read known list =>
      obtain ⟨enough, read⟩ := read
      obtain ⟨head, present, -⟩ := list.cons_inv
      have notEmpty : (next.entries id).child ≠ .empty := by
        intro empty
        rw [Fs.first, empty] at head
        exact present head.symm
      refine ⟨enough, fun fuel large => ?_⟩
      have now : fs.readChildren (env.withFuel fuel) id = .ok next := read fuel large
      simp only [Fs.fetchTurn, if_neg inside, if_pos isDir, now, bind, Except.bind]
      rw [if_pos ⟨isDir, notEmpty⟩, head]

omit [DecidableEq Hash] in
/-- The entry is read, if it is a directory. -/
theorem Visit.read (visit : Visit env fs id next kids) :
    Returns (fun fuel => if (fs.entries id).st.isDir = true then
      fs.readChildren (env.withFuel fuel) id else .ok fs) next := by
  cases visit with
  | file notDir => exact ⟨0, fun _ _ => if_neg notDir⟩
  | directory isDir read known list =>
      obtain ⟨enough, read⟩ := read
      exact ⟨enough, fun fuel large => (if_pos isDir).trans (read fuel large)⟩

omit [DecidableEq Hash] in
theorem Visit.leaf (visit : Visit env fs id next []) :
    ¬ ((fs.entries id).st.isDir = true ∧ (next.entries id).child ≠ .empty) := by
  rintro ⟨isDir, notEmpty⟩
  cases visit with
  | file notDir => exact notDir isDir
  | directory isDir read known list =>
      exact known.elim notEmpty fun present => present list.nil_inv

omit [DecidableEq Hash] in
/-- The loop goes on from anything else. -/
theorem Visit.turnOn {climbed : Option Id} (visit : Visit env fs id next [])
    (reads : List DirectoryRead) (inside : id ≠ 0)
    (climbs : Returns (fun fuel => next.fetchClimb stop fuel id) climbed) :
    FetchTurn env stop id (fs, reads)
      (climbed.bind fun current => if current = stop then none else some (next.next current),
        next, reads ++ fs.readsAt next id) := by
  refine .ofTurn ?_
  have leaf := visit.leaf
  obtain ⟨enough, read⟩ := visit.read
  simp only at read
  obtain ⟨more, climbs⟩ := climbs
  refine ⟨max enough more, fun fuel large => ?_⟩
  have way : next.fetchClimb stop (env.withFuel fuel).fuel id = .ok climbed :=
    climbs fuel (le_trans (le_max_right _ _) large)
  simp only [Fs.fetchTurn, if_neg inside, read fuel (le_trans (le_max_left _ _) large), bind,
    Except.bind]
  rw [if_neg leaf, way]
  cases climbed with
  | none => rfl
  | some current =>
      simp only [Option.bind_some]
      split <;> rfl

omit [DecidableEq Hash] in
/-- A turn that does not lead to the null entry visits the entry. -/
theorem FetchTurn.visit {state : Fs Hash × List DirectoryRead} {more : Option Id}
    {final : Fs Hash × List DirectoryRead} (turn : FetchTurn env stop id state (more, final))
    (isTree : IsTree state.1) (linked : id ∈ state.1.index) (notNull : more ≠ some 0) :
    Exists fun kids => Visit env state.1 id final.1 kids := by
  obtain ⟨enough, turn⟩ := turn
  obtain ⟨⟨other, next⟩, taken, same⟩ := bind_eq_ok.mp (turn enough le_rfl)
  obtain ⟨rfl, rfl⟩ := Prod.mk.inj (Except.ok.inj same)
  obtain ⟨present, read, way⟩ := fetchTurn_cases taken
  split at read
  · next isDir =>
      have nextTree := ((readChildren_populated linked read).1).isTree isTree
      have there := ((readChildren_populated linked read).1.stays isTree linked).linked
      obtain ⟨kids, free, tree⟩ := nextTree
      refine ⟨kids id, .directory isDir ⟨enough, fun fuel large => readChildren_more large read⟩ ?_
        (tree.shape.forest.list id (tree.mem_index.mp there))⟩
      rcases way with ⟨-, -, rfl⟩ | ⟨leaf, -⟩
      · exact Or.inr fun none => notNull (congrArg some none)
      · by_contra unknown
        exact leaf ⟨isDir, fun empty => unknown (Or.inl empty)⟩
  · next notDir =>
      obtain rfl := Except.ok.inj read
      exact ⟨[], .file notDir⟩

omit [DecidableEq Hash] in
/-- The loop does not get past the null entry. -/
theorem not_fetchTurn_null {state : Fs Hash × List DirectoryRead}
    {result : Option Id × Fs Hash × List DirectoryRead} : ¬ FetchTurn env stop 0 state result := by
  rintro ⟨enough, turn⟩
  cases turn enough le_rfl

omit [DecidableEq Hash] in
/-- A turn is one step of the walk. -/
theorem Visit.turn (visit : Visit env fs id next kids) (reads : List DirectoryRead)
    (isTree : IsTree fs) (linked : id ∈ fs.index) (stopSome : stop ≠ 0) (apart : id ≠ stop) (isAhead : Ahead fs stop id ahead) :
    (kids ++ ahead = [] ->
      FetchTurn env stop id (fs, reads) (none, next, reads ++ fs.readsAt next id)) ∧
      forall other rest, kids ++ ahead = other :: rest ->
        FetchTurn env stop id (fs, reads) (some other, next, reads ++ fs.readsAt next id) ∧
          other ∈ next.index ∧ Ahead next stop other rest := by
  have done := visit.done isTree linked
  have inside := isTree.ne_zero linked
  have notRoot := isAhead.notRoot isTree stopSome
  have still : Ahead next stop id ahead := isAhead.congr isTree linked stopSome
    (fun other old => (done.stays other old).alike.father) done.next_eq
  have there := (done.stays id linked).linked
  cases kids with
  | nil =>
      obtain ⟨nothing, first⟩ := still.climb done.isTree there stopSome
      constructor
      · exact fun none => visit.turnOn reads inside (nothing none)
      · intro other rest same
        obtain ⟨current, climbs, place, follows, -, otherLinked, isAhead⟩ := first other rest same
        have notStop : current ≠ stop := place.elim (fun here => here ▸ apart) fun notStop => notStop
        refine ⟨?_, otherLinked, isAhead⟩
        have turn := visit.turnOn reads inside climbs
        rwa [Option.bind_some, if_neg notStop, follows] at turn
  | cons kid kids =>
      constructor
      · intro none
        cases none
      · intro other rest same
        obtain ⟨rfl, rfl⟩ := List.cons.inj same
        cases visit with
        | directory isDir read known list =>
            obtain ⟨kidLinked, link⟩ := (done.mem_kids isDir kid).mp List.mem_cons_self
            obtain ⟨head, -, tail⟩ := list.cons_inv
            have visit : Visit env fs id next (kid :: kids) := .directory isDir read known list
            exact ⟨visit.turnDown reads inside, kidLinked, .up tail (link.symm ▸ apart)
              (link.symm ▸ notRoot) (link.symm ▸ inside) (link.symm ▸ still)⟩

end Turn

/-! ## The whole walk -/

/-- None of the entries is at or above `stop`. -/
def Away (fs : Fs Hash) (stop : Id) (ids : List Id) : Prop :=
  forall id, id ∈ ids -> ¬ Climbs fs.father id stop

section Walk

variable {stop id : Id} {ahead kids : List Id}

omit [DecidableEq Hash] in
theorem Away.visit (away : Away fs stop (id :: ahead)) (isTree : IsTree fs)
    (stopLinked : stop ∈ fs.index) (linked : id ∈ fs.index) (visit : Visit env fs id next kids) :
    Away next stop (kids ++ ahead) := by
  have done := visit.done isTree linked
  have upward : forall other, Climbs next.father other stop ↔ Climbs fs.father other stop :=
    fun other => climbs_stays isTree (fun id old => (done.stays id old).alike.father) stopLinked
  intro other member climbs
  rcases List.mem_append.mp member with inKids | inAhead
  · cases visit with
    | file notDir => cases inKids
    | directory isDir read known list =>
        obtain ⟨-, link⟩ := (done.mem_kids isDir other).mp inKids
        have step : Climbs next.father id other := by
          refine .up ?_ ?_
          · exact link.symm ▸ isTree.ne_zero linked
          · exact link.symm ▸ .here
        exact away id List.mem_cons_self ((upward id).mp (step.trans climbs))
  · exact away other (List.mem_cons_of_mem id inAhead) ((upward other).mp climbs)

omit [DecidableEq Hash] in
/-- Where the loop ends, the walk has ended. -/
theorem fetches_of_ends {state final : Fs Hash × List DirectoryRead}
    (ends : Ends (fun fuel => Fs.traceFetchTurn (env.withFuel fuel) stop) id state final)
    (isTree : IsTree state.1) (stopLinked : stop ∈ state.1.index) (linked : id ∈ state.1.index)
    (isAhead : Ahead state.1 stop id ahead) (away : Away state.1 stop (id :: ahead)) :
    Exists fun reads => Fetches env (id :: ahead) state.1 reads final.1 ∧
      final.2 = state.2 ++ reads := by
  have stopSome := isTree.ne_zero stopLinked
  induction ends generalizing ahead with
  | @last id state next taken =>
      obtain ⟨kids, visit⟩ := FetchTurn.visit taken isTree linked (Option.some_ne_none 0).symm
      have apart : id ≠ stop := fun same => away id List.mem_cons_self (same ▸ .here)
      obtain ⟨nothing, first⟩ := visit.turn state.2 isTree linked stopSome apart isAhead
      cases left : kids ++ ahead with
      | nil =>
          obtain ⟨-, same⟩ := Prod.mk.inj (taken.unique (nothing left))
          refine ⟨state.1.readsAt next.1 id ++ [], .cons visit (left ▸ .nil), ?_⟩
          rw [same, List.append_nil]
      | cons other rest =>
          obtain ⟨more, -⟩ := Prod.mk.inj (taken.unique (first other rest left).1)
          cases more
  | @turn id other state middle next taken rest inductionHypothesis =>
      have notNull : some other ≠ some 0 := by
        intro null
        obtain rfl := Option.some.inj null
        cases rest with
        | last taken => exact not_fetchTurn_null taken
        | turn taken _ => exact not_fetchTurn_null taken
      obtain ⟨kids, visit⟩ := FetchTurn.visit taken isTree linked notNull
      have apart : id ≠ stop := fun same => away id List.mem_cons_self (same ▸ .here)
      obtain ⟨nothing, first⟩ := visit.turn state.2 isTree linked stopSome apart isAhead
      cases left : kids ++ ahead with
      | nil =>
          obtain ⟨more, -⟩ := Prod.mk.inj (taken.unique (nothing left))
          cases more
      | cons head tail =>
          obtain ⟨turn, headLinked, further⟩ := first head tail left
          obtain ⟨more, same⟩ := Prod.mk.inj (taken.unique turn)
          obtain rfl := Option.some.inj more
          have done := visit.done isTree linked
          obtain ⟨reads, fetches, all⟩ := inductionHypothesis done.isTree
            (done.stays stop stopLinked).linked headLinked further
            (left ▸ away.visit isTree stopLinked linked visit)
          refine ⟨_, .cons visit (left ▸ fetches), ?_⟩
          rw [all, same, List.append_assoc]

omit [DecidableEq Hash] in
/-- The loop ends where the walk does. -/
theorem Fetches.ends {ids : List Id} {reads before : List DirectoryRead} {last : Fs Hash}
    (fetches : Fetches env ids fs reads last) (same : ids = id :: ahead)
    (isTree : IsTree fs) (stopLinked : stop ∈ fs.index) (linked : id ∈ fs.index)
    (isAhead : Ahead fs stop id ahead) (away : Away fs stop (id :: ahead)) :
    Ends (fun fuel => Fs.traceFetchTurn (env.withFuel fuel) stop) id (fs, before)
      (last, before ++ reads) := by
  have stopSome := isTree.ne_zero stopLinked
  induction fetches generalizing id ahead before with
  | nil => cases same
  | @cons other ids kids fs next last reads visit rest inductionHypothesis =>
      obtain ⟨rfl, rfl⟩ := List.cons.inj same
      have apart : other ≠ stop := fun same => away other List.mem_cons_self (same ▸ .here)
      obtain ⟨nothing, first⟩ := visit.turn before isTree linked stopSome apart isAhead
      have done := visit.done isTree linked
      cases left : kids ++ ids with
      | nil =>
          rw [left] at rest
          cases rest with
          | nil =>
              rw [List.append_nil]
              exact .last (nothing left)
      | cons head tail =>
          obtain ⟨turn, headLinked, further⟩ := first head tail left
          rw [← List.append_assoc]
          exact .turn turn (inductionHypothesis left done.isTree (done.stays stop stopLinked).linked
            headLinked further (left ▸ away.visit isTree stopLinked linked visit))

omit [DecidableEq Hash] in
/-- The stackless loop is the walk, from an entry on that is not at or above `stop`. -/
theorem ends_iff_fetches {before all : List DirectoryRead} {last : Fs Hash} (isTree : IsTree fs)
    (stopLinked : stop ∈ fs.index) (linked : id ∈ fs.index) (isAhead : Ahead fs stop id ahead)
    (away : Away fs stop (id :: ahead)) :
    Ends (fun fuel => Fs.traceFetchTurn (env.withFuel fuel) stop) id (fs, before) (last, all) ↔
      Exists fun reads => Fetches env (id :: ahead) fs reads last ∧ all = before ++ reads := by
  constructor
  · exact fun ends => fetches_of_ends ends isTree stopLinked linked isAhead away
  · rintro ⟨reads, fetches, rfl⟩
    exact fetches.ends rfl isTree stopLinked linked isAhead away

end Walk

/-! ## The first turn -/

section First

variable {mroot : Id} {kids : List Id}

omit [DecidableEq Hash] in
theorem fetchTurn_more {less more currentid : Id} {result : Option Id × Fs Hash} (le : less ≤ more)
    (turn : fs.fetchTurn (env.withFuel less) mroot currentid = .ok result) :
    fs.fetchTurn (env.withFuel more) mroot currentid = .ok result := by
  unfold Fs.fetchTurn at turn ⊢
  split at turn
  · cases turn
  · next present =>
      rw [if_neg present]
      obtain ⟨next, read, turn⟩ := bind_eq_ok.mp turn
      refine bind_eq_ok.mpr ⟨next, ?_, ?_⟩
      · split at read
        · next isDir =>
            rw [if_pos isDir]
            exact readChildren_more le read
        · next file =>
            rw [if_neg file]
            exact read
      · split at turn
        · next down =>
            rw [if_pos down]
            exact turn
        · next leaf =>
            rw [if_neg leaf]
            obtain ⟨climbed, climbing, turn⟩ := bind_eq_ok.mp turn
            exact bind_eq_ok.mpr ⟨climbed, fetchClimb_more le climbing, turn⟩

omit [DecidableEq Hash] in
/-- The loop returns what it ends with. -/
theorem returns_traceFetchChildren_iff {final : Fs Hash × List DirectoryRead} :
    Returns (fun fuel => fs.traceFetchChildren (env.withFuel fuel) mroot) final ↔
      Ends (fun fuel => Fs.traceFetchTurn (env.withFuel fuel) mroot) mroot (fs, []) final := by
  refine returns_iterate_iff fun less cursor state result turn => ⟨less, fun more le => ?_⟩
  obtain ⟨taken, first, last⟩ := bind_eq_ok.mp turn
  exact bind_eq_ok.mpr ⟨taken, fetchTurn_more le first, last⟩

omit [DecidableEq Hash] in
/-- The walk from the entry itself begins with a visit of it. -/
theorem visit_of_ends {final : Fs Hash × List DirectoryRead}
    (ends : Ends (fun fuel => Fs.traceFetchTurn (env.withFuel fuel) mroot) mroot (fs, []) final)
    (isTree : IsTree fs) (linked : mroot ∈ fs.index) :
    Exists fun next => Exists fun kids => Visit env fs mroot next kids := by
  cases ends with
  | last taken =>
      exact ⟨_, FetchTurn.visit taken isTree linked (Option.some_ne_none 0).symm⟩
  | @turn _ other _ middle _ taken rest =>
      refine ⟨_, FetchTurn.visit taken isTree linked fun null => ?_⟩
      obtain rfl := Option.some.inj null
      cases rest with
      | last taken => exact not_fetchTurn_null taken
      | turn taken _ => exact not_fetchTurn_null taken

omit [DecidableEq Hash] in
/-- There is no way on from a root without children. -/
theorem not_ends_root {final : Fs Hash × List DirectoryRead} {next : Fs Hash}
    (visit : Visit env fs rootId next []) (isTree : IsTree fs) :
    ¬ Ends (fun fuel => Fs.traceFetchTurn (env.withFuel fuel) rootId) rootId (fs, []) final := by
  have done := visit.done isTree isTree.root
  obtain ⟨kids, free, tree⟩ := done.isTree
  have stuck : forall fuel climbed, next.fetchClimb rootId fuel rootId ≠ .ok climbed := by
    intro fuel climbed climbing
    cases fuel with
    | zero => cases climbing
    | succ fuel =>
        rw [Fs.fetchClimb, if_neg (not_not.mpr tree.shape.rootNext), tree.shape.rootFather,
          if_neg (by decide), if_neg (by decide), if_pos rfl] at climbing
        cases climbing
  have noTurn : forall more after, ¬ FetchTurn env rootId rootId (fs, []) (more, after) := by
    rintro more after ⟨enough, turn⟩
    obtain ⟨most, read⟩ := visit.read
    have taken := turn (max enough most) (le_max_left _ _)
    obtain ⟨⟨other, same⟩, taken, -⟩ := bind_eq_ok.mp taken
    obtain ⟨-, again, way⟩ := fetchTurn_cases taken
    obtain rfl : next = same :=
      Except.ok.inj ((read (max enough most) (le_max_right _ _)).symm.trans again)
    rcases way with ⟨isDir, notEmpty, -⟩ | ⟨-, climbed, climbing, -⟩
    · exact visit.leaf ⟨isDir, notEmpty⟩
    · exact stuck _ climbed climbing
  intro ends
  cases ends with
  | last taken => exact noTurn _ _ taken
  | turn taken _ => exact noTurn _ _ taken

omit [DecidableEq Hash] in
/-- Where the loop ends once the entry itself has been visited. -/
theorem ends_iff {next last : Fs Hash} {all : List DirectoryRead}
    (visit : Visit env fs mroot next kids) (isTree : IsTree fs) (linked : mroot ∈ fs.index) :
    Ends (fun fuel => Fs.traceFetchTurn (env.withFuel fuel) mroot) mroot (fs, []) (last, all) ↔
      Exists fun reads => all = fs.readsAt next mroot ++ reads ∧
        (kids ≠ [] ∧ Fetches env kids next reads last ∨
          kids = [] ∧ mroot ≠ rootId ∧
            (next.next mroot ≠ 0 ∧ last = next ∧ reads = [] ∨
              next.next mroot = 0 ∧ Exists fun ahead => Ahead next mroot mroot ahead ∧
                Fetches env ahead next reads last)) := by
  have done := visit.done isTree linked
  have there := (done.stays mroot linked).linked
  have inside := isTree.ne_zero linked
  cases kids with
  | cons kid kids =>
      rw [ends_iff_of_some (visit.turnDown [] inside)]
      cases visit with
      | directory isDir read known list =>
          obtain ⟨head, -, tail⟩ := list.cons_inv
          have members := done.mem_kids isDir
          obtain ⟨kidLinked, link⟩ := (members kid).mp List.mem_cons_self
          have away : Away next mroot (kid :: kids) := by
            intro other member climbs
            obtain ⟨otherLinked, link⟩ := (members other).mp member
            obtain ⟨lists, free, tree⟩ := done.isTree
            have notRoot : other ≠ rootId := by
              rintro rfl
              exact inside (link.symm.trans tree.shape.rootFather)
            obtain ⟨fatherNode, inKids⟩ := tree.listed (tree.mem_index.mp otherLinked) notRoot
            rw [link] at fatherNode inKids
            exact tree.shape.forest.not_climbs tree.shape.tops fatherNode inKids climbs
          rw [ends_iff_fetches done.isTree there kidLinked (.last tail (Or.inl link)) away]
          refine exists_congr fun reads => ?_
          simp only [ne_eq, reduceCtorEq, not_false_eq_true, true_and, false_and, or_false,
            List.nil_append]
          exact and_comm
  | nil =>
      have nexts := done.next_eq mroot linked
      simp only [ne_eq, not_true_eq_false, false_and, true_and, false_or]
      by_cases isRoot : mroot = rootId
      · subst isRoot
        refine iff_of_false (not_ends_root visit isTree) fun found => ?_
        obtain ⟨reads, -, notRoot, -⟩ := found
        exact notRoot rfl
      · by_cases alone : next.next mroot = 0
        · obtain ⟨ahead, isAhead⟩ := exists_ahead done.isTree there isRoot mroot
          obtain ⟨nothing, first⟩ := isAhead.climb done.isTree there inside
          have chosen : forall reads, (Exists fun ahead => Ahead next mroot mroot ahead ∧
              Fetches env ahead next reads last) ↔ Fetches env ahead next reads last := by
            intro reads
            constructor
            · rintro ⟨other, isOther, fetches⟩
              exact isAhead.unique isOther ▸ fetches
            · exact fun fetches => ⟨ahead, isAhead, fetches⟩
          simp only [isRoot, alone, not_true_eq_false, not_false_eq_true, true_and, false_and,
            false_or, chosen]
          cases ahead with
          | nil =>
              rw [ends_iff_of_none (visit.turnOn [] inside (nothing rfl)), List.nil_append,
                Prod.mk.injEq]
              constructor
              · rintro ⟨rfl, rfl⟩
                exact ⟨[], (List.append_nil _).symm, .nil⟩
              · rintro ⟨reads, rfl, fetches⟩
                cases fetches
                exact ⟨rfl, List.append_nil _⟩
          | cons other rest =>
              obtain ⟨current, climbs, place, follows, present, otherLinked, further⟩ :=
                first other rest rfl
              have notStop : current ≠ mroot := by
                refine place.elim (fun here => ?_) fun notStop => notStop
                rw [here, alone] at follows
                exact absurd follows.symm present
              have away : Away next mroot (other :: rest) := fun id member =>
                isAhead.apart done.isTree there inside member .here
              have turn := visit.turnOn [] inside climbs
              rw [Option.bind_some, if_neg notStop, follows] at turn
              rw [ends_iff_of_some turn, ends_iff_fetches done.isTree there otherLinked further away]
              refine exists_congr fun reads => ?_
              rw [List.nil_append]
              exact and_comm
        · have climbs : Returns (fun fuel => next.fetchClimb mroot fuel mroot) (some mroot) := by
            refine ⟨1, fun fuel large => ?_⟩
            obtain ⟨fuel, rfl⟩ := Nat.exists_eq_add_of_le' large
            simp only
            rw [Fs.fetchClimb, if_pos alone]
          have turn := visit.turnOn [] inside climbs
          rw [Option.bind_some, if_pos rfl] at turn
          rw [ends_iff_of_none turn, List.nil_append, Prod.mk.injEq]
          simp only [isRoot, alone, not_false_eq_true, true_and, false_and, or_false]
          constructor
          · rintro ⟨rfl, rfl⟩
            exact ⟨[], (List.append_nil _).symm, rfl, rfl⟩
          · rintro ⟨reads, rfl, rfl, rfl⟩
            exact ⟨rfl, List.append_nil _⟩

end First

end Metadata
end Mcachefs
