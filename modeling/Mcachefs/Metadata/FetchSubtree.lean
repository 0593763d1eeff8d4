import Mcachefs.Metadata.FetchWalk
import Mcachefs.Metadata.Moves

namespace Mcachefs
namespace Metadata

open Library

/-!
# Reading a subtree before a rename

`mcachefs_metadata_fetch_children` is to read the directories at and below an entry
and no others, and to come through when one of them cannot be read.  A directory
that cannot be read is not `EMPTY` afterwards, and the loop goes on to its child,
which is the null entry.  Where the entry itself is empty, the loop goes up from it
before it has met it as a father, and then goes on with what follows it in the tree.
`Fetchable` says when neither happens, `fetchChildren_subtree_iff`.
-/

variable {Hash : Type} [Inhabited Hash] [DecidableEq Hash] {env : Env Hash} {fs next last : Fs Hash}

/-! ## What the walk gets to see -/

/-- At or below an entry, through directories only. -/
inductive Visible (fs : Fs Hash) (above : Id) : Id -> Prop
  | here : Visible fs above above
  | down {id : Id} (linked : id ∈ fs.index) (some : fs.father id ≠ 0)
      (isDir : (fs.entries (fs.father id)).st.isDir = true)
      (upper : Visible fs above (fs.father id)) : Visible fs above id

section Visible

variable {above middle id : Id}

omit [Inhabited Hash] [DecidableEq Hash] in
theorem Visible.climbs (visible : Visible fs above id) : Climbs fs.father above id := by
  induction visible with
  | here => exact .here
  | down _ some _ _ inductionHypothesis => exact .up some inductionHypothesis

omit [Inhabited Hash] [DecidableEq Hash] in
theorem Visible.trans (upper : Visible fs above middle) (lower : Visible fs middle id) :
    Visible fs above id := by
  induction lower with
  | here => exact upper
  | down linked some isDir _ inductionHypothesis => exact .down linked some isDir inductionHypothesis

omit [Inhabited Hash] [DecidableEq Hash] in
/-- What is visible is the entry, or visible from one of its children. -/
theorem Visible.inv (visible : Visible fs above id) :
    id = above ∨ (fs.entries above).st.isDir = true ∧ Exists fun kid => kid ∈ fs.index ∧
      fs.father kid = above ∧ Visible fs kid id := by
  induction visible with
  | here => exact Or.inl rfl
  | @down id linked some isDir _ inductionHypothesis =>
      rcases inductionHypothesis with same | ⟨aboveDir, kid, kidLinked, link, lower⟩
      · exact Or.inr ⟨same ▸ isDir, id, linked, same, .here⟩
      · exact Or.inr ⟨aboveDir, kid, kidLinked, link, .down linked some isDir lower⟩

omit [DecidableEq Hash] in
/-- Only the fathers and the types of linked entries matter. -/
theorem Visible.congr (visible : Visible fs above id) (isTree : IsTree fs)
    (same : forall id, id ∈ fs.index -> id ∈ next.index ∧ next.father id = fs.father id ∧
      (next.entries id).st = (fs.entries id).st) : Visible next above id := by
  induction visible with
  | here => exact .here
  | @down id linked some isDir _ inductionHypothesis =>
      obtain ⟨there, link, -⟩ := same id linked
      have notRoot : id ≠ rootId := fun isRoot => some ((isTree.father_eq_zero linked).mpr isRoot)
      have st := (same _ (isTree.father linked notRoot)).2.2
      refine .down there ?_ ?_ ?_
      · rwa [link]
      · rwa [link, st]
      · rwa [link]

omit [DecidableEq Hash] in
/-- No entry is above an entry that is above it. -/
theorem IsTree.antisymm (isTree : IsTree fs) (linked : id ∈ fs.index)
    (one : Climbs fs.father above id) (two : Climbs fs.father id above) : above = id := by
  obtain ⟨kids, free, tree⟩ := isTree
  rcases one.inv with same | ⟨some, higher⟩
  · exact same.symm
  · have below : ¬ Top none id := fun isTop => some (tree.shape.tops id isTop)
    exact absurd (two.trans higher)
      (tree.shape.forest.acyclic tree.shape.tops (tree.mem_index.mp linked) below)

omit [DecidableEq Hash] in
/-- Whatever lies between an entry and what is visible from it is a directory. -/
theorem Visible.isDir (visible : Visible fs above id) (isTree : IsTree fs)
    (aboveLinked : above ∈ fs.index) (upper : Climbs fs.father above middle)
    (lower : Climbs fs.father middle id) (apart : middle ≠ id) :
    (fs.entries middle).st.isDir = true := by
  induction visible with
  | here => exact absurd (isTree.antisymm aboveLinked lower upper) apart
  | @down id linked some isDir _ inductionHypothesis =>
      obtain ⟨-, higher⟩ := lower.inv.resolve_left apart.symm
      by_cases same : middle = fs.father id
      · exact same ▸ isDir
      · exact inductionHypothesis higher same

omit [Inhabited Hash] [DecidableEq Hash] in
theorem Visible.linked (visible : Visible fs above id) (aboveLinked : above ∈ fs.index) :
    id ∈ fs.index := by
  cases visible with
  | here => exact aboveLinked
  | down linked _ _ _ => exact linked

omit [DecidableEq Hash] in
/-- What is below an entry is visible, or below something that is not a directory. -/
theorem visible_or_hidden (isTree : IsTree fs) (linked : id ∈ fs.index)
    (climbs : Climbs fs.father above id) : Visible fs above id ∨
      Exists fun kid => kid ∈ fs.index ∧ fs.father kid ≠ 0 ∧ Climbs fs.father above (fs.father kid) ∧
        ¬ (fs.entries (fs.father kid)).st.isDir = true ∧ Climbs fs.father (fs.father kid) id := by
  induction climbs with
  | here => exact Or.inl .here
  | @up id some climbs inductionHypothesis =>
      have notRoot : id ≠ rootId := fun isRoot => some ((isTree.father_eq_zero linked).mpr isRoot)
      rcases inductionHypothesis (isTree.father linked notRoot) with visible | found
      · by_cases isDir : (fs.entries (fs.father id)).st.isDir = true
        · exact Or.inl (.down linked some isDir visible)
        · exact Or.inr ⟨id, linked, some, climbs, isDir, .up some .here⟩
      · obtain ⟨kid, kidLinked, present, upper, notDir, lower⟩ := found
        exact Or.inr ⟨kid, kidLinked, present, upper, notDir, .up some lower⟩

omit [DecidableEq Hash] in
theorem IsTree.climbs_child (isTree : IsTree fs) (linked : id ∈ fs.index)
    (climbs : Climbs fs.father above id) : id = above ∨ Exists fun kid => kid ∈ fs.index ∧
      fs.father kid = above ∧ Climbs fs.father kid id := by
  induction climbs with
  | here => exact Or.inl rfl
  | @up id some _ inductionHypothesis =>
      have notRoot : id ≠ rootId := fun isRoot => some ((isTree.father_eq_zero linked).mpr isRoot)
      rcases inductionHypothesis (isTree.father linked notRoot) with same | ⟨kid, kidLinked, link, low⟩
      · exact Or.inr ⟨id, linked, same, .here⟩
      · exact Or.inr ⟨kid, kidLinked, link, .up some low⟩

end Visible

/-! ## What the walk does -/

section Fetches

variable {id other : Id} {ids kids : List Id} {reads : List DirectoryRead}

/-- What a walk does. -/
structure FetchesDone (fs : Fs Hash) (ids : List Id) (reads : List DirectoryRead)
    (last : Fs Hash) : Prop where
  isTree : IsTree last
  stays : forall id, id ∈ fs.index -> Stays fs last id
  next_eq : forall id, id ∈ fs.index -> last.next id = fs.next id
  /-- A new entry is below a directory that had not been read. -/
  fresh : forall id, id ∈ last.index -> id ∈ fs.index ∨
    (last.entries (last.father id)).st.isDir = true ∧
      (last.father id ∈ fs.index -> (fs.entries (last.father id)).child = .unread)
  unseen : forall other, other ∈ fs.index -> (forall id, id ∈ ids -> ¬ Visible last id other) ->
    last.entries other = fs.entries other
  known : forall id, id ∈ ids -> forall other, Visible last id other ->
    (last.entries other).st.isDir = true -> HasRead last other
  below : forall read, read ∈ reads -> read.succeeded = true ∧
    Exists fun id => id ∈ ids ∧ Visible last id read.directory
  quiet : reads = [] -> last = fs

omit [Inhabited Hash] [DecidableEq Hash] in
theorem HasRead.stays (hasRead : HasRead fs id) (stays : Stays fs next id) : HasRead next id := by
  rw [HasRead, Fs.first, stays.child hasRead.ne_unread]
  exact hasRead

omit [Inhabited Hash] [DecidableEq Hash] in
theorem mem_readsAt {read : DirectoryRead} (member : read ∈ fs.readsAt next id) :
    read.directory = id ∧ (fs.entries id).st.isDir = true ∧
      (read.succeeded = true ↔ (next.entries id).child ≠ .unread) := by
  unfold Fs.readsAt at member
  split at member
  · next unread =>
      obtain rfl := List.mem_singleton.mp member
      exact ⟨rfl, unread.1, decide_eq_true_iff⟩
  · cases member

omit [DecidableEq Hash] in
theorem Visit.unique {other : Fs Hash} {others : List Id} (visit : Visit env fs id next kids)
    (again : Visit env fs id other others) : next = other ∧ kids = others := by
  obtain rfl := visit.read.unique again.read
  refine ⟨rfl, ?_⟩
  cases visit with
  | file notDir =>
      cases again with
      | file _ => rfl
      | directory isDir _ _ _ => exact absurd isDir notDir
  | directory isDir _ _ list =>
      cases again with
      | file notDir => exact absurd isDir notDir
      | directory _ _ _ same => exact list.unique same

omit [DecidableEq Hash] in
theorem Visit.same_of_readsAt (visit : Visit env fs id next kids) (isTree : IsTree fs)
    (linked : id ∈ fs.index) (none : fs.readsAt next id = []) : next = fs := by
  have done := visit.done isTree linked
  cases visit with
  | file _ => rfl
  | directory isDir _ _ _ =>
      refine done.same fun unread => ?_
      rw [Fs.readsAt, if_pos ⟨isDir, unread⟩] at none
      cases none

omit [DecidableEq Hash] in
/-- What a visit leaves to be visited is linked. -/
theorem VisitDone.linked (done : VisitDone fs id next kids) (visit : Visit env fs id next kids)
    (linked : forall other, other ∈ id :: ids -> other ∈ fs.index) :
    forall other, other ∈ kids ++ ids -> other ∈ next.index := by
  intro other member
  rcases List.mem_append.mp member with inKids | inIds
  · cases visit with
    | file _ => cases inKids
    | directory isDir _ _ _ => exact ((done.mem_kids isDir other).mp inKids).1
  · exact (done.stays other (linked other (List.mem_cons_of_mem id inIds))).linked

omit [DecidableEq Hash] in
theorem Fetches.done (fetches : Fetches env ids fs reads last) (isTree : IsTree fs)
    (linked : forall id, id ∈ ids -> id ∈ fs.index) : FetchesDone fs ids reads last := by
  induction fetches with
  | nil =>
      exact ⟨isTree, fun _ old => ⟨old, .refl _, fun _ => rfl⟩, fun _ _ => rfl,
        fun _ there => Or.inl there, fun _ _ _ => rfl, fun _ none => absurd none List.not_mem_nil,
        fun _ none => absurd none List.not_mem_nil, fun _ => rfl⟩
  | @cons id ids kids fs next last reads visit rest inductionHypothesis =>
      have here := linked id List.mem_cons_self
      have done := visit.done isTree here
      have onward := done.linked visit linked
      have further := inductionHypothesis done.isTree onward
      have stays : forall other, other ∈ fs.index -> Stays fs last other := fun other old =>
        (done.stays other old).trans (further.stays other (done.stays other old).linked)
      have there := (done.stays id here).linked
      have st : (last.entries id).st = (fs.entries id).st := (stays id here).alike.st
      have kidVisible : forall kid, kid ∈ kids -> Visible last id kid := by
        intro kid member
        have kidLinked := onward kid (List.mem_append_left ids member)
        cases visit with
        | file _ => cases member
        | directory isDir _ _ _ =>
            have link : last.father kid = id :=
              (further.stays kid kidLinked).alike.father.trans ((done.mem_kids isDir kid).mp member).2
            refine .down (further.stays kid kidLinked).linked ?_ ?_ ?_
            · exact link.symm ▸ isTree.ne_zero here
            · rw [link, st]
              exact isDir
            · exact link.symm ▸ .here
      refine ⟨further.isTree, stays, fun other old => ?_, fun other new => ?_,
        fun other old unseen => ?_, fun above member other visible isDir => ?_,
        fun read member => ?_, fun none => ?_⟩
      · rw [further.next_eq other (done.stays other old).linked, done.next_eq other old]
      · rcases further.fresh other new with mid | ⟨isDir, unread⟩
        · rcases done.fresh other mid with old | ⟨unread, isDir, link⟩
          · exact Or.inl old
          · have same : last.father other = id :=
              (further.stays other mid).alike.father.trans link
            right
            rw [same, st]
            exact ⟨isDir, fun _ => unread⟩
        · refine Or.inr ⟨isDir, fun old => ?_⟩
          by_contra known
          have same := (done.stays _ old).child known
          exact known (same ▸ unread (done.stays _ old).linked)
      · have different : other ≠ id := fun same => unseen id List.mem_cons_self (same ▸ .here)
        rw [further.unseen other (done.stays other old).linked ?_, done.others other old different]
        intro above member visible
        rcases List.mem_append.mp member with inKids | inIds
        · exact unseen id List.mem_cons_self ((kidVisible above inKids).trans visible)
        · exact unseen above (List.mem_cons_of_mem id inIds) visible
      · rcases List.mem_cons.mp member with rfl | inIds
        · rcases visible.inv with rfl | ⟨aboveDir, kid, kidLinked, link, lower⟩
          · exact (done.known (st ▸ isDir)).stays (further.stays other there)
          · have known := (done.known (st ▸ aboveDir)).ne_unread
            have mid : kid ∈ next.index := by
              rcases further.fresh kid kidLinked with mid | ⟨-, unread⟩
              · exact mid
              · rw [link] at unread
                exact absurd (unread there) known
            have inKids : kid ∈ kids := (done.mem_kids (st ▸ aboveDir) kid).mpr
              ⟨mid, (further.stays kid mid).alike.father.symm.trans link⟩
            exact further.known kid (List.mem_append_left ids inKids) other lower isDir
        · exact further.known above (List.mem_append_right kids inIds) other visible isDir
      · rcases List.mem_append.mp member with atId | later
        · obtain ⟨directory, isDir, succeeded⟩ := mem_readsAt atId
          exact ⟨succeeded.mpr (done.known isDir).ne_unread, id, List.mem_cons_self, directory ▸ .here⟩
        · obtain ⟨succeeded, above, inRest, visible⟩ := further.below read later
          refine ⟨succeeded, ?_⟩
          rcases List.mem_append.mp inRest with inKids | inIds
          · exact ⟨id, List.mem_cons_self, (kidVisible above inKids).trans visible⟩
          · exact ⟨above, List.mem_cons_of_mem id inIds, visible⟩
      · obtain ⟨atId, later⟩ := List.append_eq_nil_iff.mp none
        rw [further.quiet later, visit.same_of_readsAt isTree here atId]

omit [DecidableEq Hash] in
/-- A walk over entries below which everything has been read ends, and reads nothing. -/
theorem fetches_quiet {kids : Id -> List Id} {free order rest : List Id} (tree : Tree fs kids free)
    (walk : Postorder kids ids order) (inside : forall id, id ∈ ids -> Node fs free id)
    (quiet : forall id, id ∈ ids -> forall other, Visible fs id other ->
      (fs.entries other).st.isDir = true -> HasRead fs other)
    (onward : Fetches env rest fs reads last) : Fetches env (ids ++ rest) fs reads last := by
  induction walk generalizing rest reads last with
  | nil => exact onward
  | @cons id ids inner outer below after innerHypothesis outerHypothesis =>
      have isNode := inside id List.mem_cons_self
      have children : forall kid, kid ∈ kids id -> Node fs free kid ∧ fs.father kid = id :=
        fun kid member => ⟨(tree.child isNode member).1, (tree.child isNode member).2.2⟩
      have siblings := outerHypothesis (fun other later => inside other (List.mem_cons_of_mem id later))
        (fun other later => quiet other (List.mem_cons_of_mem id later)) onward
      by_cases isDir : (fs.entries id).st.isDir = true
      · have known := quiet id List.mem_cons_self id .here isDir
        have none : fs.readsAt fs id = [] := if_neg fun unread => known.ne_unread unread.2
        have visit : Visit env fs id fs (kids id) := by
          refine .directory isDir ⟨0, fun fuel _ => ?_⟩ known (tree.shape.forest.list id isNode)
          exact if_neg known.ne_unread
        have lower := innerHypothesis (fun kid member => (children kid member).1)
          (fun kid member other visible => quiet id List.mem_cons_self other
            (Visible.trans (.down (tree.mem_index.mpr (children kid member).1)
              ((children kid member).2.symm ▸ tree.some isNode)
              ((children kid member).2.symm ▸ isDir) ((children kid member).2.symm ▸ .here))
              visible)) siblings
        have all := Fetches.cons visit lower
        rwa [none] at all
      · have none : fs.readsAt fs id = [] := if_neg fun unread => isDir unread.1
        have all := Fetches.cons (.file isDir) siblings
        rwa [none] at all

omit [DecidableEq Hash] in
theorem AllRead.visit {file : Id} (all : AllRead fs file) (visit : Visit env fs id next kids)
    (isTree : IsTree fs) (linked : id ∈ fs.index) (inside : file ∈ fs.index) : AllRead next file := by
  cases visit with
  | file _ => exact all
  | directory _ read _ _ =>
      obtain ⟨fuel, read⟩ := read
      exact (readChildren_populated linked (read fuel le_rfl)).1.allRead isTree inside all

omit [DecidableEq Hash] in
theorem AllRead.fetches {file : Id} (all : AllRead fs file) (fetches : Fetches env ids fs reads last)
    (isTree : IsTree fs) (linked : forall id, id ∈ ids -> id ∈ fs.index) (inside : file ∈ fs.index) :
    AllRead last file := by
  induction fetches with
  | nil => exact all
  | @cons id ids kids fs next last reads visit rest inductionHypothesis =>
      have here := linked id List.mem_cons_self
      have done := visit.done isTree here
      exact inductionHypothesis (all.visit visit isTree here inside) done.isTree
        (done.linked visit linked) (done.stays file inside).linked

end Fetches

/-! ## When the subtree is read -/

/-- The loop ends, it reads directories at and below the entry only, and if no read
failed all of them have been read. -/
def FetchesSubtree (env : Env Hash) (fs : Fs Hash) (mroot : Id) : Prop :=
  Exists fun last => Exists fun reads =>
    Returns (fun fuel => fs.traceFetchChildren (env.withFuel fuel) mroot) (last, reads) ∧
      (forall read, read ∈ reads -> Climbs last.father mroot read.directory) ∧
      ((forall read, read ∈ reads -> read.succeeded = true) -> AllRead last mroot)

/-- Every directory that comes after an entry in the tree has been read. -/
def RestRead (fs : Fs Hash) (mroot : Id) : Prop :=
  forall ahead, Ahead fs mroot mroot ahead -> forall id, id ∈ ahead ->
    forall other, Visible fs id other -> (fs.entries other).st.isDir = true -> HasRead fs other

/-- When the subtree of an entry is read. -/
structure Fetchable (env : Env Hash) (fs : Fs Hash) (mroot : Id) : Prop where
  /-- The depth-first walk over the source ends, and no directory on it fails. -/
  walk : Exists fun reads => Exists fun last => Fetches env [mroot] fs reads last
  /-- No directory is left to be read below what is not a directory. -/
  hidden : forall file, file ∈ fs.index -> Climbs fs.father mroot file ->
    ¬ (fs.entries file).st.isDir = true -> AllRead fs file
  /-- An entry without children has a next sibling, or nothing after it is left to be read;
  it is not the root. -/
  leaf : forall next, Visit env fs mroot next [] ->
    mroot ≠ rootId ∧ (fs.next mroot ≠ 0 ∨ RestRead fs mroot)

section Subtree

variable {mroot : Id} {reads : List DirectoryRead} {ahead kids : List Id}

omit [DecidableEq Hash] in
/-- Nothing is left to be read below an entry whose walk has ended. -/
theorem Fetches.allRead (fetches : Fetches env [mroot] fs reads last) (isTree : IsTree fs)
    (linked : mroot ∈ fs.index)
    (hidden : forall file, file ∈ fs.index -> Climbs fs.father mroot file ->
      ¬ (fs.entries file).st.isDir = true -> AllRead fs file) : AllRead last mroot := by
  have inside : forall id, id ∈ [mroot] -> id ∈ fs.index := fun id member =>
    List.mem_singleton.mp member ▸ linked
  have done := fetches.done isTree inside
  intro id there climbs isDir
  rcases visible_or_hidden done.isTree there climbs with visible | ⟨kid, new, some, upper, notDir, lower⟩
  · exact (done.known mroot List.mem_cons_self id visible isDir).ne_unread
  · rcases done.fresh kid new with old | ⟨isDir, -⟩
    · have link : last.father kid = fs.father kid := (done.stays kid old).alike.father
      rw [link] at some upper notDir lower
      have notRoot : kid ≠ rootId := fun isRoot => some ((isTree.father_eq_zero old).mpr isRoot)
      have fileLinked := isTree.father old notRoot
      have climbs := (climbs_stays isTree (fun id old => (done.stays id old).alike.father)
        fileLinked).mp upper
      rw [(done.stays _ fileLinked).alike.st] at notDir
      exact (hidden _ fileLinked climbs notDir).fetches fetches isTree inside fileLinked id there
        lower isDir
    · exact absurd isDir notDir

omit [DecidableEq Hash] in
/-- What is below a file has been read before the walk, if it is read afterwards. -/
theorem FetchesDone.hidden (done : FetchesDone fs [mroot] reads last) (isTree : IsTree fs)
    (linked : mroot ∈ fs.index) (all : AllRead last mroot) (file : Id) (fileLinked : file ∈ fs.index)
    (climbs : Climbs fs.father mroot file) (notDir : ¬ (fs.entries file).st.isDir = true) :
    AllRead fs file := by
  intro id there lower idDir
  have upward : forall above id, id ∈ fs.index ->
      (Climbs last.father above id ↔ Climbs fs.father above id) := fun above id old =>
    climbs_stays isTree (fun id old => (done.stays id old).alike.father) old
  have st : forall id, id ∈ fs.index -> (last.entries id).st = (fs.entries id).st := fun id old =>
    (done.stays id old).alike.st
  have known := all id (done.stays id there).linked
    ((upward mroot id there).mpr (climbs.trans lower)) (by rw [st id there, idDir])
  have unseen : ¬ Visible last mroot id := by
    intro visible
    have apart : file ≠ id := by
      rintro rfl
      exact notDir idDir
    have fileDir := visible.isDir done.isTree (done.stays mroot linked).linked
      ((upward mroot file fileLinked).mpr climbs) ((upward file id there).mpr lower) apart
    rw [st file fileLinked] at fileDir
    exact notDir fileDir
  rwa [done.unseen id there fun above member => List.mem_singleton.mp member ▸ unseen] at known

/-! ### An entry without children -/

omit [DecidableEq Hash] in
/-- An entry that is empty has nothing below it, and reading it changes nothing else. -/
theorem VisitDone.leaf (done : VisitDone fs mroot next []) (isTree : IsTree fs) (isDir : (fs.entries mroot).st.isDir = true) :
    (forall id, id ∈ next.index -> id ∈ fs.index) ∧
      (forall id, id ∈ next.index -> Climbs next.father mroot id -> id = mroot) ∧
      forall above id, Visible next above id ↔ Visible fs above id := by
  have noKid : forall kid, kid ∈ next.index -> next.father kid ≠ mroot := fun kid there link =>
    absurd ((done.mem_kids isDir kid).mpr ⟨there, link⟩) List.not_mem_nil
  have old : forall id, id ∈ next.index -> id ∈ fs.index := fun id there =>
    (done.fresh id there).resolve_right fun new => noKid id there new.2.2
  refine ⟨old, fun id there climbs => ?_, fun above id => ⟨fun visible => ?_, fun visible => ?_⟩⟩
  · rcases done.isTree.climbs_child there climbs with same | ⟨kid, kidLinked, link, -⟩
    · exact same
    · exact absurd link (noKid kid kidLinked)
  · exact visible.congr done.isTree fun id there => ⟨old id there,
      (done.stays id (old id there)).alike.father.symm, (done.stays id (old id there)).alike.st.symm⟩
  · exact visible.congr isTree fun id there => ⟨(done.stays id there).linked,
      (done.stays id there).alike.father, (done.stays id there).alike.st⟩

omit [DecidableEq Hash] in
/-- What has been read of what comes after an empty entry. -/
theorem VisitDone.hasRead (done : VisitDone fs mroot next []) (isTree : IsTree fs)
    (linked : mroot ∈ fs.index) (isAhead : Ahead fs mroot mroot ahead) {above id : Id}
    (member : above ∈ ahead) (visible : Visible fs above id) :
    HasRead next id ↔ HasRead fs id := by
  obtain ⟨-, -, -, -, -, aboveLinked, -⟩ := isAhead.mem isTree linked (isTree.ne_zero linked) member
  have different : id ≠ mroot := by
    rintro rfl
    exact isAhead.apart isTree linked (isTree.ne_zero linked) member .here visible.climbs
  rw [HasRead, HasRead, Fs.first, Fs.first,
    done.others id (visible.linked aboveLinked) different]

omit [DecidableEq Hash] in
/-- The loop goes on from an empty entry, and what it meets has been read. -/
theorem restRead_of_fetches (visit : Visit env fs mroot next []) (isTree : IsTree fs)
    (linked : mroot ∈ fs.index) (isDir : (fs.entries mroot).st.isDir = true)
    (isAhead : Ahead next mroot mroot ahead) (fetches : Fetches env ahead next reads last)
    (inside : forall read, read ∈ reads -> Climbs last.father mroot read.directory) :
    last = next ∧ reads = [] ∧ RestRead fs mroot := by
  have visited := visit.done isTree linked
  have there := (visited.stays mroot linked).linked
  have some := isTree.ne_zero linked
  have members : forall id, id ∈ ahead -> id ∈ next.index := by
    intro id member
    obtain ⟨-, -, -, -, -, idLinked, -⟩ := isAhead.mem visited.isTree there some member
    exact idLinked
  have done := fetches.done visited.isTree members
  have lastAhead : Ahead last mroot mroot ahead := isAhead.congr visited.isTree there some
    (fun id old => (done.stays id old).alike.father) done.next_eq
  have none : reads = [] := by
    refine List.eq_nil_iff_forall_not_mem.mpr fun read member => ?_
    obtain ⟨-, above, inAhead, visible⟩ := done.below read member
    exact lastAhead.apart done.isTree (done.stays mroot there).linked some inAhead
      (inside read member) visible.climbs
  have same := done.quiet none
  refine ⟨same, none, fun others isOther id member other visible otherDir => ?_⟩
  have again : Ahead next mroot mroot others := isOther.congr isTree linked some
    (fun id old => (visited.stays id old).alike.father) visited.next_eq
  obtain rfl := again.unique isAhead
  obtain ⟨-, -, visibleIff⟩ := visited.leaf isTree isDir
  have otherLinked := visible.linked (by
    obtain ⟨-, -, -, -, -, idLinked, -⟩ := isOther.mem isTree linked some member
    exact idLinked)
  refine (visited.hasRead isTree linked isOther member visible).mp ?_
  rw [← same]
  refine done.known id member other ?_ ?_
  · rw [same]
    exact (visibleIff id other).mpr visible
  · rw [same, (visited.stays other otherLinked).alike.st]
    exact otherDir

omit [DecidableEq Hash] in
/-- Where what comes after an empty entry has been read, the loop comes to an end. -/
theorem fetches_of_restRead (visit : Visit env fs mroot next []) (isTree : IsTree fs)
    (linked : mroot ∈ fs.index) (isDir : (fs.entries mroot).st.isDir = true)
    (notRoot : mroot ≠ rootId) (rest : RestRead fs mroot) :
    Exists fun ahead => Ahead next mroot mroot ahead ∧ Fetches env ahead next [] next := by
  have visited := visit.done isTree linked
  have some := isTree.ne_zero linked
  obtain ⟨ahead, isAhead⟩ := exists_ahead isTree linked notRoot mroot
  have again : Ahead next mroot mroot ahead := isAhead.congr isTree linked some
    (fun id old => (visited.stays id old).alike.father) visited.next_eq
  obtain ⟨-, -, visibleIff⟩ := visited.leaf isTree isDir
  have members : forall id, id ∈ ahead -> id ∈ fs.index := by
    intro id member
    obtain ⟨-, -, -, -, -, idLinked, -⟩ := isAhead.mem isTree linked some member
    exact idLinked
  obtain ⟨kids, free, tree⟩ := visited.isTree
  have nodes : forall id, id ∈ ahead -> Node next free id := fun id member =>
    tree.mem_index.mp (visited.stays id (members id member)).linked
  obtain ⟨order, walk⟩ := tree.shape.forest.exists_postorder_of_list tree.shape.tops
    (fun _ inside => inside.2.1) nodes
  refine ⟨ahead, again, ?_⟩
  have quiet : forall id, id ∈ ahead -> forall other, Visible next id other ->
      (next.entries other).st.isDir = true -> HasRead next other := by
    intro id member other visible otherDir
    have seen := (visibleIff id other).mp visible
    have otherLinked := seen.linked (members id member)
    rw [(visited.stays other otherLinked).alike.st] at otherDir
    exact (visited.hasRead isTree linked isAhead member seen).mpr
      (rest ahead isAhead id member other seen otherDir)
  have all : Fetches env (ahead ++ []) next [] next := fetches_quiet tree walk nodes quiet .nil
  rwa [List.append_nil] at all

/-! ### Both directions -/

omit [DecidableEq Hash] in
theorem FetchesSubtree.fetchable (fetched : FetchesSubtree env fs mroot) (isTree : IsTree fs)
    (linked : mroot ∈ fs.index) (isDir : (fs.entries mroot).st.isDir = true) :
    Fetchable env fs mroot := by
  obtain ⟨last, reads, returns, inside, complete⟩ := fetched
  have ends := returns_traceFetchChildren_iff.mp returns
  obtain ⟨next, kids, visit⟩ := visit_of_ends ends isTree linked
  have visited := visit.done isTree linked
  have single : forall id, id ∈ [mroot] -> id ∈ fs.index := fun id member =>
    List.mem_singleton.mp member ▸ linked
  obtain ⟨rest, rfl, ⟨some, fetches⟩ | ⟨rfl, notRoot, way⟩⟩ := (ends_iff visit isTree linked).mp ends
  · have walk : Fetches env [mroot] fs (fs.readsAt next mroot ++ rest) last :=
      .cons visit (by rwa [List.append_nil])
    have done := walk.done isTree single
    refine ⟨⟨_, last, walk⟩, done.hidden isTree linked
      (complete fun read member => (done.below read member).1), fun other leaf => ?_⟩
    exact absurd (visit.unique leaf).2 some
  · have walk : Fetches env [mroot] fs (fs.readsAt next mroot ++ []) next := .cons visit .nil
    have done := walk.done isTree single
    have ended : last = next ∧ rest = [] ∧ (fs.next mroot ≠ 0 ∨ RestRead fs mroot) := by
      rw [← visited.next_eq mroot linked]
      rcases way with ⟨sibling, same, none⟩ | ⟨-, ahead, isAhead, fetches⟩
      · exact ⟨same, none, Or.inl sibling⟩
      · obtain ⟨same, none, restRead⟩ := restRead_of_fetches visit isTree linked isDir isAhead
          fetches fun read member => inside read (List.mem_append_right _ member)
        exact ⟨same, none, Or.inr restRead⟩
    obtain ⟨rfl, rfl, leaf⟩ := ended
    exact ⟨⟨_, _, walk⟩, done.hidden isTree linked
      (complete fun read member => (done.below read member).1), fun _ _ => ⟨notRoot, leaf⟩⟩

omit [DecidableEq Hash] in
theorem Fetchable.fetchesSubtree (fetchable : Fetchable env fs mroot) (isTree : IsTree fs)
    (linked : mroot ∈ fs.index) (isDir : (fs.entries mroot).st.isDir = true) :
    FetchesSubtree env fs mroot := by
  obtain ⟨⟨reads, last, walk⟩, hidden, leaf⟩ := fetchable
  have done := walk.done isTree fun id member => List.mem_singleton.mp member ▸ linked
  have all := walk.allRead isTree linked hidden
  have below : forall read, read ∈ reads -> Climbs last.father mroot read.directory := by
    intro read member
    obtain ⟨-, above, isRoot, visible⟩ := done.below read member
    rw [List.mem_singleton.mp isRoot] at visible
    exact visible.climbs
  refine ⟨last, reads, returns_traceFetchChildren_iff.mpr ?_, below, fun _ => all⟩
  cases walk with
  | @cons _ _ kids _ next _ rest visit fetches =>
      rw [List.append_nil] at fetches
      refine (ends_iff visit isTree linked).mpr ⟨rest, rfl, ?_⟩
      by_cases empty : kids = []
      · subst empty
        obtain ⟨notRoot, way⟩ := leaf next visit
        rw [← (visit.done isTree linked).next_eq mroot linked] at way
        refine Or.inr ⟨rfl, notRoot, ?_⟩
        by_cases alone : next.next mroot = 0
        · cases fetches
          exact Or.inr ⟨alone, fetches_of_restRead visit isTree linked isDir notRoot
            (way.resolve_left fun sibling => sibling alone)⟩
        · cases fetches
          exact Or.inl ⟨alone, rfl, rfl⟩
      · exact Or.inl ⟨empty, fetches⟩

end Subtree

omit [DecidableEq Hash] in
/-- `mcachefs_metadata_fetch_children` reads the subtree of a directory exactly when
the depth-first walk over the source ends without a failure, nothing is left to be read
below a file, and the directory has children, or a sibling after it, or else is not the
root and all that comes after it in the tree has been read. -/
theorem fetchChildren_subtree_iff (env : Env Hash) (fs : Fs Hash) (isTree : IsTree fs) (mroot : Id)
    (linked : mroot ∈ fs.index) (isDir : (fs.entries mroot).st.isDir = true) :
    FetchesSubtree env fs mroot ↔ Fetchable env fs mroot :=
  ⟨fun fetched => fetched.fetchable isTree linked isDir,
    fun fetchable => fetchable.fetchesSubtree isTree linked isDir⟩

/-- A source with a file and an empty directory in the directory `/d`. -/
def nestedSource : Env UInt32 :=
  { emptySource with
    source := fun _ names =>
      if names = [] then some [(ascii "d", directoryStat)]
      else if names = [ascii "d"] then
        some [(ascii "f", { directoryStat with st_mode := S_IFREG }), (ascii "e", directoryStat)]
      else some [] }

/-- `/d` has been looked up, and neither it nor `/d/e` has been read. -/
theorem nested_reads : Exists fun fs => Exists fun one => Exists fun two =>
    (TreeCall.run nestedSource (Fs.format nestedSource directoryStat) (.findLocked (ascii "/d")) =
        .ok fs ∧
      fs.readChildren (nestedSource.withFuel 8) 2 = .ok one ∧
      one.readChildren (nestedSource.withFuel 8) 4 = .ok two) ∧
      (fs.index = [rootId, 2] ∧ (fs.entries rootId).st.isDir = true ∧
        (fs.entries 2).st.isDir = true ∧ (fs.entries 2).child = .unread) ∧
      (one.first 2 = 4 ∧ one.next 4 = 3 ∧ one.next 3 = 0 ∧ (one.entries 4).st.isDir = true ∧
        (one.entries 4).child = .unread) ∧
      (two.entries 4).child = .empty ∧ (two.entries 3).st.isDir = false := by
  have evaluated : (do
      let fs ← TreeCall.run nestedSource (Fs.format nestedSource directoryStat)
        (.findLocked (ascii "/d"))
      let one ← fs.readChildren (nestedSource.withFuel 8) 2
      let two ← one.readChildren (nestedSource.withFuel 8) 4
      return decide ((fs.index = [rootId, 2] ∧ (fs.entries rootId).st.isDir = true ∧
        (fs.entries 2).st.isDir = true ∧ (fs.entries 2).child = .unread) ∧
      (one.first 2 = 4 ∧ one.next 4 = 3 ∧ one.next 3 = 0 ∧ (one.entries 4).st.isDir = true ∧
        (one.entries 4).child = .unread) ∧
      (two.entries 4).child = .empty ∧ (two.entries 3).st.isDir = false) : Except Fault Bool) = .ok true := by decide +kernel
  obtain ⟨fs, found, rest⟩ := bind_eq_ok.mp evaluated
  obtain ⟨one, first, rest⟩ := bind_eq_ok.mp rest
  obtain ⟨two, second, rest⟩ := bind_eq_ok.mp rest
  exact ⟨fs, one, two, ⟨found, first, second⟩, of_decide_eq_true (Except.ok.inj rest)⟩

theorem fetchChildren_subtree_nested : Exists fun fs =>
    TreeCall.run nestedSource (Fs.format nestedSource directoryStat) (.findLocked (ascii "/d")) =
        .ok fs ∧
      (fs.entries 2).child = .unread ∧ FetchesSubtree nestedSource fs 2 := by
  obtain ⟨fs, one, two, ⟨found, first, second⟩, ⟨index, rootDir, isDir, unread⟩,
    ⟨head, next, after, inner, -⟩, empty, isFile⟩ := nested_reads
  obtain ⟨treeStart, noLinks⟩ := format_isTree nestedSource directoryStat
  have isTree := (TreeCall.run_isTree treeStart noLinks (by trivial) (by trivial) found).1
  have linked : 2 ∈ fs.index := by
    rw [index]
    decide
  have kids : Segment one.next (one.first 2) [4, 3] 0 := by
    have three : Segment one.next 3 [3] 0 := .cons (by decide) (after ▸ .nil _)
    rw [head]
    exact .cons (by decide) (next ▸ three)
  have visit : Visit nestedSource fs 2 one [4, 3] :=
    .directory isDir ⟨8, fun fuel large => readChildren_more large first⟩
      (Or.inr (by rw [head]; decide)) kids
  have none : two.first 4 = 0 := by
    rw [Fs.first, empty]
    rfl
  have inside : Visit nestedSource one 4 two [] :=
    .directory inner ⟨8, fun fuel large => readChildren_more large second⟩ (Or.inl empty)
      (none.symm ▸ .nil 0)
  have file : Visit nestedSource two 3 two [] := .file (by rw [isFile]; decide)
  refine ⟨fs, found, unread, (fetchChildren_subtree_iff _ _ isTree _ linked isDir).mpr
    ⟨⟨_, two, .cons visit (.cons inside (.cons file .nil))⟩, fun other there _ notDir => ?_,
      fun _ leaf => ?_⟩⟩
  · rw [index] at there
    rcases List.mem_cons.mp there with rfl | there
    · exact absurd rootDir notDir
    · exact absurd isDir (List.mem_singleton.mp there ▸ notDir)
  · cases (visit.unique leaf).2

/-- A source of which no directory can be read. -/
def unreadableSource : Env UInt32 :=
  { emptySource with source := fun _ _ => none }

/-- The root cannot be read, and the loop goes on to the null entry. -/
theorem fetchChildren_unreadable_root :
    (forall fuel, (Fs.format unreadableSource directoryStat).fetchChildren
      (unreadableSource.withFuel (fuel + 2)) rootId = .error .nullPointer) ∧
    ¬ forall (env : Env UInt32) (fs : Fs UInt32), IsTree fs -> forall mroot, mroot ∈ fs.index ->
      (fs.entries mroot).st.isDir = true -> FetchesSubtree env fs mroot := by
  have entry := Shape.format_root unreadableSource directoryStat
  have isTree := (format_isTree unreadableSource directoryStat).1
  generalize Fs.format unreadableSource directoryStat = fs at entry isTree ⊢
  have isDir : (fs.entries rootId).st.isDir = true := by
    rw [entry]
    decide
  have unread : (fs.entries rootId).child = .unread := by
    rw [entry]
    rfl
  have top : fs.father rootId = 0 := (isTree.father_eq_zero isTree.root).mpr rfl
  have failed : forall fuel, (fs.fetchChildren (unreadableSource.withFuel (fuel + 2)) rootId) =
      .error .nullPointer := by
    intro fuel
    have opened : fs.recurseOpen (unreadableSource.withFuel (fuel + 2)) rootId = .ok none := by
      unfold Fs.recurseOpen Fs.climb
      rw [if_pos top]
      rfl
    have child : fs.getChild (unreadableSource.withFuel (fuel + 2)) rootId =
        .ok (0, { fs with reads := fs.reads + 1 }) := by
      unfold Fs.getChild
      simp only [unread, isDir, Bool.true_eq_false, if_false, opened]
      rfl
    have turn : fs.fetchTurn (unreadableSource.withFuel (fuel + 2)) rootId rootId =
        .ok (some 0, { fs with reads := fs.reads + 1 }) := by
      have read : fs.readChildren (unreadableSource.withFuel (fuel + 2)) rootId =
          .ok { fs with reads := fs.reads + 1 } := by
        rw [Fs.readChildren, if_pos unread, child]
        rfl
      have notEmpty : (fs.entries rootId).child ≠ .empty := by
        rw [unread]
        decide
      have null : fs.first rootId = 0 := by
        rw [Fs.first, unread]
        rfl
      simp only [Fs.fetchTurn, isDir, if_true, read, bind, Except.bind]
      rw [if_neg (by decide), if_pos ⟨trivial, notEmpty⟩]
      exact congrArg (fun child => Except.ok (some child, _)) null
    unfold Fs.fetchChildren
    rw [show (unreadableSource.withFuel (fuel + 2)).fuel = fuel + 1 + 1 from rfl, iterate, turn]
    rfl
  refine ⟨failed, fun claim => ?_⟩
  obtain ⟨last, reads, ⟨enough, returns⟩, -⟩ :=
    claim unreadableSource fs isTree rootId isTree.root isDir
  have fetched := Fs.traceFetchChildren_fst (unreadableSource.withFuel (enough + 2)) rootId fs
  rw [failed enough] at fetched
  simp only at returns
  rw [returns (enough + 2) (by omega)] at fetched
  cases fetched

end Metadata
end Mcachefs
