import Mcachefs.Metadata.Operations
import Mcachefs.Library.SiblingForest

namespace Mcachefs
namespace Metadata

open Library

/-!
# The shape of the metadata file

Every entry up to `alloced_nb` is a node of the tree or is on the free list.
`Shape` says so of the links of the metadata file, where one entry may be in
hand: allocated and not yet linked, or unlinked and not yet removed.  Each of
the functions that change a link has one theorem here about what it does to the
shape; the functions that change other fields keep it by `Shape.frame`.
-/

variable {Hash : Type}

/-- The entry is neither free nor out of reach. -/
def Node (fs : Fs Hash) (free : List Id) (id : Id) : Prop :=
  rootId ≤ id ∧ id < fs.alloced_nb ∧ id ∉ free

/-- The root, and the entry in hand. -/
def Top (hand : Option Id) (id : Id) : Prop :=
  id = rootId ∨ hand = some id

/-- The links are those of a tree with the children `kids`, and of the list
`free`.  The first children are given apart, since there is a loop that leaves
them as they are until its end. -/
structure Shape [Inhabited Hash] (fs : Fs Hash) (first : Id -> Id) (kids : Id -> List Id)
    (free : List Id) (hand : Option Id) : Prop where
  forest : Forest fs.father first fs.next (Node fs free) (Top hand) kids
  freeList : Segment fs.next fs.first_free free 0
  freeRange : forall id, id ∈ free -> rootId < id ∧ id < fs.alloced_nb
  blank : forall id, id ∈ free -> fs.entries id = .free (fs.next id)
  outside : forall id, ¬ Node fs free id -> kids id = []
  rootInside : rootId < fs.alloced_nb
  rootFather : fs.father rootId = 0
  rootNext : fs.next rootId = 0
  inHand : forall id, hand = some id -> Node fs free id ∧ id ≠ rootId

/-- The index has every node once, up to the one that is in hand. -/
structure Indexed (fs : Fs Hash) (free : List Id) (hand : Option Id) : Prop where
  nodup : fs.index.Nodup
  exact : forall id, id ∈ fs.index ↔ Node fs free id ∧ hand ≠ some id

theorem top_none {id : Id} : Top none id ↔ id = rootId := by
  rw [Top, or_iff_left]
  intro held
  cases held

theorem Indexed.mem_iff {fs : Fs Hash} {free : List Id} (indexed : Indexed fs free none) {id : Id} :
    id ∈ fs.index ↔ Node fs free id := by
  rw [indexed.exact, and_iff_left]
  intro held
  cases held

/-! ## Links after a change -/

section Links

variable {fs : Fs Hash} {id : Id} {change : Entry Hash -> Entry Hash}

@[simp] theorem modify_father :
    (fs.modify id change).father = Function.update fs.father id (change (fs.entries id)).father := by
  funext other
  by_cases same : other = id
  · subst same
    simp [Fs.father, Fs.modify]
  · simp [Fs.father, Fs.modify, same]

@[simp] theorem modify_next :
    (fs.modify id change).next = Function.update fs.next id (change (fs.entries id)).next := by
  funext other
  by_cases same : other = id
  · subst same
    simp [Fs.next, Fs.modify]
  · simp [Fs.next, Fs.modify, same]

@[simp] theorem modify_first :
    (fs.modify id change).first =
      Function.update fs.first id (change (fs.entries id)).child.id := by
  funext other
  by_cases same : other = id
  · subst same
    simp [Fs.first, Fs.modify]
  · simp [Fs.first, Fs.modify, same]

@[simp] theorem modify_self : (fs.modify id change).entries id = change (fs.entries id) := by
  simp [Fs.modify]

theorem modify_other {other : Id} (different : other ≠ id) :
    (fs.modify id change).entries other = fs.entries other := by
  simp [Fs.modify, different]

@[simp] theorem update_father : Function.update fs.father id (fs.entries id).father = fs.father :=
  Function.update_eq_self id fs.father

@[simp] theorem update_next : Function.update fs.next id (fs.entries id).next = fs.next :=
  Function.update_eq_self id fs.next

@[simp] theorem update_first : Function.update fs.first id (fs.entries id).child.id = fs.first :=
  Function.update_eq_self id fs.first

@[simp] theorem modify_index : (fs.modify id change).index = fs.index := rfl
@[simp] theorem modify_alloced_nb : (fs.modify id change).alloced_nb = fs.alloced_nb := rfl
@[simp] theorem modify_first_free : (fs.modify id change).first_free = fs.first_free := rfl
@[simp] theorem modify_mfiles : (fs.modify id change).mfiles = fs.mfiles := rfl
@[simp] theorem modify_reads : (fs.modify id change).reads = fs.reads := rfl

end Links

namespace Shape

variable [Inhabited Hash] {fs next : Fs Hash} {first : Id -> Id} {kids : Id -> List Id}
  {free : List Id} {hand : Option Id}

theorem root (shape : Shape fs first kids free hand) : Node fs free rootId :=
  ⟨le_rfl, shape.rootInside, fun free => absurd (shape.freeRange _ free).1 (lt_irrefl _)⟩

/-- Only the links, the head and the free entries matter. -/
theorem frame (shape : Shape fs first kids free hand) {first' : Id -> Id}
    (alloced_nb : next.alloced_nb = fs.alloced_nb) (first_free : next.first_free = fs.first_free)
    (father : forall id, Node fs free id -> next.father id = fs.father id)
    (nexts : forall id, Node fs free id -> next.next id = fs.next id)
    (firsts : forall id, Node fs free id -> first' id = first id)
    (same : forall id, id ∈ free -> next.entries id = fs.entries id) :
    Shape next first' kids free hand := by
  have nodes : forall id, Node next free id ↔ Node fs free id := fun id => by
    rw [Node, Node, alloced_nb]
  have freeNext : forall id, id ∈ free -> next.next id = fs.next id := fun id inside =>
    congrArg Entry.next (same id inside)
  refine ⟨shape.forest.congr nodes (fun _ _ => Iff.rfl) father firsts nexts fun _ _ => rfl, ?_, ?_,
    ?_, ?_, alloced_nb ▸ shape.rootInside, ?_, ?_, ?_⟩
  · rw [first_free]
    exact shape.freeList.congr freeNext
  · rw [alloced_nb]
    exact shape.freeRange
  · intro id inside
    rw [same id inside, freeNext id inside]
    exact shape.blank id inside
  · intro id outside
    exact shape.outside id fun inside => outside ((nodes id).mpr inside)
  · exact (father _ shape.root).trans shape.rootFather
  · exact (nexts _ shape.root).trans shape.rootNext
  · intro id held
    exact ⟨(nodes id).mpr (shape.inHand id held).1, (shape.inHand id held).2⟩

/-! ## Allocation -/

theorem extendFreeEntries_entries (first last : Nat) (fs : Fs Hash) (id : Nat) :
    (fs.extendFreeEntries first last).entries id =
      if first ≤ id ∧ id < last then .free (if id < last - 1 then id + 1 else 0)
      else fs.entries id := by
  have loop : forall (count start : Nat) (entries : Id -> Entry Hash),
      (List.range' start count).foldl (Fs.formatFree last) entries id =
        if start ≤ id ∧ id < start + count then .free (if id < last - 1 then id + 1 else 0)
        else entries id := by
    intro count
    induction count with
    | zero =>
        intro start entries
        rw [if_neg (by omega)]
        rfl
    | succ count inductionHypothesis =>
        intro start entries
        rw [List.range'_succ, List.foldl_cons, inductionHypothesis]
        by_cases same : id = start
        · subst same
          rw [if_neg (by omega), if_pos (by omega), Fs.formatFree, Function.update_self]
        · rw [Fs.formatFree, Function.update_of_ne same]
          congr 1
          apply propext
          omega
  refine (loop (last - first) first fs.entries).trans ?_
  congr 1
  apply propext
  omega

/-- The entries of a new block are a list. -/
theorem extendFreeEntries_list (start count : Nat) (fs : Fs Hash) (some : start ≠ 0) :
    Segment (fs.extendFreeEntries start (start + (count + 1))).next start
      (List.range' start (count + 1)) 0 := by
  have links : forall id : Nat, start ≤ id -> id < start + (count + 1) ->
      (fs.extendFreeEntries start (start + (count + 1))).next id =
        if id < start + count then id + 1 else 0 := by
    intro id above below
    rw [Fs.next, extendFreeEntries_entries, if_pos ⟨above, below⟩]
    rfl
  have run : forall number from' : Nat, start ≤ from' -> from' + number ≤ start + count ->
      Segment (fs.extendFreeEntries start (start + (count + 1))).next from'
        (List.range' from' number) (from' + number) := by
    intro number
    induction number with
    | zero => exact fun from' _ _ => .nil from'
    | succ number inductionHypothesis =>
        intro from' above below
        rw [List.range'_succ]
        refine .cons (by omega) ?_
        rw [links from' above (by omega), if_pos (by omega)]
        have rest := inductionHypothesis (from' + 1) (by omega) (by omega)
        rwa [show from' + 1 + number = from' + (number + 1) by omega] at rest
  rw [List.range'_concat, Nat.one_mul]
  refine (run count start le_rfl le_rfl).append (.cons (by omega) ?_)
  rw [links _ (by omega) (by omega), if_neg (by omega)]
  exact .nil 0

/-- A new block of free entries, where no entry was free. -/
theorem extend (shape : Shape fs fs.first kids [] none)
    (next_eq : next = { fs.extendFreeEntries fs.alloced_nb (fs.alloced_nb + BLOCK_ENTRY_COUNT) with
      first_free := fs.alloced_nb, alloced_nb := fs.alloced_nb + BLOCK_ENTRY_COUNT }) :
    Shape next next.first kids (List.range' fs.alloced_nb BLOCK_ENTRY_COUNT) none ∧
      (forall id, Node next (List.range' fs.alloced_nb BLOCK_ENTRY_COUNT) id ↔ Node fs [] id) ∧
      forall id, Node fs [] id -> next.entries id = fs.entries id := by
  have inside := shape.rootInside
  have entries : forall id, next.entries id =
      (fs.extendFreeEntries fs.alloced_nb (fs.alloced_nb + BLOCK_ENTRY_COUNT)).entries id :=
    fun id => by rw [next_eq]
  have alloced_nb : next.alloced_nb = fs.alloced_nb + BLOCK_ENTRY_COUNT := by rw [next_eq]
  have nodes : forall id, Node next (List.range' fs.alloced_nb BLOCK_ENTRY_COUNT) id ↔
      Node fs [] id := by
    intro id
    simp only [Node, alloced_nb, List.mem_range'_1, List.not_mem_nil, not_false_eq_true, and_true]
    constructor
    · rintro ⟨above, below, apart⟩
      refine ⟨above, ?_⟩
      by_contra outside
      exact apart ⟨Nat.le_of_not_lt outside, below⟩
    · rintro ⟨above, below⟩
      exact ⟨above, below.trans_le (Nat.le_add_right _ _),
        fun inside => absurd (inside.1.trans_lt below) (Nat.lt_irrefl _)⟩
  have kept : forall id, Node fs [] id -> next.entries id = fs.entries id := by
    intro id isNode
    rw [entries, extendFreeEntries_entries, if_neg]
    exact fun range => absurd (range.1.trans_lt isNode.2.1) (Nat.lt_irrefl _)
  refine ⟨⟨shape.forest.congr nodes (fun _ _ => Iff.rfl)
    (fun id isNode => congrArg Entry.father (kept id isNode))
    (fun id isNode => congrArg (Child.id ∘ Entry.child) (kept id isNode))
    (fun id isNode => congrArg Entry.next (kept id isNode)) fun _ _ => rfl,
    ?_, ?_, ?_, ?_, ?_, ?_, ?_, fun _ held => nomatch held⟩, nodes, kept⟩
  · have list := extendFreeEntries_list fs.alloced_nb (BLOCK_ENTRY_COUNT - 1) fs
      (Nat.pos_iff_ne_zero.mp (Nat.zero_lt_of_lt inside))
    rw [next_eq]
    exact list
  · intro id member
    rw [List.mem_range'_1] at member
    rw [alloced_nb]
    exact ⟨inside.trans_le member.1, member.2⟩
  · intro id member
    rw [List.mem_range'_1] at member
    have entry := entries id
    rw [extendFreeEntries_entries, if_pos member] at entry
    rw [Fs.next, entry]
    rfl
  · exact fun id outside => shape.outside id fun isNode => outside ((nodes id).mpr isNode)
  · exact alloced_nb ▸ inside.trans_le (Nat.le_add_right _ _)
  · exact (congrArg Entry.father (kept _ shape.root)).trans shape.rootFather
  · exact (congrArg Entry.next (kept _ shape.root)).trans shape.rootNext

/-- The first free entry is taken in hand. -/
theorem pop {id : Id} (shape : Shape fs fs.first kids (id :: free) none)
    (next_eq : next = { fs with first_free := fs.next id }) :
    Shape next next.first kids free (some id) ∧
      forall other, Node next free other ↔ Node fs (id :: free) other ∨ other = id := by
  subst next_eq
  have nodup := List.nodup_cons.mp shape.freeList.nodup
  have range := shape.freeRange id List.mem_cons_self
  have outside : ¬ Node fs (id :: free) id := fun isNode => isNode.2.2 List.mem_cons_self
  have nodes : forall other, Node { fs with first_free := fs.next id } free other ↔
      Node fs (id :: free) other ∨ other = id := by
    intro other
    simp only [Node, List.mem_cons, not_or]
    constructor
    · rintro ⟨above, below, apart⟩
      by_cases same : other = id
      · exact Or.inr same
      · exact Or.inl ⟨above, below, same, apart⟩
    · rintro (⟨above, below, -, apart⟩ | rfl)
      · exact ⟨above, below, apart⟩
      · exact ⟨range.1.le, range.2, nodup.1⟩
  have leaf : fs.first id = 0 := by
    rw [Fs.first, shape.blank id List.mem_cons_self]
    rfl
  have grown := shape.forest.grow (shape.freeList.ne_zero List.mem_cons_self) outside leaf
    (shape.outside id outside)
  refine ⟨⟨grown.congr nodes (fun other _ => ?_) (fun _ _ => rfl) (fun _ _ => rfl)
    (fun _ _ => rfl) fun _ _ => rfl, ?_, ?_, ?_, ?_, shape.rootInside, shape.rootFather,
    shape.rootNext, ?_⟩, nodes⟩
  · simp only [Top, reduceCtorEq, or_false, Option.some.injEq]
    exact or_congr_right eq_comm
  · obtain ⟨-, -, rest⟩ := shape.freeList.cons_inv
    exact rest
  · exact fun other member => shape.freeRange other (List.mem_cons_of_mem _ member)
  · exact fun other member => shape.blank other (List.mem_cons_of_mem _ member)
  · exact fun other away => shape.outside other fun isNode => away ((nodes other).mpr (Or.inl isNode))
  · intro other held
    obtain rfl := Option.some.inj held
    exact ⟨(nodes _).mpr (Or.inr rfl), range.1.ne'⟩

end Shape

/-- What `mcachefs_metadata_allocate` gives: an entry in hand, and nothing else
changes. -/
structure Allocated [Inhabited Hash] (fs : Fs Hash) (kids : Id -> List Id) (free : List Id)
    (id : Id) (rest : List Id) (next : Fs Hash) : Prop where
  shape : Shape next next.first kids rest (some id)
  fresh : ¬ Node fs free id
  nodes : forall other, Node next rest other ↔ Node fs free other ∨ other = id
  blank : Exists fun link => next.entries id = .free link
  kept : forall other, Node fs free other -> next.entries other = fs.entries other
  index : next.index = fs.index
  mfiles : next.mfiles = fs.mfiles
  reads : next.reads = fs.reads

namespace Shape

variable [Inhabited Hash] {fs next : Fs Hash} {kids : Id -> List Id} {free : List Id}
  {hand : Option Id}

private theorem allocated {old : Fs Hash} {oldFree : List Id} {id : Id}
    (shape : Shape fs fs.first kids (id :: free) none)
    (nodes : forall other, Node fs (id :: free) other ↔ Node old oldFree other)
    (kept : forall other, Node old oldFree other -> fs.entries other = old.entries other)
    (index : fs.index = old.index) (mfiles : fs.mfiles = old.mfiles) (reads : fs.reads = old.reads) :
    Allocated old kids oldFree id free { fs with first_free := fs.next id } := by
  obtain ⟨popped, after⟩ := shape.pop rfl
  refine ⟨popped, fun isNode => ?_, fun other => ?_, ⟨_, shape.blank id List.mem_cons_self⟩, kept,
    index, mfiles, reads⟩
  · exact ((nodes id).mpr isNode).2.2 List.mem_cons_self
  · rw [after, nodes]

theorem allocate (shape : Shape fs fs.first kids free none) :
    Exists fun id => Exists fun rest => Exists fun next => fs.allocate = (id, next) ∧
      Allocated fs kids free id rest next := by
  unfold Fs.allocate
  cases free with
  | nil =>
      have none : fs.first_free = 0 := shape.freeList.nil_inv
      obtain ⟨extended, nodes, kept⟩ := shape.extend rfl
      rw [if_pos none]
      exact ⟨_, _, _, rfl, extended.allocated nodes kept rfl rfl rfl⟩
  | cons id rest =>
      obtain ⟨first, some, -⟩ := shape.freeList.cons_inv
      rw [if_neg (first ▸ some)]
      refine ⟨id, rest, { fs with first_free := fs.next id }, by simp only [first], ?_⟩
      exact shape.allocated (fun _ => Iff.rfl) (fun _ _ => rfl) rfl rfl rfl

end Shape

/-! ## Linking -/

section LinkEntry

variable {fs : Fs Hash} {father child : Id}

theorem linkEntry_child (different : child ≠ father) :
    (fs.linkEntry father child).entries child =
      { fs.entries child with father := father, next := fs.first father } := by
  rw [Fs.linkEntry, modify_other different, modify_self]

theorem linkEntry_father (different : child ≠ father) :
    (fs.linkEntry father child).entries father =
      { fs.entries father with child := .first child } := by
  rw [Fs.linkEntry, modify_self, modify_other different.symm]

theorem linkEntry_other {other : Id} (notChild : other ≠ child) (notFather : other ≠ father) :
    (fs.linkEntry father child).entries other = fs.entries other := by
  rw [Fs.linkEntry, modify_other notFather, modify_other notChild]

theorem linkEntry_fathers (different : child ≠ father) :
    (fs.linkEntry father child).father = Function.update fs.father child father := by
  funext other
  by_cases isChild : other = child
  · subst isChild
    rw [Fs.father, linkEntry_child different, Function.update_self]
  · rw [Function.update_of_ne isChild]
    by_cases isFather : other = father
    · subst isFather
      rw [Fs.father, linkEntry_father different]
      rfl
    · rw [Fs.father, linkEntry_other isChild isFather]
      rfl

theorem linkEntry_nexts (different : child ≠ father) :
    (fs.linkEntry father child).next = Function.update fs.next child (fs.first father) := by
  funext other
  by_cases isChild : other = child
  · subst isChild
    rw [Fs.next, linkEntry_child different, Function.update_self]
  · rw [Function.update_of_ne isChild]
    by_cases isFather : other = father
    · subst isFather
      rw [Fs.next, linkEntry_father different]
      rfl
    · rw [Fs.next, linkEntry_other isChild isFather]
      rfl

theorem linkEntry_firsts (different : child ≠ father) :
    (fs.linkEntry father child).first = Function.update fs.first father child := by
  funext other
  by_cases isFather : other = father
  · subst isFather
    rw [Fs.first, linkEntry_father different, Function.update_self]
    rfl
  · rw [Function.update_of_ne isFather]
    by_cases isChild : other = child
    · subst isChild
      rw [Fs.first, linkEntry_child different]
      rfl
    · rw [Fs.first, linkEntry_other isChild isFather]
      rfl

end LinkEntry

namespace Shape

variable [Inhabited Hash] {fs next : Fs Hash} {kids : Id -> List Id} {free : List Id}
  {hand : Option Id}

/-- The entry in hand becomes the first child of an entry that is not below it. -/
theorem linkEntry {father child : Id} (shape : Shape fs fs.first kids free (some child))
    (isNode : Node fs free father) (apart : ¬ Climbs fs.father child father) :
    Shape (fs.linkEntry father child) (fs.linkEntry father child).first
      (Function.update kids father (child :: kids father)) free none := by
  have different : child ≠ father := fun same => apart (same ▸ .here)
  obtain ⟨childNode, notRoot⟩ := shape.inHand child rfl
  have away : forall id, id ∈ free -> id ≠ child ∧ id ≠ father := fun id member =>
    ⟨fun same => childNode.2.2 (same ▸ member), fun same => isNode.2.2 (same ▸ member)⟩
  have linked := shape.forest.link isNode childNode (Or.inr rfl) apart
  rw [← linkEntry_fathers different, ← linkEntry_firsts different,
    ← linkEntry_nexts different] at linked
  refine ⟨linked.congr (fun _ => Iff.rfl) (fun id _ => ?_) (fun _ _ => rfl) (fun _ _ => rfl)
    (fun _ _ => rfl) fun _ _ => rfl, ?_, shape.freeRange, fun id member => ?_, fun id outside => ?_,
    shape.rootInside, ?_, ?_, fun _ held => nomatch held⟩
  · simp only [Top, reduceCtorEq, or_false, Option.some.injEq]
    constructor
    · rintro rfl
      exact ⟨Or.inl rfl, notRoot.symm⟩
    · rintro ⟨isRoot | isChild, notChild⟩
      · exact isRoot
      · exact absurd isChild.symm notChild
  · rw [linkEntry_nexts different]
    exact shape.freeList.update childNode.2.2 _
  · rw [linkEntry_nexts different, Function.update_of_ne (away id member).1,
      linkEntry_other (away id member).1 (away id member).2]
    exact shape.blank id member
  · rw [Function.update_of_ne]
    · exact shape.outside id outside
    · rintro rfl
      exact outside isNode
  · rw [linkEntry_fathers different, Function.update_of_ne notRoot.symm]
    exact shape.rootFather
  · rw [linkEntry_nexts different, Function.update_of_ne notRoot.symm]
    exact shape.rootNext

/-! ## Unlinking -/

end Shape

/-- The loop of `mcachefs_metadata_unlink_entry` ends at a child before `id`. -/
theorem findPrevious_mem {fs : Fs Hash} {id start previous : Id} {ids : List Id} {fuel : Nat}
    (list : Segment fs.next start ids 0) (some : start ≠ 0)
    (found : fs.findPrevious id fuel start = .ok previous) :
    previous ∈ ids ∧ fs.next previous = id ∧ id ≠ 0 := by
  induction fuel generalizing start ids with
  | zero => cases found
  | succ fuel inductionHypothesis =>
      cases ids with
      | nil => exact absurd list.nil_inv some
      | cons head ids =>
          obtain ⟨rfl, -, rest⟩ := list.cons_inv
          unfold Fs.findPrevious at found
          split at found
          · cases found
          · next more =>
              split at found
              · next here =>
                  obtain rfl := Except.ok.inj found
                  exact ⟨List.mem_cons_self, here, here ▸ more⟩
              · obtain ⟨member, last⟩ := inductionHypothesis rest more found
                exact ⟨List.mem_cons_of_mem _ member, last⟩

/-- Two entries that differ in their links to children and siblings only. -/
structure Entry.Alike (one two : Entry Hash) : Prop where
  hash : one.hash = two.hash
  d_name : one.d_name = two.d_name
  st : one.st = two.st
  father : one.father = two.father
  fh : one.fh = two.fh
  hardlink : one.hardlink = two.hardlink

theorem Entry.Alike.refl (entry : Entry Hash) : entry.Alike entry :=
  ⟨rfl, rfl, rfl, rfl, rfl, rfl⟩

/-- Nothing has changed but links to children and siblings. -/
structure Relinked (fs next : Fs Hash) : Prop where
  alike : forall id, (next.entries id).Alike (fs.entries id)
  alloced_nb : next.alloced_nb = fs.alloced_nb
  first_free : next.first_free = fs.first_free
  index : next.index = fs.index
  mfiles : next.mfiles = fs.mfiles
  reads : next.reads = fs.reads

theorem Relinked.modify {fs : Fs Hash} {id : Id} {change : Entry Hash -> Entry Hash}
    (alike : (change (fs.entries id)).Alike (fs.entries id)) : Relinked fs (fs.modify id change) := by
  refine ⟨fun other => ?_, rfl, rfl, rfl, rfl, rfl⟩
  by_cases same : other = id
  · subst same
    rwa [modify_self]
  · rw [modify_other same]
    exact .refl _

/-- How `mcachefs_metadata_unlink_entry` takes an entry out. -/
theorem unlinkEntry_cases {env : Env Hash} {fs next : Fs Hash} {id : Id}
    (result : fs.unlinkEntry env id = .ok next) :
    ((fs.entries (fs.father id)).child = .first id ∧
        next = fs.modify (fs.father id) fun entry =>
          { entry with child := if fs.next id ≠ 0 then .first (fs.next id) else .empty }) ∨
      ((fs.entries (fs.father id)).child ≠ .first id ∧ fs.first (fs.father id) ≠ 0 ∧
        Exists fun previous =>
          fs.findPrevious id env.fuel (fs.first (fs.father id)) = .ok previous ∧
            next = fs.modify previous fun entry => { entry with next := fs.next id }) := by
  unfold Fs.unlinkEntry at result
  simp only at result
  split at result
  · cases result
  · split at result
    · next here => exact Or.inl ⟨here, (Except.ok.inj result).symm⟩
    · next elsewhere =>
        split at result
        · cases result
        · next some =>
            obtain ⟨previous, found, last⟩ := bind_eq_ok.mp result
            exact Or.inr ⟨elsewhere, some, previous, found, (Except.ok.inj last).symm⟩

namespace Shape

variable [Inhabited Hash] {fs next : Fs Hash} {kids : Id -> List Id} {free : List Id}
  {hand : Option Id}

theorem below (shape : Shape fs fs.first kids free none) {id : Id} (isNode : Node fs free id)
    (notRoot : id ≠ rootId) : Node fs free (fs.father id) ∧ id ∈ kids (fs.father id) :=
  shape.forest.listed id isNode fun isTop => notRoot (top_none.mp isTop)

/-- An entry is taken in hand, with all that is below it. -/
theorem unlinkEntry {env : Env Hash} {id : Id} (shape : Shape fs fs.first kids free none)
    (isNode : Node fs free id) (notRoot : id ≠ rootId)
    (result : fs.unlinkEntry env id = .ok next) :
    Exists fun before => Exists fun after => kids (fs.father id) = before ++ id :: after ∧
      Shape next next.first (Function.update kids (fs.father id) (before ++ after)) free (some id) ∧
      Relinked fs next := by
  obtain ⟨fatherNode, member⟩ := shape.below isNode notRoot
  have notTop : ¬ Top none id := fun isTop => notRoot (top_none.mp isTop)
  have list := shape.forest.list _ fatherNode
  -- The rest of the shape does not depend on where the entry stood in its list.
  have rest : forall before after, kids (fs.father id) = before ++ id :: after ->
      Relinked fs next -> (forall other, other ∈ free -> next.entries other = fs.entries other) ->
      next.next rootId = 0 ->
      Forest fs.father next.first next.next (Node fs free)
        (fun other => Top none other ∨ other = id)
        (Function.update kids (fs.father id) (before ++ after)) ->
      Shape next next.first (Function.update kids (fs.father id) (before ++ after)) free
        (some id) := by
    intro before after split relinked kept rootNext forest
    have nodes : forall other, Node next free other ↔ Node fs free other := fun other => by
      rw [Node, Node, relinked.alloced_nb]
    refine ⟨forest.congr nodes (fun other _ => ?_) (fun other _ => (relinked.alike other).father)
      (fun _ _ => rfl) (fun _ _ => rfl) fun _ _ => rfl, ?_, ?_, fun other inside => ?_,
      fun other outside => ?_, relinked.alloced_nb ▸ shape.rootInside, ?_, rootNext, ?_⟩
    · simp only [Top, reduceCtorEq, or_false, Option.some.injEq]
      exact or_congr_right eq_comm
    · rw [relinked.first_free]
      exact shape.freeList.congr fun other inside => congrArg Entry.next (kept other inside)
    · rw [relinked.alloced_nb]
      exact shape.freeRange
    · change next.entries other = .free (next.entries other).next
      rw [kept other inside]
      exact shape.blank other inside
    · have away : ¬ Node fs free other := fun isNode => outside ((nodes other).mpr isNode)
      rw [Function.update_of_ne]
      · exact shape.outside other away
      · rintro rfl
        exact away fatherNode
    · exact (relinked.alike rootId).father.trans shape.rootFather
    · intro other held
      obtain rfl := Option.some.inj held
      exact ⟨(nodes _).mpr isNode, notRoot⟩
  rcases unlinkEntry_cases result with ⟨here, rfl⟩ | ⟨-, some, previous, found, rfl⟩
  · have head : fs.first (fs.father id) = id := by rw [Fs.first, here]; rfl
    obtain ⟨after, split⟩ : Exists fun after => kids (fs.father id) = id :: after := by
      cases shape' : kids (fs.father id) with
      | nil =>
          rw [shape'] at member
          cases member
      | cons other after =>
          rw [shape'] at list
          exact ⟨after, by rw [← head, list.cons_inv.1]⟩
    have relinked : Relinked fs (fs.modify (fs.father id) fun entry =>
        { entry with child := if fs.next id ≠ 0 then .first (fs.next id) else .empty }) :=
      .modify ⟨rfl, rfl, rfl, rfl, rfl, rfl⟩
    have links : (if fs.next id ≠ 0 then Child.first (fs.next id) else .empty).id = fs.next id := by
      by_cases none : fs.next id = 0
      · simp [none, Child.id]
      · simp [none, Child.id]
    refine ⟨[], after, split, rest [] after split relinked (fun other inside =>
      modify_other fun same => fatherNode.2.2 (same ▸ inside)) ?_ ?_, relinked⟩
    · rw [modify_next, update_next]
      exact shape.rootNext
    · rw [modify_first, modify_next, update_next, links]
      exact shape.forest.unlinkFirst isNode notTop split
  · obtain ⟨previousMember, follows, -⟩ := findPrevious_mem list some found
    obtain ⟨before, others, split⟩ := List.append_of_mem previousMember
    obtain ⟨previousNode, previousBelow, -⟩ :=
      shape.forest.child _ previous fatherNode previousMember
    obtain ⟨after, rfl⟩ : Exists fun after => others = id :: after := by
      rw [split] at list
      have link := list.next_eq
      rw [follows] at link
      cases others with
      | nil => exact absurd link (shape.forest.some id isNode)
      | cons other after => exact ⟨after, by rw [link]; rfl⟩
    have relinked : Relinked fs (fs.modify previous fun entry => { entry with next := fs.next id }) :=
      .modify ⟨rfl, rfl, rfl, rfl, rfl, rfl⟩
    have around : before ++ previous :: id :: after = (before ++ [previous]) ++ id :: after := by
      rw [List.append_assoc, List.singleton_append]
    refine ⟨before ++ [previous], after, split.trans around, rest _ _ (split.trans around) relinked
      (fun other inside => modify_other fun same => previousNode.2.2 (same ▸ inside)) ?_ ?_,
      relinked⟩
    · rw [modify_next, Function.update_of_ne]
      · exact shape.rootNext
      · rintro rfl
        exact previousBelow (Or.inl rfl)
    · rw [modify_first, modify_next, update_first, List.append_assoc, List.singleton_append]
      exact shape.forest.unlinkAfter isNode notTop split

end Shape

/-! ## Removing -/

/-- Open files are no part of the shape. -/
theorem modifyFile_eq {fs next : Fs Hash} {id : Id} {change : Mfile -> Mfile}
    (result : fs.modifyFile id change = .ok next) :
    next = { fs with mfiles := next.mfiles } := by
  unfold Fs.modifyFile at result
  simp only at result
  split at result
  · obtain rfl := Except.ok.inj result
    rfl
  · split at result
    · cases result
    · obtain rfl := Except.ok.inj result
      rfl

theorem remove_eq [Inhabited Hash] {fs next : Fs Hash} {id : Id}
    (result : fs.remove id = .ok next) :
    next = { fs.modify id fun _ => .free fs.first_free with
      first_free := id, mfiles := next.mfiles } := by
  obtain ⟨middle, changed, last⟩ := bind_eq_ok.mp result
  obtain rfl := Except.ok.inj last
  rw [modifyFile_eq changed]
  rfl

namespace Shape

variable [Inhabited Hash] {fs next : Fs Hash} {kids : Id -> List Id} {free : List Id}
  {hand : Option Id}

/-- The entry in hand, which has no children, becomes the first free entry. -/
theorem remove {first : Id -> Id} {id : Id} (shape : Shape fs first kids free (some id))
    (leaf : kids id = []) (result : fs.remove id = .ok next) :
    Shape next first kids (id :: free) none := by
  obtain ⟨isNode, notRoot⟩ := shape.inHand id rfl
  rw [remove_eq result]
  have nodes : forall other, Node fs (id :: free) other ↔ Node fs free other ∧ other ≠ id := by
    intro other
    simp only [Node, List.mem_cons, not_or]
    tauto
  have links : forall {Value : Type} (field : Entry Hash -> Value) (other : Id),
      Node fs free other ∧ other ≠ id ->
        field (Function.update fs.entries id (.free fs.first_free) other) =
          field (fs.entries other) := by
    intro Value field other inside
    rw [Function.update_of_ne inside.2]
  have outOfFree : forall other, other ∈ free -> other ≠ id := fun other inside same =>
    isNode.2.2 (same ▸ inside)
  have dropped := shape.forest.drop (Or.inr rfl) leaf
  have rootStays := And.intro shape.root notRoot.symm
  refine ⟨dropped.congr nodes (fun other inside => ?_) (links Entry.father) (fun _ _ => rfl)
    (links Entry.next) fun _ _ => rfl, ?_, ?_, ?_, ?_, shape.rootInside,
    (links Entry.father rootId rootStays).trans shape.rootFather,
    (links Entry.next rootId rootStays).trans shape.rootNext, fun _ held => nomatch held⟩
  · have different := inside.2
    simp only [Top, reduceCtorEq, or_false, Option.some.injEq]
    constructor
    · exact fun isRoot => ⟨Or.inl isRoot, different⟩
    · rintro ⟨isRoot | isHand, -⟩
      · exact isRoot
      · exact absurd isHand.symm different
  · have nextEq : (fs.modify id fun _ => .free fs.first_free).next =
        Function.update fs.next id fs.first_free := modify_next
    have list := shape.freeList.push (shape.forest.some id isNode) isNode.2.2
    rw [← nextEq] at list
    exact list
  · intro other inside
    rcases List.mem_cons.mp inside with rfl | inside
    · exact ⟨lt_of_le_of_ne isNode.1 notRoot.symm, isNode.2.1⟩
    · exact shape.freeRange other inside
  · intro other inside
    change Function.update fs.entries id (.free fs.first_free) other =
      .free (Function.update fs.entries id (.free fs.first_free) other).next
    rcases List.mem_cons.mp inside with rfl | inside
    · rw [Function.update_self]
      rfl
    · rw [Function.update_of_ne (outOfFree other inside)]
      exact shape.blank other inside
  · intro other outside
    by_cases same : other = id
    · exact same ▸ leaf
    · exact shape.outside other fun inside => outside ((nodes other).mpr ⟨inside, same⟩)

/-! ## Formatting -/

theorem format_root (env : Env Hash) (st : Stat) :
    (Fs.format env st).entries rootId = Fs.rootEntry env st := by
  refine (extendFreeEntries_entries 2 BLOCK_ENTRY_COUNT _ rootId).trans ?_
  rw [if_neg (by decide)]
  change Function.update (fun _ => Entry.zero) rootId (Fs.rootEntry env st) rootId = _
  rw [Function.update_self]

theorem format (env : Env Hash) (st : Stat) :
    Shape (Fs.format env st) (Fs.format env st).first (fun _ => [])
      (List.range' 2 (BLOCK_ENTRY_COUNT - 2)) none ∧
      Indexed (Fs.format env st) (List.range' 2 (BLOCK_ENTRY_COUNT - 2)) none := by
  have entries : forall id, (Fs.format env st).entries id =
      if 2 ≤ id ∧ id < BLOCK_ENTRY_COUNT then
        .free (if id < BLOCK_ENTRY_COUNT - 1 then id + 1 else 0)
      else Function.update (fun _ => Entry.zero) rootId (Fs.rootEntry env st) id :=
    fun id => extendFreeEntries_entries 2 BLOCK_ENTRY_COUNT _ id
  have nodes : forall id, Node (Fs.format env st) (List.range' 2 (BLOCK_ENTRY_COUNT - 2)) id ↔
      id = rootId := by
    intro id
    have bound : (Fs.format env st).alloced_nb = BLOCK_ENTRY_COUNT := rfl
    simp only [Node, bound, List.mem_range'_1, BLOCK_ENTRY_COUNT, rootId]
    constructor
    · rintro ⟨above, below, apart⟩
      by_contra different
      exact apart ⟨Nat.lt_of_le_of_ne above (Ne.symm different), below⟩
    · rintro rfl
      decide
  have rootEntry := format_root env st
  have inside : rootId < BLOCK_ENTRY_COUNT := by decide
  refine ⟨⟨⟨fun id inside => ?_, fun id inside => ?_, fun _ _ _ member => (nomatch member),
    fun id inside below => ?_, fun id inside => .here (Or.inl ((nodes id).mp inside))⟩,
    ?_, ?_, ?_, fun _ _ => rfl, inside, ?_, ?_, fun _ held => (nomatch held)⟩,
    ⟨List.nodup_singleton _, fun id => ?_⟩⟩
  · rw [(nodes id).mp inside]
    decide
  · rw [(nodes id).mp inside, Fs.first, rootEntry]
    exact .nil 0
  · exact absurd (Or.inl ((nodes id).mp inside)) below
  · exact extendFreeEntries_list 2 (BLOCK_ENTRY_COUNT - 2 - 1) _ (by decide)
  · intro id member
    rw [List.mem_range'_1] at member
    exact member
  · intro id member
    rw [List.mem_range'_1] at member
    have range : 2 ≤ id ∧ id < BLOCK_ENTRY_COUNT := member
    rw [Fs.next, entries, if_pos range]
    rfl
  · rw [Fs.father, rootEntry]
    rfl
  · rw [Fs.next, rootEntry]
    rfl
  · rw [nodes]
    exact ⟨fun member => ⟨List.mem_singleton.mp member, (nomatch ·)⟩,
      fun same => List.mem_singleton.mpr same.1⟩

end Shape

end Metadata
end Mcachefs
