import Mcachefs.Library.Runs
import Mcachefs.Metadata.HashGrowth
import Mathlib.Algebra.Group.Fin.Basic
import Mathlib.Algebra.Ring.Nat
import Mathlib.Order.Fin.Basic

namespace Mcachefs
namespace HashIndex

open Library

/-!
# The self check of the hash index

`mcachefs_metadata_dump_locked` walks the hash index from its root, counts the
entries that it meets, and counts an error for each link, hash or colour that a
red-black search tree does not have.  A build with `PARANOID` calls it after
every insertion and removal, without a file to write to, and then any error
ends the program with `Bug`.

A `hash_t` is an unsigned integer whose arithmetic wraps around, here
`Fin (n + 2)`.  The text that goes to the file is left out.
-/

/-- The counters of the dump, whose names begin with
`mcachefs_dump_mdata_hashtree_` in the source. -/
structure HashDump where
  errs : Nat
  nb : Nat
  collision : Nat
  chcount : Fin 3 -> Nat
  max_depth : Nat
  min_depth : Nat
  max_blackdepth : Nat
  min_blackdepth : Nat

/-- A null pointer, the end of the fuel, and `Bug("metadata hash tree has errors")`. -/
inductive DumpFault
  | nullPointer
  | fuel
  | hashTreeErrors
  deriving DecidableEq, Repr

namespace HashDump

/-- Count an error where something is wrong. -/
def errorIf (wrong : Prop) [Decidable wrong] (dump : HashDump) : HashDump :=
  if wrong then { dump with errs := dump.errs + 1 } else dump

/-- `mcachefs_metadata_update_blackdepth`. -/
def updateBlackdepth (blackdepth : Nat) (dump : HashDump) : HashDump :=
  let dump := if dump.max_blackdepth < blackdepth then { dump with max_blackdepth := blackdepth }
    else dump
  if blackdepth < dump.min_blackdepth then { dump with min_blackdepth := blackdepth } else dump

/-- The counters at the start of `mcachefs_metadata_dump_locked`, which leaves the one of the
collisions as it is. -/
def restart (dump : HashDump) : HashDump :=
  { dump with
    errs := 0
    nb := 0
    chcount := fun _ => 0
    max_depth := 0
    min_depth := 2 ^ 30
    max_blackdepth := 0
    min_blackdepth := 2 ^ 30 }

end HashDump

variable {n : Nat}

/-- Whether an entry lacks a child. -/
def Links.Open (links : Links (Fin (n + 2))) : Prop :=
  links.left = 0 ∨ links.right = 0

instance (links : Links (Fin (n + 2))) : Decidable links.Open :=
  inferInstanceAs (Decidable (links.left = 0 ∨ links.right = 0))

/-- Whether an entry is in no collision list. -/
def Links.Alone (links : Links (Fin (n + 2))) : Prop :=
  links.collision_next = 0 ∧ links.collision_previous = 0

instance (links : Links (Fin (n + 2))) : Decidable links.Alone :=
  inferInstanceAs (Decidable (links.collision_next = 0 ∧ links.collision_previous = 0))

/-- The black entries above an entry, and itself. -/
def Links.blackdepth (links : Links (Fin (n + 2))) (blackdepth : Nat) : Nat :=
  if links.color = .black then blackdepth + 1 else blackdepth

namespace HashDump

/-- What `mcachefs_metadata_dump_hash` does at an entry before it turns to its children. -/
def meet (links : Links (Fin (n + 2))) (depth blackdepth : Nat) (min max : Fin (n + 2))
    (dump : HashDump) : HashDump :=
  let dump := { dump with nb := dump.nb + 1 }
  let dump := if dump.max_depth < depth then { dump with max_depth := depth } else dump
  let dump := if (links.left = 0 ∧ links.right = 0) ∧ depth < dump.min_depth
    then { dump with min_depth := depth } else dump
  let dump := if links.Alone ∧ links.Open
    then dump.updateBlackdepth (links.blackdepth blackdepth + 1) else dump
  (dump.errorIf (links.hash < min)).errorIf (max < links.hash)

/-- What it checks of a child before the call for it, where `wrong` is about the hashes. -/
def checkChild (wrong : Prop) [Decidable wrong] (mdata : Id) (links child : Links (Fin (n + 2)))
    (dump : HashDump) : HashDump :=
  ((dump.errorIf wrong).errorIf (child.up ≠ mdata)).errorIf
    (links.color = .red ∧ child.color ≠ .black)

/-- The checks of the left child. -/
def checkLeft (mdata : Id) (links left : Links (Fin (n + 2))) (dump : HashDump) : HashDump :=
  dump.checkChild (links.hash ≤ left.hash) mdata links left

/-- The checks of the right child. -/
def checkRight (mdata : Id) (links right : Links (Fin (n + 2))) (dump : HashDump) : HashDump :=
  dump.checkChild (right.hash ≤ links.hash) mdata links right

/-- `chcount`, how many children an entry has. -/
def countChildren (links : Links (Fin (n + 2))) (dump : HashDump) : HashDump :=
  let chcount : Fin 3 := (if links.left ≠ 0 then 1 else 0) + (if links.right ≠ 0 then 1 else 0)
  { dump with chcount := Function.update dump.chcount chcount (dump.chcount chcount + 1) }

end HashDump

namespace Store

/-- `mcachefs_metadata_dump_hash`. -/
def dumpHash (store : Store (Fin (n + 2))) : (fuel : Nat) -> (mdata : Id) ->
    (depth blackdepth : Nat) -> (min max : Fin (n + 2)) -> HashDump -> Except DumpFault HashDump
  | 0, _, _, _, _, _, _ => .error .fuel
  | fuel + 1, mdata, depth, blackdepth, min, max, dump =>
      if 32 < depth then .ok { dump with errs := dump.errs + 1 }
      else if mdata = 0 then .error .nullPointer
      else do
        let links := store.entries mdata
        let below := links.blackdepth blackdepth
        let dump := dump.meet links depth blackdepth min max
        let dump ← (if links.left ≠ 0 then
            dumpHash store fuel links.left (depth + 1) below min (links.hash - 1)
              (dump.checkLeft mdata links (store.entries links.left))
          else .ok dump)
        let dump ← (if links.right ≠ 0 then
            dumpHash store fuel links.right (depth + 1) below links.hash max
              (dump.checkRight mdata links (store.entries links.right))
          else .ok dump)
        let dump := dump.countChildren links
        if links.collision_next ≠ 0 then do
          let dump ← dumpHash store fuel links.collision_next depth below (links.hash - 1)
            (links.hash + 1) dump
          .ok { dump with collision := dump.collision + 1 }
        else .ok dump

/-- `mcachefs_metadata_dump_locked` on the hash index, to a file or to none. -/
def dumpLocked (fuel : Nat) (toFile : Bool) (store : Store (Fin (n + 2))) (dump : HashDump) :
    Except DumpFault HashDump := do
  let dump ← store.dumpHash fuel store.hash_root 0 0 0 (Fin.last (n + 1)) dump.restart
  let dump := dump.errorIf (dump.min_blackdepth ≠ dump.max_blackdepth)
  if dump.errs ≠ 0 ∧ toFile = false then .error .hashTreeErrors else .ok dump

end Store

/-! ## A part of the dump -/

/-- No counter that may show an error goes back. -/
structure Grows (dump next : HashDump) : Prop where
  errs_le : dump.errs ≤ next.errs
  highest : dump.max_blackdepth ≤ next.max_blackdepth
  lowest : next.min_blackdepth ≤ dump.min_blackdepth

theorem Grows.refl (dump : HashDump) : Grows dump dump :=
  ⟨Nat.le_refl _, Nat.le_refl _, Nat.le_refl _⟩

theorem Grows.trans {dump middle next : HashDump} (first : Grows dump middle)
    (second : Grows middle next) : Grows dump next :=
  ⟨first.errs_le.trans second.errs_le, first.highest.trans second.highest,
    second.lowest.trans first.lowest⟩

/-- What a part of the dump does to the counters: it counts `total` entries, of which `collided`
are behind the head of their collision list, and an error unless all is `healthy`; if anything is
`marked` it has met the black depth `blackdepth`, and no other one. -/
structure Counts (healthy : Prop) (total collided : Nat) (marked : Prop) (blackdepth : Nat)
    (dump next : HashDump) : Prop extends Grows dump next where
  errs_eq : next.errs = dump.errs ↔ healthy
  nb : healthy -> next.nb = dump.nb + total
  collision : healthy -> next.collision = dump.collision + collided
  unmarked : healthy -> ¬ marked ->
    next.max_blackdepth = dump.max_blackdepth ∧ next.min_blackdepth = dump.min_blackdepth
  marked : healthy -> marked -> next.max_blackdepth = max dump.max_blackdepth blackdepth ∧
    next.min_blackdepth = min dump.min_blackdepth blackdepth

section Counts

variable {healthy more marked markedToo : Prop} {total others collided collidedToo blackdepth : Nat}
  {dump middle next : HashDump}

theorem Counts.refl (dump : HashDump) : Counts True 0 0 False blackdepth dump dump where
  toGrows := .refl dump
  errs_eq := by simp
  nb _ := rfl
  collision _ := rfl
  unmarked _ _ := ⟨rfl, rfl⟩
  marked _ marked := marked.elim

theorem Counts.congr (counts : Counts healthy total collided marked blackdepth dump next)
    (sameHealthy : more ↔ healthy) (sameTotal : others = total) (sameCollided : collidedToo = collided)
    (sameMarked : markedToo ↔ marked) :
    Counts more others collidedToo markedToo blackdepth dump next := by
  rw [propext sameHealthy, propext sameMarked, sameTotal, sameCollided]
  exact counts

/-- Two parts after each other. -/
theorem Counts.trans (first : Counts healthy total collided marked blackdepth dump middle)
    (second : Counts more others collidedToo markedToo blackdepth middle next) :
    Counts (healthy ∧ more) (total + others) (collided + collidedToo) (marked ∨ markedToo)
      blackdepth dump next where
  toGrows := first.toGrows.trans second.toGrows
  errs_eq := by
    have firstGrows := first.errs_le
    have secondGrows := second.errs_le
    rw [← first.errs_eq, ← second.errs_eq]
    omega
  nb := fun ⟨here, there⟩ => by rw [second.nb there, first.nb here, Nat.add_assoc]
  collision := fun ⟨here, there⟩ => by
    rw [second.collision there, first.collision here, Nat.add_assoc]
  unmarked := fun ⟨here, there⟩ none => by
    obtain ⟨maxSame, minSame⟩ := second.unmarked there fun marked => none (Or.inr marked)
    obtain ⟨maxBefore, minBefore⟩ := first.unmarked here fun marked => none (Or.inl marked)
    exact ⟨maxSame.trans maxBefore, minSame.trans minBefore⟩
  marked := fun ⟨here, there⟩ some => by
    by_cases firstMarked : marked <;> by_cases secondMarked : markedToo
    · obtain ⟨maxAfter, minAfter⟩ := second.marked there secondMarked
      obtain ⟨maxBefore, minBefore⟩ := first.marked here firstMarked
      rw [maxAfter, minAfter, maxBefore, minBefore]
      omega
    · obtain ⟨maxAfter, minAfter⟩ := second.unmarked there secondMarked
      obtain ⟨maxBefore, minBefore⟩ := first.marked here firstMarked
      rw [maxAfter, minAfter, maxBefore, minBefore]
      exact ⟨rfl, rfl⟩
    · obtain ⟨maxAfter, minAfter⟩ := second.marked there secondMarked
      obtain ⟨maxBefore, minBefore⟩ := first.unmarked here firstMarked
      rw [maxAfter, minAfter, maxBefore, minBefore]
      exact ⟨rfl, rfl⟩
    · exact absurd some (by simp [firstMarked, secondMarked])

end Counts

/-- Counters that differ in none of what is counted here. -/
theorem Counts.same {blackdepth : Nat} {dump next : HashDump} (errs : next.errs = dump.errs)
    (nb : next.nb = dump.nb) (collision : next.collision = dump.collision)
    (depths : next.max_blackdepth = dump.max_blackdepth ∧
      next.min_blackdepth = dump.min_blackdepth) :
    Counts True 0 0 False blackdepth dump next where
  toGrows := ⟨errs.ge, depths.1.ge, depths.2.le⟩
  errs_eq := iff_of_true errs trivial
  nb _ := nb
  collision _ := collision
  unmarked _ _ := depths
  marked _ marked := marked.elim

/-- One more entry is behind the head of its list. -/
theorem Counts.oneBehind (blackdepth : Nat) (dump : HashDump) : Counts True 0 1 False blackdepth
    dump { dump with collision := dump.collision + 1 } where
  toGrows := ⟨Nat.le_refl _, Nat.le_refl _, Nat.le_refl _⟩
  errs_eq := iff_of_true rfl trivial
  nb _ := rfl
  collision _ := rfl
  unmarked _ _ := ⟨rfl, rfl⟩
  marked _ marked := marked.elim

namespace HashDump

theorem errorIf_counts (wrong : Prop) [Decidable wrong] (blackdepth : Nat) (dump : HashDump) :
    Counts (¬ wrong) 0 0 False blackdepth dump (dump.errorIf wrong) := by
  unfold errorIf
  split
  · next bad =>
      exact ⟨⟨Nat.le_succ _, Nat.le_refl _, Nat.le_refl _⟩, by simp [bad], fun fine => absurd bad fine,
        fun fine => absurd bad fine, fun fine => absurd bad fine, fun _ marked => marked.elim⟩
  · next fine => exact (Counts.refl dump).congr (by simp [fine]) rfl rfl Iff.rfl

theorem updateBlackdepth_counts (blackdepth : Nat) (dump : HashDump) :
    Counts True 0 0 True blackdepth dump (dump.updateBlackdepth blackdepth) := by
  have raised : dump.updateBlackdepth blackdepth = { dump with
      max_blackdepth := max dump.max_blackdepth blackdepth
      min_blackdepth := min dump.min_blackdepth blackdepth } := by
    unfold updateBlackdepth
    by_cases higher : dump.max_blackdepth < blackdepth <;>
      by_cases lower : blackdepth < dump.min_blackdepth
    · rw [if_pos higher, if_pos lower, max_eq_right higher.le, min_eq_right lower.le]
    · rw [if_pos higher, if_neg lower, max_eq_right higher.le, min_eq_left (not_lt.mp lower)]
    · rw [if_neg higher, if_pos lower, max_eq_left (not_lt.mp higher), min_eq_right lower.le]
    · rw [if_neg higher, if_neg lower, max_eq_left (not_lt.mp higher),
        min_eq_left (not_lt.mp lower)]
  rw [raised]
  exact ⟨⟨Nat.le_refl _, le_max_left _ _, min_le_left _ _⟩, iff_of_true rfl trivial,
    fun _ => rfl, fun _ => rfl, fun _ none => absurd trivial none, fun _ _ => ⟨rfl, rfl⟩⟩

/-- The visit of one entry counts an error unless its hash is in the range. -/
theorem meet_counts (links : Links (Fin (n + 2))) (depth blackdepth : Nat) (min max : Fin (n + 2))
    (dump : HashDump) :
    Counts (min ≤ links.hash ∧ links.hash ≤ max) 1 0 (links.Alone ∧ links.Open)
      (links.blackdepth blackdepth + 1) dump (dump.meet links depth blackdepth min max) := by
  let entered := { dump with nb := dump.nb + 1 }
  let deeper := if entered.max_depth < depth then { entered with max_depth := depth } else entered
  let leafed := if (links.left = 0 ∧ links.right = 0) ∧ depth < deeper.min_depth
    then { deeper with min_depth := depth } else deeper
  let colored := if links.Alone ∧ links.Open
    then leafed.updateBlackdepth (links.blackdepth blackdepth + 1) else leafed
  have enter : Counts True 1 0 False (links.blackdepth blackdepth + 1) dump entered :=
    ⟨⟨Nat.le_refl _, Nat.le_refl _, Nat.le_refl _⟩, iff_of_true rfl trivial, fun _ => rfl,
      fun _ => rfl, fun _ _ => ⟨rfl, rfl⟩, fun _ marked => marked.elim⟩
  have deepen : Counts True 0 0 False (links.blackdepth blackdepth + 1) entered deeper := by
    simp only [deeper]
    split
    · exact .same rfl rfl rfl ⟨rfl, rfl⟩
    · exact .refl _
  have leaf : Counts True 0 0 False (links.blackdepth blackdepth + 1) deeper leafed := by
    simp only [leafed]
    split
    · exact .same rfl rfl rfl ⟨rfl, rfl⟩
    · exact .refl _
  have color : Counts True 0 0 (links.Alone ∧ links.Open) (links.blackdepth blackdepth + 1)
      leafed colored := by
    simp only [colored]
    split
    · next marked =>
        exact (updateBlackdepth_counts _ _).congr Iff.rfl rfl rfl (iff_of_true marked trivial)
    · next none => exact (Counts.refl _).congr Iff.rfl rfl rfl (iff_of_false none not_false)
  have range := (errorIf_counts (links.hash < min) (links.blackdepth blackdepth + 1) colored).trans
    (errorIf_counts (max < links.hash) _ _)
  refine ((((enter.trans deepen).trans leaf).trans color).trans range).congr ?_ rfl rfl ?_
  · simp only [not_lt, true_and]
  · simp only [or_false, false_or]

/-- The checks of a child count nothing exactly if they find nothing. -/
theorem checkChild_counts (wrong : Prop) [Decidable wrong] (mdata : Id)
    (links child : Links (Fin (n + 2))) (blackdepth : Nat) (dump : HashDump) :
    Counts (¬ wrong ∧ child.up = mdata ∧ (links.color = .red -> child.color = .black)) 0 0 False
      blackdepth dump (dump.checkChild wrong mdata links child) := by
  have hash := errorIf_counts wrong blackdepth dump
  have up := errorIf_counts (child.up ≠ mdata) blackdepth (dump.errorIf wrong)
  have color := errorIf_counts (links.color = .red ∧ child.color ≠ .black) blackdepth
    ((dump.errorIf wrong).errorIf (child.up ≠ mdata))
  refine ((hash.trans up).trans color).congr ?_ rfl rfl (by simp)
  rw [not_not, not_and, not_not, and_assoc]

end HashDump

/-- Where nothing is marked, the black depth does not matter. -/
theorem Counts.level {healthy marked : Prop} {total collided blackdepth other : Nat}
    {dump next : HashDump} (counts : Counts healthy total collided marked blackdepth dump next)
    (none : ¬ marked) : Counts healthy total collided False other dump next :=
  { counts with
    unmarked := fun healthy _ => counts.unmarked healthy none
    marked := fun _ marked => marked.elim }

theorem HashDump.countChildren_counts (links : Links (Fin (n + 2))) (blackdepth : Nat)
    (dump : HashDump) : Counts True 0 0 False blackdepth dump (dump.countChildren links) :=
  .same rfl rfl rfl ⟨rfl, rfl⟩

/-! ## The dump of an index without damage -/

section Index

variable {store : Store (Fin (n + 2))} {tails : Id -> List Id} {tree left right : RbTree Id}

/-- How many entries there are in a subtree and in its collision lists. -/
def indexSize (tails : Id -> List Id) (tree : RbTree Id) : Nat :=
  (tree.inorder.map fun id => (tails id).length + 1).sum

/-- How many entries are behind the heads of the collision lists. -/
def tailCount (tails : Id -> List Id) (tree : RbTree Id) : Nat :=
  (tree.inorder.map fun id => (tails id).length).sum

theorem indexSize_node (color : Color) (id : Id) :
    indexSize tails (.node color left id right) =
      1 + indexSize tails left + indexSize tails right + (tails id).length := by
  simp only [indexSize, RbTree.inorder, List.map_append, List.map_cons, List.sum_append,
    List.sum_cons]
  omega

theorem tailCount_node (color : Color) (id : Id) :
    tailCount tails (.node color left id right) =
      tailCount tails left + tailCount tails right + (tails id).length := by
  simp only [tailCount, RbTree.inorder, List.map_append, List.map_cons, List.sum_append,
    List.sum_cons]
  omega

/-- What the dump finds nothing wrong with: it stops below a depth of 32, and takes the hashes next
to one that is in a list for its neighbours. -/
structure Fits (store : Store (Fin (n + 2))) (tails : Id -> List Id) (depth : Nat)
    (tree : RbTree Id) : Prop where
  levels : tree.levels + depth ≤ 33
  lists : forall id, id ∈ tree.inorder -> tails id ≠ [] ->
    (store.entries id).hash ≠ 0 ∧ (store.entries id).hash ≠ Fin.last (n + 1)

/-- Some entry shows the dump the black depth of the tree. -/
def Marked (store : Store (Fin (n + 2))) (tails : Id -> List Id) (tree : RbTree Id) : Prop :=
  Exists fun id => id ∈ tree.inorder ∧ tails id = [] ∧ (store.entries id).Open

/-- The order that the dump asks for: to the right of an entry it lets its hash come again, except
at the next entry down. -/
def Sorted (store : Store (Fin (n + 2))) : RbTree Id -> Prop
  | .leaf => True
  | .node _ left id right =>
      Sorted store left ∧ Sorted store right ∧
        (forall other, other ∈ left.inorder ->
          (store.entries other).hash < (store.entries id).hash) ∧
        (forall other, other ∈ right.inorder ->
          (store.entries id).hash ≤ (store.entries other).hash) ∧
        (rootId right ≠ 0 -> (store.entries id).hash < (store.entries (rootId right)).hash)

/-- A collision list is linked, and what is behind its head is nowhere in the tree. -/
structure Listed (store : Store (Fin (n + 2))) (tails : Id -> List Id) (id : Id) : Prop where
  chained : IsChain store.entries 0 (id :: tails id) 0
  behind : forall tail, tail ∈ tails id -> (store.entries tail).hash = (store.entries id).hash ∧
    (store.entries tail).left = 0 ∧ (store.entries tail).right = 0

theorem fits_leaf {depth : Nat} (shallow : depth ≤ 32) : Fits store tails (depth + 1) .leaf :=
  ⟨by simp only [RbTree.levels]; omega, fun _ member => absurd member List.not_mem_nil⟩

theorem fits_node {color : Color} {id : Id} {depth : Nat} :
    Fits store tails depth (.node color left id right) ↔
      Fits store tails (depth + 1) left ∧ Fits store tails (depth + 1) right ∧
        (tails id ≠ [] ->
          (store.entries id).hash ≠ 0 ∧ (store.entries id).hash ≠ Fin.last (n + 1)) := by
  constructor
  · intro fits
    have levels := fits.levels
    simp only [RbTree.levels] at levels
    refine ⟨⟨by omega, fun other member => fits.lists other ?_⟩,
      ⟨by omega, fun other member => fits.lists other ?_⟩, fits.lists id ?_⟩
    · exact List.mem_append_left _ member
    · exact List.mem_append_right _ (List.mem_cons_of_mem _ member)
    · exact List.mem_append_right _ List.mem_cons_self
  · rintro ⟨leftFits, rightFits, own⟩
    have leftLevels := leftFits.levels
    have rightLevels := rightFits.levels
    refine ⟨by simp only [RbTree.levels]; omega, fun other member => ?_⟩
    rcases List.mem_append.mp member with before | rest
    · exact leftFits.lists other before
    · rcases List.mem_cons.mp rest with rfl | after
      · exact own
      · exact rightFits.lists other after

theorem marked_node {color : Color} {id : Id} :
    Marked store tails (.node color left id right) ↔
      (tails id = [] ∧ (store.entries id).Open) ∨ Marked store tails left ∨
        Marked store tails right := by
  simp only [Marked, RbTree.inorder, List.mem_append, List.mem_cons]
  constructor
  · rintro ⟨other, before | rfl | after, marked⟩
    · exact Or.inr (Or.inl ⟨other, before, marked⟩)
    · exact Or.inl marked
    · exact Or.inr (Or.inr ⟨other, after, marked⟩)
  · rintro (marked | ⟨other, before, marked⟩ | ⟨other, after, marked⟩)
    · exact ⟨id, Or.inr (Or.inl rfl), marked⟩
    · exact ⟨other, Or.inl before, marked⟩
    · exact ⟨other, Or.inr (Or.inr after), marked⟩

theorem sorted_of_pairwise (ordered : tree.inorder.Pairwise fun one two =>
    (store.entries one).hash < (store.entries two).hash) : Sorted store tree := by
  induction tree with
  | leaf => trivial
  | node color left id right leftHypothesis rightHypothesis =>
      rw [RbTree.inorder, List.pairwise_append, List.pairwise_cons] at ordered
      obtain ⟨leftOrdered, ⟨more, rightOrdered⟩, less⟩ := ordered
      exact ⟨leftHypothesis leftOrdered, rightHypothesis rightOrdered,
        fun other member => less other member id List.mem_cons_self,
        fun other member => (more other member).le, fun some => more _ (rootId_mem some)⟩

/-- An entry is alone if nothing is behind it. -/
theorem Listed.alone_iff {id : Id} (listed : Listed store tails id) :
    (store.entries id).Alone ↔ tails id = [] := by
  obtain ⟨-, previous, next, rest⟩ := listed.chained
  rw [Links.Alone, next, previous]
  cases tailsOf : tails id with
  | nil => simp
  | cons first others =>
      rw [tailsOf] at rest
      simp [rest.1]

/-- Below the least hash is the greatest one. -/
theorem lt_sub_one_iff {hash : Fin (n + 2)} : hash < hash - 1 ↔ hash = 0 := by
  rw [Fin.lt_def, Fin.coe_sub_one]
  constructor
  · intro wraps
    by_contra nonzero
    rw [if_neg nonzero] at wraps
    omega
  · rintro rfl
    rw [if_pos rfl]
    exact Nat.succ_pos n

theorem le_sub_one {hash less : Fin (n + 2)} (lower : less < hash) : less ≤ hash - 1 := by
  have nonzero : hash ≠ 0 := fun zero => absurd lower (by rw [zero]; exact not_lt.mpr (Fin.zero_le _))
  rw [Fin.lt_def] at lower
  rw [Fin.le_def, Fin.coe_sub_one, if_neg nonzero]
  omega

/-- The visit of an entry behind the head of a list. -/
theorem Store.dumpHash_tail (level : Nat) {first previous after : Id} {depth : Nat}
    (shallow : depth ≤ 32)
    (behind : previous ≠ 0) (chained : IsChain store.entries previous [first] after)
    (leftNone : (store.entries first).left = 0) (rightNone : (store.entries first).right = 0)
    (blackdepth : Nat) (dump : HashDump) : Exists fun middle =>
      Counts ((store.entries first).hash ≠ 0 ∧ (store.entries first).hash ≠ Fin.last (n + 1)) 1 0
        False level dump middle ∧
      forall fuel, store.dumpHash (fuel + 1) first depth blackdepth
          ((store.entries first).hash - 1) ((store.entries first).hash + 1) dump =
        if after ≠ 0 then do
          let dump ← store.dumpHash fuel after depth ((store.entries first).blackdepth blackdepth)
            ((store.entries first).hash - 1) ((store.entries first).hash + 1) middle
          .ok { dump with collision := dump.collision + 1 }
        else .ok middle := by
  obtain ⟨nonzero, before, next, -⟩ := chained
  have notAlone : ¬ (store.entries first).Alone := fun alone => behind (before ▸ alone.2)
  have met := dump.meet_counts (store.entries first) depth blackdepth
    ((store.entries first).hash - 1) ((store.entries first).hash + 1)
  have counted := (met.level fun marked => notAlone marked.1).trans
    (HashDump.countChildren_counts (store.entries first) level _)
  refine ⟨_, counted.congr ?_ rfl rfl (or_self_iff).symm, fun fuel => ?_⟩
  · rw [and_true, ← not_lt, ← not_lt, lt_sub_one_iff, Fin.add_one_lt_iff]
  · rw [Store.dumpHash, if_neg (not_lt.mpr shallow), if_neg nonzero]
    simp only [leftNone, rightNone, next, ne_eq, not_true_eq_false, if_false, List.headD_nil]
    rfl

/-- The dump of the entries behind the head of a list. -/
theorem Store.dumpHash_tails {hash : Fin (n + 2)} {depth level : Nat} (shallow : depth ≤ 32)
    {rest : List Id} {first previous : Id} (behind : previous ≠ 0)
    (chained : IsChain store.entries previous (first :: rest) 0)
    (tail : forall id, id ∈ first :: rest -> (store.entries id).hash = hash ∧
      (store.entries id).left = 0 ∧ (store.entries id).right = 0)
    {fuel : Nat} (enough : rest.length < fuel) (blackdepth : Nat) (dump : HashDump) :
    Exists fun next =>
      store.dumpHash fuel first depth blackdepth (hash - 1) (hash + 1) dump = .ok next ∧
        Counts (hash ≠ 0 ∧ hash ≠ Fin.last (n + 1)) (rest.length + 1) rest.length False level
          dump next := by
  induction rest generalizing first previous fuel blackdepth dump with
  | nil =>
      obtain ⟨fuel, rfl⟩ := Nat.exists_eq_add_one_of_ne_zero (Nat.ne_zero_of_lt enough)
      obtain ⟨rfl, leftNone, rightNone⟩ := tail first List.mem_cons_self
      obtain ⟨middle, counts, visit⟩ := store.dumpHash_tail level shallow behind chained
        leftNone rightNone blackdepth dump
      exact ⟨middle, visit fuel, counts⟩
  | cons second rest inductionHypothesis =>
      obtain ⟨fuel, rfl⟩ := Nat.exists_eq_add_one_of_ne_zero (Nat.ne_zero_of_lt enough)
      obtain ⟨rfl, leftNone, rightNone⟩ := tail first List.mem_cons_self
      obtain ⟨nonzero, before, after, others⟩ := chained
      have alone : IsChain store.entries previous [first] second := ⟨nonzero, before, after, trivial⟩
      obtain ⟨middle, counts, visit⟩ := store.dumpHash_tail level shallow behind alone
        leftNone rightNone blackdepth dump
      obtain ⟨last, dumped, more⟩ := inductionHypothesis nonzero others
        (fun id member => tail id (List.mem_cons_of_mem _ member)) (Nat.lt_of_succ_lt_succ enough)
        ((store.entries first).blackdepth blackdepth) middle
      refine ⟨_, ?_, ((counts.trans more).trans (.oneBehind _ last)).congr ?_ ?_ ?_ ?_⟩
      · rw [visit fuel, if_pos others.1, dumped]
        rfl
      · rw [and_true, and_self]
      · simp only [List.length_cons]
        omega
      · simp only [List.length_cons]
        omega
      · simp only [or_self]

/-- What the dump does at an entry once it has been to its children. -/
def Store.dumpBehind (store : Store (Fin (n + 2))) (fuel : Nat) (mdata : Id)
    (depth blackdepth : Nat) (dump : HashDump) : Except DumpFault HashDump :=
  let links := store.entries mdata
  if links.collision_next ≠ 0 then do
    let dump ← store.dumpHash fuel links.collision_next depth blackdepth (links.hash - 1)
      (links.hash + 1) dump
    .ok { dump with collision := dump.collision + 1 }
  else .ok dump

theorem Listed.dumpBehind {id : Id} (listed : Listed store tails id) (level : Nat) {depth : Nat}
    (shallow : depth ≤ 32) {fuel : Nat} (enough : (tails id).length ≤ fuel) (blackdepth : Nat)
    (dump : HashDump) : Exists fun next =>
      store.dumpBehind fuel id depth blackdepth dump = .ok next ∧
        Counts (tails id ≠ [] ->
            (store.entries id).hash ≠ 0 ∧ (store.entries id).hash ≠ Fin.last (n + 1))
          (tails id).length (tails id).length False level dump next := by
  obtain ⟨nonzero, -, next, rest⟩ := listed.chained
  have behind := listed.behind
  unfold Store.dumpBehind
  cases tailsOf : tails id with
  | nil =>
      rw [tailsOf] at next
      simp only [next, List.headD_nil, ne_eq, not_true_eq_false, if_false]
      exact ⟨dump, rfl, (Counts.refl dump).congr (by simp) rfl rfl Iff.rfl⟩
  | cons first others =>
      rw [tailsOf] at next rest behind enough
      have some : (store.entries id).collision_next ≠ 0 := next ▸ rest.1
      obtain ⟨last, dumped, counts⟩ := store.dumpHash_tails shallow nonzero rest behind
        (Nat.lt_of_succ_le enough) blackdepth dump
      simp only [if_pos some]
      rw [next, List.headD_cons, dumped]
      exact ⟨_, rfl, (counts.trans (.oneBehind _ last)).congr (by simp) rfl rfl (by simp)⟩

/-- A part of the dump that covers a subtree. -/
def Covers (store : Store (Fin (n + 2))) (tails : Id -> List Id) (depth level : Nat)
    (tree : RbTree Id) (part : HashDump -> Except DumpFault HashDump) : Prop :=
  forall dump, Exists fun next => part dump = .ok next ∧
    Counts (Fits store tails depth tree) (indexSize tails tree) (tailCount tails tree)
      (Marked store tails tree) level dump next

/-- A child that passes the checks is visited, and a missing one is not. -/
theorem covers_child {depth level : Nat} (shallow : depth ≤ 32) {wrong : Prop} [Decidable wrong]
    {id : Id} {links : Links (Fin (n + 2))} {call : HashDump -> Except DumpFault HashDump}
    (fine : rootId tree ≠ 0 -> ¬ wrong ∧ (store.entries (rootId tree)).up = id ∧
      (links.color = .red -> (store.entries (rootId tree)).color = .black))
    (covers : rootId tree ≠ 0 -> Covers store tails (depth + 1) level tree call)
    (leaf : rootId tree = 0 -> tree = .leaf) :
    Covers store tails (depth + 1) level tree fun dump =>
      if rootId tree ≠ 0
      then call (dump.checkChild wrong id links (store.entries (rootId tree)))
      else .ok dump := by
  intro dump
  by_cases present : rootId tree ≠ 0
  · have checked := dump.checkChild_counts wrong id links (store.entries (rootId tree)) level
    obtain ⟨next, done, counts⟩ := covers present
      (dump.checkChild wrong id links (store.entries (rootId tree)))
    simp only [if_pos present]
    refine ⟨next, done, (checked.trans counts).congr ?_ ?_ ?_ (by rw [false_or])⟩
    · exact (and_iff_right (fine present)).symm
    · exact (Nat.zero_add _).symm
    · exact (Nat.zero_add _).symm
  · simp only [if_neg present]
    rw [leaf (not_not.mp present)]
    refine ⟨dump, rfl, (Counts.refl dump).congr (iff_of_true (fits_leaf shallow) trivial) rfl rfl ?_⟩
    simp [Marked, RbTree.inorder]

theorem balanced_children {color : Color} {id height : Nat}
    (balanced : (RbTree.node color left id right).Balanced height) : Exists fun below =>
      left.Balanced below ∧ right.Balanced below ∧
        height = below + (if color = .black then 1 else 0) ∧
        (color = .red -> left.color = .black ∧ right.color = .black) := by
  cases color with
  | red => exact ⟨height, balanced.1, balanced.2.1, rfl, fun _ => balanced.2.2⟩
  | black =>
      obtain ⟨below, same, leftBalanced, rightBalanced⟩ := balanced
      exact ⟨below, leftBalanced, rightBalanced, same, fun red => nomatch red⟩

theorem IsTree.root {entries : Id -> Links (Fin (n + 2))} {above : Id}
    (isTree : IsTree entries above tree) (present : rootId tree ≠ 0) :
    (entries (rootId tree)).up = above ∧ (entries (rootId tree)).color = tree.color := by
  cases tree with
  | leaf => exact absurd rfl present
  | node color left id right => exact ⟨isTree.2.2.1, isTree.2.1⟩

/-- The dump covers a subtree that is as it should be. -/
theorem Store.dumpHash_covers {above : Id} {height : Nat} (depth blackdepth : Nat)
    {min max : Fin (n + 2)} {fuel : Nat} (present : rootId tree ≠ 0)
    (isTree : IsTree store.entries above tree) (balanced : tree.Balanced height)
    (sorted : Sorted store tree)
    (listed : forall id, id ∈ tree.inorder -> Listed store tails id)
    (inside : forall id, id ∈ tree.inorder ->
      min ≤ (store.entries id).hash ∧ (store.entries id).hash ≤ max)
    (enough : indexSize tails tree ≤ fuel) :
    Covers store tails depth (blackdepth + height + 1) tree
      (store.dumpHash fuel (rootId tree) depth blackdepth min max) := by
  induction tree generalizing above height depth blackdepth min max fuel with
  | leaf => exact absurd rfl present
  | node color left id right leftHypothesis rightHypothesis =>
      intro dump
      rw [indexSize_node] at enough
      obtain ⟨fuel, rfl⟩ := Nat.exists_eq_add_one_of_ne_zero (n := fuel) (by omega)
      obtain ⟨nonzero, colored, -, leftLink, rightLink, inLeft, inRight⟩ := isTree
      obtain ⟨below, leftBalanced, rightBalanced, heights, blacks⟩ := balanced_children balanced
      obtain ⟨leftSorted, rightSorted, less, more, next⟩ := sorted
      have own : id ∈ (RbTree.node color left id right).inorder :=
        List.mem_append_right _ List.mem_cons_self
      have beforeIn : forall other, other ∈ left.inorder ->
          other ∈ (RbTree.node color left id right).inorder :=
        fun other member => List.mem_append_left _ member
      have afterIn : forall other, other ∈ right.inorder ->
          other ∈ (RbTree.node color left id right).inorder :=
        fun other member => List.mem_append_right _ (List.mem_cons_of_mem _ member)
      rw [rootId, Store.dumpHash]
      by_cases shallow : depth ≤ 32
      · rw [if_neg (not_lt.mpr shallow), if_neg nonzero]
        have level : (store.entries id).blackdepth blackdepth + below + 1 =
            blackdepth + height + 1 := by
          rw [heights, Links.blackdepth, colored]
          split <;> omega
        have leftFine (some : rootId left ≠ 0) :
            ¬ (store.entries id).hash ≤ (store.entries (rootId left)).hash ∧
              (store.entries (rootId left)).up = id ∧ ((store.entries id).color = .red ->
                (store.entries (rootId left)).color = .black) :=
          ⟨not_le.mpr (less _ (rootId_mem some)), (inLeft.root some).1, fun red =>
            (inLeft.root some).2.trans (blacks (colored.symm.trans red)).1⟩
        have leftPart := covers_child shallow leftFine
          (fun some => level ▸ leftHypothesis (depth + 1) _ some inLeft leftBalanced leftSorted
            (fun other member => listed other (beforeIn other member))
            (fun other member => ⟨(inside other (beforeIn other member)).1,
              le_sub_one (less other member)⟩) (show _ ≤ fuel by omega))
          inLeft.leaf_of_root
        have rightFine (some : rootId right ≠ 0) :
            ¬ (store.entries (rootId right)).hash ≤ (store.entries id).hash ∧
              (store.entries (rootId right)).up = id ∧ ((store.entries id).color = .red ->
                (store.entries (rootId right)).color = .black) :=
          ⟨not_le.mpr (next some), (inRight.root some).1, fun red =>
            (inRight.root some).2.trans (blacks (colored.symm.trans red)).2⟩
        have rightPart := covers_child shallow rightFine
          (fun some => level ▸ rightHypothesis (depth + 1) _ some inRight rightBalanced rightSorted
            (fun other member => listed other (afterIn other member))
            (fun other member => ⟨more other member,
              (inside other (afterIn other member)).2⟩) (show _ ≤ fuel by omega))
          inRight.leaf_of_root
        have met : Counts True 1 0 (tails id = [] ∧ (store.entries id).Open)
            (blackdepth + height + 1) dump
            (dump.meet (store.entries id) depth blackdepth min max) := by
          have counts := dump.meet_counts (store.entries id) depth blackdepth min max
          have fine := iff_of_true trivial (inside id own)
          rw [(listed id own).alone_iff] at counts
          by_cases missing : (store.entries id).Open
          · have bottom : below = 0 := by
              rcases missing with none | none
              · rw [leftLink] at none
                rwa [inLeft.leaf_of_root none] at leftBalanced
              · rw [rightLink] at none
                rwa [inRight.leaf_of_root none] at rightBalanced
            rw [← level, bottom]
            exact counts.congr fine rfl rfl Iff.rfl
          · refine (counts.level fun marked => missing marked.2).congr fine rfl rfl ?_
            exact iff_of_false (fun marked => missing marked.2) not_false
        obtain ⟨afterLeft, leftDone, leftCounts⟩ := leftPart _
        obtain ⟨afterRight, rightDone, rightCounts⟩ := rightPart afterLeft
        obtain ⟨last, listDone, listCounts⟩ := (listed id own).dumpBehind (blackdepth + height + 1)
          shallow (show (tails id).length ≤ fuel by omega) ((store.entries id).blackdepth blackdepth)
          (afterRight.countChildren (store.entries id))
        have children := HashDump.countChildren_counts (store.entries id) (blackdepth + height + 1)
          afterRight
        refine ⟨last, ?_, ((((met.trans leftCounts).trans rightCounts).trans children).trans
          listCounts).congr ?_ ?_ ?_ ?_⟩
        · simp only at leftDone rightDone
          simp only [leftLink, rightLink, HashDump.checkLeft, HashDump.checkRight]
          rw [leftDone]
          simp only [bind, Except.bind]
          rw [rightDone]
          exact listDone
        · rw [fits_node]
          simp only [true_and, and_true, and_assoc]
        · rw [indexSize_node]
          omega
        · rw [tailCount_node]
          omega
        · rw [marked_node]
          simp only [or_false, or_assoc]
      · have deep : ¬ Fits store tails depth (.node color left id right) := by
          intro fits
          have levels := fits.levels
          simp only [RbTree.levels] at levels
          omega
        rw [if_pos (not_le.mp shallow)]
        exact ⟨_, rfl, ⟨Nat.le_succ _, Nat.le_refl _, Nat.le_refl _⟩, iff_of_false (Nat.succ_ne_self _) deep,
          fun fits => absurd fits deep, fun fits => absurd fits deep,
          fun fits => absurd fits deep, fun fits => absurd fits deep⟩

/-- The dump of a whole index in which no link, hash or colour is wrong. -/
theorem dumpLocked_ends {height fuel : Nat} (root : store.hash_root = rootId tree)
    (balanced : tree.Balanced height) (covers : Covers store tails 0 (0 + height + 1) tree
      (store.dumpHash fuel (rootId tree) 0 0 0 (Fin.last (n + 1)))) (dump : HashDump) :
    (Fits store tails 0 tree -> Marked store tails tree -> Exists fun next =>
        store.dumpLocked fuel false dump = .ok next ∧ next.errs = 0 ∧
          next.nb = indexSize tails tree ∧
          next.collision = dump.collision + tailCount tails tree) ∧
      (¬ (Fits store tails 0 tree ∧ Marked store tails tree) ->
        store.dumpLocked fuel false dump = .error .hashTreeErrors) := by
  obtain ⟨last, dumped, counts⟩ := covers dump.restart
  have whole : store.dumpLocked fuel false dump =
      if (last.errorIf (last.min_blackdepth ≠ last.max_blackdepth)).errs ≠ 0
      then .error .hashTreeErrors
      else .ok (last.errorIf (last.min_blackdepth ≠ last.max_blackdepth)) := by
    unfold Store.dumpLocked
    rw [root, dumped]
    simp only [bind, Except.bind, and_true]
  constructor
  · intro fits marked
    have low : height + 1 ≤ 2 ^ 30 := by
      have levels := fits.levels
      have heights := balanced.le_levels
      omega
    obtain ⟨highest, lowest⟩ := counts.marked fits marked
    have same : last.min_blackdepth = last.max_blackdepth := by
      rw [highest, lowest]
      simp only [HashDump.restart]
      omega
    have none : last.errs = 0 := counts.errs_eq.mpr fits
    have kept : last.errorIf (last.min_blackdepth ≠ last.max_blackdepth) = last :=
      if_neg (not_not.mpr same)
    refine ⟨last, ?_, none, ?_, counts.collision fits⟩
    · rw [whole, kept, if_neg (not_not.mpr none)]
    · rw [counts.nb fits]
      exact Nat.zero_add _
  · intro bad
    have some : (last.errorIf (last.min_blackdepth ≠ last.max_blackdepth)).errs ≠ 0 := by
      by_cases fits : Fits store tails 0 tree
      · obtain ⟨highest, lowest⟩ := counts.unmarked fits fun marked => bad ⟨fits, marked⟩
        have different : last.min_blackdepth ≠ last.max_blackdepth := by
          rw [highest, lowest]
          exact Nat.two_pow_pos 30 |>.ne'
        rw [HashDump.errorIf, if_pos different]
        exact Nat.succ_ne_zero _
      · have errs : last.errs ≠ 0 := fun none => fits (counts.errs_eq.mp none)
        rw [HashDump.errorIf]
        split
        · exact Nat.succ_ne_zero _
        · exact errs
    rw [whole, if_pos some]

/-- In a valid index the check ends the program exactly if the index has more than 33 levels, the
least or the greatest hash has a collision list, or every entry that lacks a child has one.  Else it
has counted each entry of the index once. -/
theorem dumpLocked_passes_iff (index : ValidIndex store tree tails) (present : rootId tree ≠ 0)
    {fuel : Nat} (enough : indexSize tails tree ≤ fuel) (dump : HashDump) :
    (store.dumpLocked fuel false dump = .error .hashTreeErrors ↔
        ¬ (Fits store tails 0 tree ∧ Marked store tails tree)) ∧
      (Fits store tails 0 tree -> Marked store tails tree -> Exists fun next =>
        store.dumpLocked fuel false dump = .ok next ∧ next.errs = 0 ∧
          next.nb = indexSize tails tree ∧
          next.collision = dump.collision + tailCount tails tree) ∧
      (tree.inorder.length + 1 < 2 ^ 17 -> tree.levels ≤ 33) := by
  obtain ⟨height, balanced⟩ := index.redBlack.2
  have listed : forall id, id ∈ tree.inorder -> Listed store tails id := by
    intro id member
    refine ⟨index.chained id member, fun tail behind => ⟨index.sameHash id member tail behind, ?_⟩⟩
    exact (index.detached id member tail behind).2
  have covers := store.dumpHash_covers 0 0 present index.holds.isTree
    balanced (sorted_of_pairwise index.ordered) listed
    (fun id _ => ⟨Fin.zero_le _, Fin.le_last _⟩) enough
  obtain ⟨passes, fails⟩ := dumpLocked_ends index.holds.root balanced covers dump
  refine ⟨⟨fun failed => ?_, fails⟩, passes, fun few => ?_⟩
  · rintro ⟨fits, marked⟩
    obtain ⟨next, passed, -⟩ := passes fits marked
    rw [failed] at passed
    cases passed
  · exact Nat.le_of_lt_succ (index.redBlack.levels_lt few)

end Index

/-- Two entries in the tree, and a third one with the hash of the second. -/
def listedTwice : Store (Fin 16) where
  entries
    | 1 => ⟨5, 0, 2, 0, .black, 0, 0⟩
    | 2 => ⟨7, 0, 0, 1, .red, 3, 0⟩
    | 3 => ⟨7, 0, 0, 0, .black, 0, 2⟩
    | _ => ⟨0, 0, 0, 0, .black, 0, 0⟩
  hash_root := 1

theorem listedTwice_valid : ValidIndex listedTwice collidingTree collidingTails where
  holds := ⟨by simp [IsTree, collidingTree, listedTwice, rootId], by decide, rfl⟩
  redBlack := ⟨rfl, 1, 0, rfl, rfl, rfl, rfl, rfl, rfl⟩
  ordered := by decide
  chained := by simp [collidingTree, RbTree.inorder, IsChain, collidingTails, listedTwice]
  distinct := by decide
  sameHash := by decide
  detached := by decide

/-- The check of `listedTwice` counts its three entries. -/
theorem dumpLocked_passes_listedTwice : Exists fun next =>
    listedTwice.dumpLocked 3 false ⟨0, 0, 0, fun _ => 0, 0, 0, 0, 0⟩ = .ok next ∧ next.errs = 0 ∧
      next.nb = 3 ∧ next.collision = 1 :=
  (dumpLocked_passes_iff listedTwice_valid (by decide) (Nat.le_refl 3) _).2.1
    ⟨by decide, by decide⟩ ⟨1, by decide, rfl, Or.inl rfl⟩

/-! ## What the dump finds out about any store -/

section Sound

variable {store : Store (Fin (n + 2))} {tree : RbTree Id} {mdata : Id} {depth blackdepth : Nat}
  {min max : Fin (n + 2)} {dump next : HashDump}

/-- Every entry outside the lists that lacks a child has a black depth in the range, and no red
entry has a red child. -/
def Painted (store : Store (Fin (n + 2))) (low high : Nat) : (blackdepth : Nat) -> RbTree Id -> Prop
  | _, .leaf => True
  | blackdepth, .node color left id right =>
      let below := (store.entries id).blackdepth blackdepth
      ((store.entries id).Alone -> (store.entries id).Open -> low ≤ below + 1 ∧ below + 1 ≤ high) ∧
        (color = .red -> left.color = .black ∧ right.color = .black) ∧
        Painted store low high below left ∧ Painted store low high below right

theorem Painted.mono {low high lower higher : Nat} (lowest : lower ≤ low) (highest : high ≤ higher)
    (painted : Painted store low high blackdepth tree) :
    Painted store lower higher blackdepth tree := by
  induction tree generalizing blackdepth with
  | leaf => trivial
  | node color left id right leftHypothesis rightHypothesis =>
      obtain ⟨own, blacks, leftPainted, rightPainted⟩ := painted
      refine ⟨fun alone missing => ?_, blacks, leftHypothesis leftPainted,
        rightHypothesis rightPainted⟩
      have range := own alone missing
      exact ⟨lowest.trans range.1, range.2.trans highest⟩

/-- The subtree that the dump has found without an error. -/
structure Found (store : Store (Fin (n + 2))) (up depth blackdepth : Nat) (min max : Fin (n + 2))
    (next : HashDump) (mdata : Id) (tree : RbTree Id) : Prop where
  root : rootId tree = mdata
  isTree : IsTree store.entries up tree
  levels : tree.levels + depth ≤ 33
  sorted : Sorted store tree
  inside : forall id, id ∈ tree.inorder ->
    min ≤ (store.entries id).hash ∧ (store.entries id).hash ≤ max
  painted : Painted store next.min_blackdepth next.max_blackdepth blackdepth tree

/-- What is true of a call of the dump that returns. -/
def Finds (store : Store (Fin (n + 2))) (fuel : Nat) : Prop :=
  forall {mdata : Id} {depth blackdepth : Nat} {min max : Fin (n + 2)} {dump next : HashDump},
    store.dumpHash fuel mdata depth blackdepth min max dump = .ok next ->
      Grows dump next ∧ (next.errs = dump.errs -> mdata ≠ 0 ∧ Exists fun tree =>
        Found store (store.entries mdata).up depth blackdepth min max next mdata tree)

/-- What is true of the dump of a child. -/
theorem Finds.child {fuel : Nat} (finds : Finds store fuel) {wrong : Prop} [Decidable wrong]
    {child : Id} {links : Links (Fin (n + 2))} (shallow : depth ≤ 32)
    (dumped : (if child ≠ 0 then store.dumpHash fuel child (depth + 1) blackdepth min max
        (dump.checkChild wrong mdata links (store.entries child)) else .ok dump) = .ok next) :
    Grows dump next ∧ (next.errs = dump.errs -> (child ≠ 0 -> ¬ wrong) ∧ Exists fun tree =>
      Found store mdata (depth + 1) blackdepth min max next child tree ∧
        (links.color = .red -> tree.color = .black)) := by
  by_cases present : child ≠ 0
  · rw [if_pos present] at dumped
    have checked := dump.checkChild_counts wrong mdata links (store.entries child) 0
    obtain ⟨grows, found⟩ := finds dumped
    refine ⟨checked.toGrows.trans grows, fun same => ?_⟩
    have first := checked.errs_le
    have second := grows.errs_le
    obtain ⟨fine, up, black⟩ := checked.errs_eq.mp (by omega)
    obtain ⟨-, tree, found⟩ := found (by omega)
    refine ⟨fun _ => fine, tree, up ▸ found, fun red => ?_⟩
    have root := (found.isTree.root (found.root ▸ present)).2
    rw [found.root] at root
    exact root.symm.trans (black red)
  · rw [if_neg present] at dumped
    obtain rfl := Except.ok.inj dumped
    refine ⟨.refl _, fun _ => ⟨fun some => absurd some present, .leaf, ⟨?_, trivial, ?_, trivial,
      fun _ member => absurd member List.not_mem_nil, trivial⟩, fun _ => rfl⟩⟩
    · exact (not_not.mp present).symm
    · simp only [RbTree.levels]
      omega

/-- What is true of the dump of the entries behind an entry. -/
theorem Finds.behind {fuel : Nat} (finds : Finds store fuel)
    (dumped : store.dumpBehind fuel mdata depth blackdepth dump = .ok next) : Grows dump next := by
  unfold Store.dumpBehind at dumped
  simp only at dumped
  split at dumped
  · obtain ⟨last, behind, counted⟩ := bind_eq_ok.mp dumped
    obtain rfl := Except.ok.inj counted
    exact (finds behind).1.trans (Counts.oneBehind 0 last).toGrows
  · exact Except.ok.inj dumped ▸ .refl _

theorem lt_of_le_sub_one {hash less : Fin (n + 2)} (nonzero : hash ≠ 0) (lower : less ≤ hash - 1) :
    less < hash := by
  rw [Fin.le_def, Fin.coe_sub_one, if_neg nonzero] at lower
  have positive := Fin.pos_iff_ne_zero.mpr nonzero
  rw [Fin.lt_def] at positive ⊢
  omega

/-- A call of the dump that counts no error has walked through a tree. -/
theorem Store.finds (store : Store (Fin (n + 2))) (fuel : Nat) : Finds store fuel := by
  induction fuel with
  | zero => exact fun dumped => nomatch dumped
  | succ fuel inductionHypothesis =>
      intro mdata depth blackdepth min max dump next dumped
      rw [Store.dumpHash] at dumped
      by_cases deep : 32 < depth
      · rw [if_pos deep] at dumped
        obtain rfl := Except.ok.inj dumped
        exact ⟨⟨Nat.le_succ _, Nat.le_refl _, Nat.le_refl _⟩,
          fun same => absurd same (Nat.succ_ne_self _)⟩
      rw [if_neg deep] at dumped
      by_cases present : mdata = 0
      · rw [if_pos present] at dumped
        cases dumped
      rw [if_neg present] at dumped
      obtain ⟨afterLeft, leftDone, dumped⟩ := bind_eq_ok.mp dumped
      obtain ⟨afterRight, rightDone, behindDone⟩ := bind_eq_ok.mp dumped
      have shallow : depth ≤ 32 := not_lt.mp deep
      have met := dump.meet_counts (store.entries mdata) depth blackdepth min max
      obtain ⟨leftGrows, leftFound⟩ := inductionHypothesis.child shallow leftDone
      obtain ⟨rightGrows, rightFound⟩ := inductionHypothesis.child shallow rightDone
      have behindPart : store.dumpBehind fuel mdata depth
          ((store.entries mdata).blackdepth blackdepth)
          (afterRight.countChildren (store.entries mdata)) = .ok next := behindDone
      have behind := inductionHypothesis.behind behindPart
      have children := (HashDump.countChildren_counts (store.entries mdata) 0 afterRight).toGrows
      have afterMeet := leftGrows.trans (rightGrows.trans (children.trans behind))
      refine ⟨met.toGrows.trans afterMeet, fun same => ⟨present, ?_⟩⟩
      have monotone := met.errs_le
      have leftErrs := leftGrows.errs_le
      have rightErrs := rightGrows.errs_le
      have lastErrs := (children.trans behind).errs_le
      have inside := met.errs_eq.mp (by omega)
      obtain ⟨less, left, leftFound, leftBlack⟩ := leftFound (by omega)
      obtain ⟨more, right, rightFound, rightBlack⟩ := rightFound (by omega)
      have leftLess : forall id, id ∈ left.inorder ->
          (store.entries id).hash < (store.entries mdata).hash := by
        intro id member
        have some : (store.entries mdata).left ≠ 0 := by
          intro none
          rw [leftFound.isTree.leaf_of_root (leftFound.root.trans none)] at member
          exact absurd member List.not_mem_nil
        have above := not_le.mp (less some)
        exact lt_of_le_sub_one (fun zero => absurd above (zero ▸ Fin.not_lt_zero _))
          (leftFound.inside id member).2
      refine ⟨.node (store.entries mdata).color left mdata right, rfl, ?_, ?_, ?_, ?_, ?_⟩
      · exact ⟨present, rfl, rfl, leftFound.root.symm, rightFound.root.symm, leftFound.isTree,
          rightFound.isTree⟩
      · have leftLevels := leftFound.levels
        have rightLevels := rightFound.levels
        simp only [RbTree.levels]
        omega
      · refine ⟨leftFound.sorted, rightFound.sorted, leftLess,
          fun id member => (rightFound.inside id member).1, fun some => ?_⟩
        rw [rightFound.root] at some ⊢
        exact not_le.mp (more some)
      · intro id member
        rcases List.mem_append.mp member with before | rest
        · exact ⟨(leftFound.inside id before).1, (leftLess id before).le.trans inside.2⟩
        · rcases List.mem_cons.mp rest with rfl | after
          · exact inside
          · exact ⟨inside.1.trans (rightFound.inside id after).1, (rightFound.inside id after).2⟩
      · have afterLeft := rightGrows.trans (children.trans behind)
        have afterRight := children.trans behind
        refine ⟨fun alone missing => ?_, fun red => ⟨leftBlack red, rightBlack red⟩,
          leftFound.painted.mono afterLeft.lowest afterLeft.highest,
          rightFound.painted.mono afterRight.lowest afterRight.highest⟩
        obtain ⟨highest, lowest⟩ := met.marked inside ⟨alone, missing⟩
        have low := afterMeet.lowest
        have high := afterMeet.highest
        omega

/-- A dump that ends without an error has walked through a search tree by hash with one black depth
at all the entries that lack a child and are in no list. -/
theorem dumpLocked_sound {fuel : Nat} {toFile : Bool}
    (dumped : store.dumpLocked fuel toFile dump = .ok next) (errs : next.errs = 0) :
    store.hash_root ≠ 0 ∧ Exists fun tree => Exists fun level => rootId tree = store.hash_root ∧
      IsTree store.entries (store.entries store.hash_root).up tree ∧ tree.levels ≤ 33 ∧
      Sorted store tree ∧ Painted store level level 0 tree := by
  obtain ⟨last, walked, checked⟩ := bind_eq_ok.mp dumped
  have result : last.errorIf (last.min_blackdepth ≠ last.max_blackdepth) = next := by
    simp only at checked
    split at checked
    · cases checked
    · exact Except.ok.inj checked
  have final := HashDump.errorIf_counts (last.min_blackdepth ≠ last.max_blackdepth) 0 last
  rw [result] at final
  have none : last.errs = 0 := Nat.eq_zero_of_le_zero (errs ▸ final.errs_le)
  have same := not_not.mp (final.errs_eq.mp (errs.trans none.symm))
  obtain ⟨present, tree, found⟩ := (store.finds fuel walked).2 none
  exact ⟨present, tree, last.max_blackdepth, found.root, found.isTree, found.levels, found.sorted,
    same ▸ found.painted⟩

/-- Where no entry is in a list, one black depth makes a tree balanced. -/
theorem Painted.balanced {up level : Nat} (alone : forall id, (store.entries id).Alone)
    (isTree : IsTree store.entries up tree) (present : rootId tree ≠ 0)
    (painted : Painted store level level blackdepth tree) :
    Exists fun height => tree.Balanced height ∧ blackdepth + height + 1 = level := by
  induction tree generalizing up blackdepth with
  | leaf => exact absurd rfl present
  | node color left id right leftHypothesis rightHypothesis =>
      obtain ⟨-, colored, -, leftLink, rightLink, inLeft, inRight⟩ := isTree
      obtain ⟨own, blacks, leftPainted, rightPainted⟩ := painted
      have leftPart : Exists fun height => left.Balanced height ∧
          (store.entries id).blackdepth blackdepth + height + 1 = level := by
        by_cases some : rootId left ≠ 0
        · exact leftHypothesis inLeft some leftPainted
        · have range := own (alone id) (Or.inl (leftLink.trans (not_not.mp some)))
          rw [inLeft.leaf_of_root (not_not.mp some)]
          exact ⟨0, rfl, le_antisymm range.2 range.1⟩
      have rightPart : Exists fun height => right.Balanced height ∧
          (store.entries id).blackdepth blackdepth + height + 1 = level := by
        by_cases some : rootId right ≠ 0
        · exact rightHypothesis inRight some rightPainted
        · have range := own (alone id) (Or.inr (rightLink.trans (not_not.mp some)))
          rw [inRight.leaf_of_root (not_not.mp some)]
          exact ⟨0, rfl, le_antisymm range.2 range.1⟩
      obtain ⟨height, leftBalanced, leftLevel⟩ := leftPart
      obtain ⟨other, rightBalanced, rightLevel⟩ := rightPart
      have same : other = height := by omega
      subst same
      rw [Links.blackdepth, colored] at leftLevel
      cases color with
      | red =>
          refine ⟨other, ⟨leftBalanced, rightBalanced, blacks rfl⟩, ?_⟩
          rwa [if_neg (by decide)] at leftLevel
      | black =>
          refine ⟨other + 1, ⟨other, rfl, leftBalanced, rightBalanced⟩, ?_⟩
          rw [if_pos rfl] at leftLevel
          omega

theorem IsTree.exists_open {up : Id} (isTree : IsTree store.entries up tree)
    (present : rootId tree ≠ 0) :
    Exists fun id => id ∈ tree.inorder ∧ (store.entries id).Open := by
  induction tree generalizing up with
  | leaf => exact absurd rfl present
  | node color left id right leftHypothesis rightHypothesis =>
      obtain ⟨-, -, -, leftLink, -, inLeft, -⟩ := isTree
      by_cases some : rootId left ≠ 0
      · obtain ⟨other, member, missing⟩ := leftHypothesis inLeft some
        exact ⟨other, List.mem_append_left _ member, missing⟩
      · exact ⟨id, List.mem_append_right _ List.mem_cons_self,
          Or.inl (leftLink.trans (not_not.mp some))⟩

/-- In a store without collision lists the check passes exactly the balanced search trees of at most
33 levels.  It does not look at the colour of the root and at what is above it, and may miss a hash
that is there twice. -/
theorem dumpLocked_accepts_iff (store : Store (Fin (n + 2)))
    (alone : forall id, (store.entries id).Alone) (dump : HashDump) :
    (Exists fun fuel => Exists fun next => store.dumpLocked fuel false dump = .ok next) ↔
      Exists fun tree => Exists fun height => rootId tree = store.hash_root ∧ rootId tree ≠ 0 ∧
        IsTree store.entries (store.entries store.hash_root).up tree ∧ tree.Balanced height ∧
        Sorted store tree ∧ tree.levels ≤ 33 := by
  constructor
  · rintro ⟨fuel, next, dumped⟩
    have errs : next.errs = 0 := by
      obtain ⟨last, walked, checked⟩ := bind_eq_ok.mp dumped
      simp only at checked
      split at checked
      · cases checked
      · next fine =>
          obtain rfl := Except.ok.inj checked
          by_contra some
          exact fine ⟨some, trivial⟩
    obtain ⟨present, tree, level, root, isTree, levels, sorted, painted⟩ :=
      dumpLocked_sound dumped errs
    have some : rootId tree ≠ 0 := root ▸ present
    obtain ⟨height, balanced, -⟩ := painted.balanced alone isTree some
    exact ⟨tree, height, root, some, isTree, balanced, sorted, levels⟩
  · rintro ⟨tree, height, root, some, isTree, balanced, sorted, levels⟩
    have listed : forall id, id ∈ tree.inorder -> Listed store noCollisions id := fun id member =>
      ⟨⟨isTree.ne_zero member, (alone id).2, (alone id).1, trivial⟩, fun _ none => nomatch none⟩
    have covers := store.dumpHash_covers 0 0 some isTree balanced sorted listed
      (fun id _ => ⟨Fin.zero_le _, Fin.le_last _⟩) (Nat.le_refl _)
    have fits : Fits store noCollisions 0 tree := ⟨levels, fun _ _ list => absurd rfl list⟩
    obtain ⟨id, member, missing⟩ := isTree.exists_open some
    obtain ⟨next, passed, -⟩ := (dumpLocked_ends root.symm balanced covers dump).1 fits
      ⟨id, member, rfl, missing⟩
    exact ⟨_, next, passed⟩

end Sound

/-- Four entries of the tree, two of which have the same hash. -/
def doubled : Store (Fin 16) where
  entries
    | 1 => ⟨5, 4, 2, 0, .black, 0, 0⟩
    | 2 => ⟨7, 3, 0, 1, .black, 0, 0⟩
    | 3 => ⟨5, 0, 0, 2, .red, 0, 0⟩
    | 4 => ⟨1, 0, 0, 1, .black, 0, 0⟩
    | _ => ⟨0, 0, 0, 0, .black, 0, 0⟩
  hash_root := 1

/-- The check does not notice that a hash of `doubled` is there twice. -/
theorem dumpLocked_accepts_doubled : Exists fun fuel => Exists fun next =>
    doubled.dumpLocked fuel false ⟨0, 0, 0, fun _ => 0, 0, 0, 0, 0⟩ = .ok next := by
  have alone : forall id, (doubled.entries id).Alone := by
    intro id
    unfold doubled
    dsimp only
    split <;> exact ⟨rfl, rfl⟩
  refine (dumpLocked_accepts_iff doubled alone _).mpr
    ⟨.node .black (.node .black .leaf 4 .leaf) 1
      (.node .black (.node .red .leaf 3 .leaf) 2 .leaf), 2, rfl, by decide, ?_, ?_, ?_, by decide⟩
  · simp [IsTree, doubled, rootId]
  · simp [RbTree.Balanced, RbTree.color]
  · simp [Sorted, RbTree.inorder, doubled, rootId]

end HashIndex
end Mcachefs
