import Mathlib.Algebra.Group.Nat.Defs
import Mathlib.Data.List.Basic

namespace Mcachefs
namespace Library

/-!
# Red-black trees and the places in them

Trees carry a colour at each node.  A place in a tree is a list of frames, the
innermost first; `plug` puts a subtree there.  Algorithms that walk along
parent pointers act on the frames, and the mirror images of a case differ only
in the side of a frame, which `Side` makes a parameter.

`Accepts` says which subtrees a place takes: those of a given black height and
root colour.  `Fix` is the repair of a place whose subtree has lost one black, and
`Rise` that of a place with a red node below one that may be red as well.
-/

/-- The colour of a node. -/
inductive Color
  | red | black
  deriving DecidableEq, Repr

/-- A binary tree with coloured nodes. -/
inductive RbTree (α : Type*)
  | leaf
  | node (color : Color) (left : RbTree α) (value : α) (right : RbTree α)
  deriving DecidableEq, Repr

/-- The two sides of a node. -/
inductive Side
  | left | right
  deriving DecidableEq, Repr

/-- The other side. -/
def Side.other : Side -> Side
  | .left => .right
  | .right => .left

variable {α : Type*}

namespace RbTree

/-- The values from left to right. -/
def inorder : RbTree α -> List α
  | leaf => []
  | node _ left value right => left.inorder ++ value :: right.inorder

/-- The colour of the root; leaves are black. -/
def color : RbTree α -> Color
  | leaf => .black
  | node color _ _ _ => color

/-- The same tree with a black root. -/
def blacken : RbTree α -> RbTree α
  | leaf => leaf
  | node _ left value right => node .black left value right

/-- Every path to a leaf meets `height` black nodes, and no red node has a red
child. -/
def Balanced : RbTree α -> Nat -> Prop
  | leaf, height => height = 0
  | node .red left _ right, height =>
      left.Balanced height ∧ right.Balanced height ∧
        left.color = .black ∧ right.color = .black
  | node .black left _ right, height =>
      Exists fun below => height = below + 1 ∧ left.Balanced below ∧ right.Balanced below

/-- A red-black tree: balanced, with a black root. -/
def RedBlack (tree : RbTree α) : Prop :=
  tree.color = .black ∧ Exists fun height => tree.Balanced height

theorem Balanced.blacken {tree : RbTree α} {height : Nat} (balanced : tree.Balanced height)
    (red : tree.color = .red) : tree.blacken.Balanced (height + 1) := by
  cases tree with
  | leaf => cases red
  | node color left value right =>
      cases color with
      | red => exact ⟨height, rfl, balanced.1, balanced.2.1⟩
      | black => cases red

@[simp] theorem blacken_color (tree : RbTree α) : tree.blacken.color = .black := by
  cases tree <;> rfl

@[simp] theorem blacken_inorder (tree : RbTree α) : tree.blacken.inorder = tree.inorder := by
  cases tree <;> rfl

end RbTree

/-- The same shape over other values. -/
def RbTree.map {β : Type*} (rename : α -> β) : RbTree α -> RbTree β
  | .leaf => .leaf
  | .node color left value right =>
      .node color (left.map rename) (rename value) (right.map rename)

namespace RbTree

@[simp] theorem map_inorder {β : Type*} (rename : α -> β) (tree : RbTree α) :
    (tree.map rename).inorder = tree.inorder.map rename := by
  induction tree with
  | leaf => rfl
  | node color left value right leftHypothesis rightHypothesis =>
      simp [map, inorder, leftHypothesis, rightHypothesis]

@[simp] theorem map_color {β : Type*} (rename : α -> β) (tree : RbTree α) :
    (tree.map rename).color = tree.color := by
  cases tree <;> rfl

theorem map_balanced {β : Type*} (rename : α -> β) (tree : RbTree α) (height : Nat) :
    (tree.map rename).Balanced height ↔ tree.Balanced height := by
  induction tree generalizing height with
  | leaf => exact Iff.rfl
  | node color left value right leftHypothesis rightHypothesis =>
      cases color <;> simp [map, Balanced, leftHypothesis, rightHypothesis]

theorem map_redBlack {β : Type*} (rename : α -> β) (tree : RbTree α) :
    (tree.map rename).RedBlack ↔ tree.RedBlack := by
  simp only [RedBlack, map_color, map_balanced]

/-- Renaming none of its values leaves a tree as it is. -/
theorem map_eq_self {rename : α -> α} {tree : RbTree α}
    (fixed : forall value, value ∈ tree.inorder -> rename value = value) :
    tree.map rename = tree := by
  induction tree with
  | leaf => rfl
  | node color left value right leftHypothesis rightHypothesis =>
      simp only [inorder, List.mem_append, List.mem_cons] at fixed
      rw [map, leftHypothesis (fun other member => fixed other (Or.inl member)),
        rightHypothesis (fun other member => fixed other (Or.inr (Or.inr member))),
        fixed value (Or.inr (Or.inl rfl))]

end RbTree

/-- A node from its child on `side` and the one on the other side. -/
def Side.node (side : Side) (color : Color) (near : RbTree α) (value : α) (far : RbTree α) :
    RbTree α :=
  match side with
  | .left => .node color near value far
  | .right => .node color far value near

theorem Side.other_node (side : Side) (color : Color) (near : RbTree α) (value : α)
    (far : RbTree α) : side.other.node color near value far = side.node color far value near := by
  cases side <;> rfl

@[simp] theorem Side.node_color (side : Side) (color : Color) (near : RbTree α) (value : α)
    (far : RbTree α) : (side.node color near value far).color = color := by
  cases side <;> rfl

theorem Side.balanced_red {side : Side} {near far : RbTree α} {value : α} {height : Nat} :
    (side.node .red near value far).Balanced height ↔
      near.Balanced height ∧ far.Balanced height ∧ near.color = .black ∧ far.color = .black := by
  cases side with
  | left => exact Iff.rfl
  | right => exact ⟨fun ⟨far, near, f, n⟩ => ⟨near, far, n, f⟩,
      fun ⟨near, far, n, f⟩ => ⟨far, near, f, n⟩⟩

theorem Side.balanced_black {side : Side} {near far : RbTree α} {value : α} {height : Nat} :
    (side.node .black near value far).Balanced (height + 1) ↔
      near.Balanced height ∧ far.Balanced height := by
  cases side with
  | left =>
      exact ⟨fun ⟨_, same, near, far⟩ => Nat.succ.inj same ▸ ⟨near, far⟩,
        fun ⟨near, far⟩ => ⟨height, rfl, near, far⟩⟩
  | right =>
      exact ⟨fun ⟨_, same, far, near⟩ => Nat.succ.inj same ▸ ⟨near, far⟩,
        fun ⟨near, far⟩ => ⟨height, rfl, far, near⟩⟩

/-- A tree seen from one side: a leaf, or a node with a near and a far child. -/
theorem Side.cases_node (side : Side) (tree : RbTree α) :
    tree = .leaf ∨ Exists fun color => Exists fun near => Exists fun value =>
      Exists fun far => tree = side.node color near value far := by
  cases tree with
  | leaf => exact Or.inl rfl
  | node color left value right =>
      cases side with
      | left => exact Or.inr ⟨color, left, value, right, rfl⟩
      | right => exact Or.inr ⟨color, right, value, left, rfl⟩

/-! ## Places -/

/-- One step on the way from a place to the root: a node with its colour, the
side of it on which the place lies, and the subtree on the other side. -/
structure Frame (α : Type*) where
  side : Side
  color : Color
  value : α
  sibling : RbTree α
  deriving DecidableEq, Repr

/-- The node of a frame with `tree` in the place. -/
def Frame.fill (frame : Frame α) (tree : RbTree α) : RbTree α :=
  frame.side.node frame.color tree frame.value frame.sibling

/-- The whole tree with `tree` in the place. -/
def plug (tree : RbTree α) : List (Frame α) -> RbTree α
  | [] => tree
  | frame :: frames => plug (frame.fill tree) frames

/-- The values to the left of the place. -/
def before : List (Frame α) -> List α
  | [] => []
  | frame :: frames =>
      match frame.side with
      | .left => before frames
      | .right => before frames ++ (frame.sibling.inorder ++ [frame.value])

/-- The values to the right of the place. -/
def after : List (Frame α) -> List α
  | [] => []
  | frame :: frames =>
      match frame.side with
      | .left => frame.value :: frame.sibling.inorder ++ after frames
      | .right => after frames

@[simp] theorem plug_inorder (tree : RbTree α) (frames : List (Frame α)) :
    (plug tree frames).inorder = before frames ++ (tree.inorder ++ after frames) := by
  induction frames generalizing tree with
  | nil => simp [plug, before, after]
  | cons frame frames inductionHypothesis =>
      obtain ⟨side, color, value, sibling⟩ := frame
      cases side <;>
        simp [plug, inductionHypothesis, Frame.fill, Side.node, RbTree.inorder, before, after]

theorem plug_append (tree : RbTree α) (inner outer : List (Frame α)) :
    plug tree (inner ++ outer) = plug (plug tree inner) outer := by
  induction inner generalizing tree with
  | nil => rfl
  | cons frame inner inductionHypothesis => exact inductionHypothesis (frame.fill tree)

/-- Every value of a tree stands in one of its places. -/
theorem RbTree.exists_place {tree : RbTree α} {value : α} (member : value ∈ tree.inorder) :
    Exists fun color => Exists fun left => Exists fun right => Exists fun frames =>
      tree = plug (.node color left value right) frames := by
  induction tree with
  | leaf => exact absurd member List.not_mem_nil
  | node color left id right leftHypothesis rightHypothesis =>
      rcases List.mem_append.mp member with before | rest
      · obtain ⟨inner, first, second, frames, same⟩ := leftHypothesis before
        refine ⟨inner, first, second, frames ++ [⟨.left, color, id, right⟩], ?_⟩
        rw [plug_append, ← same]
        rfl
      · rcases List.mem_cons.mp rest with here | after
        · exact ⟨color, left, right, [], here ▸ rfl⟩
        · obtain ⟨inner, first, second, frames, same⟩ := rightHypothesis after
          refine ⟨inner, first, second, frames ++ [⟨.right, color, id, left⟩], ?_⟩
          rw [plug_append, ← same]
          rfl

/-- The same frame over other values. -/
def Frame.map {β : Type*} (rename : α -> β) (frame : Frame α) : Frame β :=
  ⟨frame.side, frame.color, rename frame.value, frame.sibling.map rename⟩

theorem RbTree.map_plug {β : Type*} (rename : α -> β) (tree : RbTree α) (frames : List (Frame α)) :
    (plug tree frames).map rename = plug (tree.map rename) (frames.map (Frame.map rename)) := by
  induction frames generalizing tree with
  | nil => rfl
  | cons frame frames inductionHypothesis =>
      rw [plug, inductionHypothesis, List.map_cons, plug]
      congr 1
      obtain ⟨side, color, value, sibling⟩ := frame
      cases side <;> rfl

/-- The values around the place, in no particular order. -/
def around : List (Frame α) -> List α
  | [] => []
  | frame :: frames => frame.value :: (frame.sibling.inorder ++ around frames)

/-- Renaming nothing around a place leaves its frames as they are. -/
theorem Frame.map_eq_self {rename : α -> α} {frames : List (Frame α)}
    (fixed : forall value, value ∈ around frames -> rename value = value) :
    frames.map (Frame.map rename) = frames := by
  induction frames with
  | nil => rfl
  | cons frame frames inductionHypothesis =>
      simp only [around, List.mem_cons, List.mem_append] at fixed
      rw [List.map_cons, inductionHypothesis (fun value member =>
        fixed value (Or.inr (Or.inr member))), Frame.map, fixed frame.value (Or.inl rfl),
        RbTree.map_eq_self (fun value member => fixed value (Or.inr (Or.inl member)))]

theorem Side.node_perm (side : Side) (color : Color) (near : RbTree α) (value : α)
    (far : RbTree α) :
    (side.node color near value far).inorder.Perm (value :: (near.inorder ++ far.inorder)) := by
  cases side with
  | left => exact List.perm_middle
  | right =>
      exact List.perm_middle.trans (List.Perm.cons value List.perm_append_comm)

theorem plug_perm (tree : RbTree α) (frames : List (Frame α)) :
    (plug tree frames).inorder.Perm (tree.inorder ++ around frames) := by
  induction frames generalizing tree with
  | nil => simp [plug, around]
  | cons frame frames inductionHypothesis =>
      refine (inductionHypothesis (frame.fill tree)).trans ?_
      refine ((Side.node_perm _ _ _ _ _).append_right _).trans ?_
      rw [around, List.cons_append, List.append_assoc]
      exact List.perm_middle.symm

theorem around_append (inner outer : List (Frame α)) :
    around (inner ++ outer) = around inner ++ around outer := by
  induction inner with
  | nil => rfl
  | cons frame inner inductionHypothesis => simp [around, inductionHypothesis]

theorem before_append (inner outer : List (Frame α)) :
    before (inner ++ outer) = before outer ++ before inner := by
  induction inner with
  | nil => simp [before]
  | cons frame inner inductionHypothesis =>
      simp only [List.cons_append, before]
      cases frame.side <;> simp [inductionHypothesis]

theorem after_append (inner outer : List (Frame α)) :
    after (inner ++ outer) = after inner ++ after outer := by
  induction inner with
  | nil => simp [after]
  | cons frame inner inductionHypothesis =>
      simp only [List.cons_append, after]
      cases frame.side <;> simp [inductionHypothesis]

/-- The place takes balanced trees of this height with this root colour. -/
def Accepts : List (Frame α) -> Nat -> Color -> Prop
  | [], _, color => color = .black
  | frame :: frames, height, color =>
      match frame.color with
      | .red => color = .black ∧ frame.sibling.color = .black ∧
          frame.sibling.Balanced height ∧ Accepts frames height .red
      | .black => frame.sibling.Balanced height ∧ Accepts frames (height + 1) .black

/-- A place that takes a red tree takes a black one. -/
theorem Accepts.black {frames : List (Frame α)} {height : Nat} {color : Color}
    (accepts : Accepts frames height color) : Accepts frames height .black := by
  cases frames with
  | nil => rfl
  | cons frame frames =>
      obtain ⟨side, frameColor, value, sibling⟩ := frame
      cases frameColor with
      | red => exact ⟨rfl, accepts.2⟩
      | black => exact accepts

/-- A whole tree is red-black exactly when the place takes what is in it. -/
theorem redBlack_plug_iff (tree : RbTree α) (frames : List (Frame α)) :
    (plug tree frames).RedBlack ↔
      Exists fun height => tree.Balanced height ∧ Accepts frames height tree.color := by
  induction frames generalizing tree with
  | nil =>
      constructor
      · rintro ⟨color, height, balanced⟩
        exact ⟨height, balanced, color⟩
      · rintro ⟨height, balanced, color⟩
        exact ⟨color, height, balanced⟩
  | cons frame frames inductionHypothesis =>
      obtain ⟨side, color, value, sibling⟩ := frame
      rw [plug, inductionHypothesis]
      simp only [Frame.fill, Side.node_color]
      cases color with
      | red =>
          constructor
          · rintro ⟨height, balanced, accepts⟩
            obtain ⟨near, far, nearColor, farColor⟩ := Side.balanced_red.mp balanced
            exact ⟨height, near, nearColor, farColor, far, accepts⟩
          · rintro ⟨height, near, nearColor, farColor, far, accepts⟩
            exact ⟨height, Side.balanced_red.mpr ⟨near, far, nearColor, farColor⟩, accepts⟩
      | black =>
          constructor
          · rintro ⟨height, balanced, accepts⟩
            cases height with
            | zero =>
                cases side <;> obtain ⟨_, impossible, -⟩ := balanced <;> cases impossible
            | succ height =>
                obtain ⟨near, far⟩ := Side.balanced_black.mp balanced
                exact ⟨height, near, far, accepts⟩
          · rintro ⟨height, near, far, accepts⟩
            exact ⟨height + 1, Side.balanced_black.mpr ⟨near, far⟩, accepts⟩

/-! ## The loss of one black -/

/-- How the frames of a place are rearranged when its subtree has lost one
black.  `near` and `far` are the children of the sibling, seen from the
place. -/
inductive Fix : List (Frame α) -> List (Frame α) -> Prop
  /-- At the root the whole tree is one black shorter. -/
  | root : Fix [] []
  /-- One rotation, and the red far nephew takes over the sibling's black. -/
  | single {side : Side} {color : Color} {up value : α} {near far : RbTree α}
      {outer : List (Frame α)} (farRed : far.color = .red) :
      Fix (⟨side, color, up, side.node .black near value far⟩ :: outer)
        (⟨side, .black, up, near⟩ :: ⟨side, color, value, far.blacken⟩ :: outer)
  /-- Two rotations, and the red near nephew takes the parent's place. -/
  | double {side : Side} {color : Color} {up middle value : α} {inner rest far : RbTree α}
      {outer : List (Frame α)} :
      Fix (⟨side, color, up,
          side.node .black (side.node .red inner middle rest) value far⟩ :: outer)
        (⟨side, .black, up, inner⟩ ::
          ⟨side, color, middle, side.node .black rest value far⟩ :: outer)
  /-- A red parent gives its colour to the sibling. -/
  | stop {side : Side} {up value : α} {near far : RbTree α} {outer : List (Frame α)}
      (nearBlack : near.color = .black) (farBlack : far.color = .black) :
      Fix (⟨side, .red, up, side.node .black near value far⟩ :: outer)
        (⟨side, .black, up, side.node .red near value far⟩ :: outer)
  /-- Below a black parent the sibling turns red, and the shortage moves up. -/
  | ascend {side : Side} {up value : α} {near far : RbTree α} {outer fixed : List (Frame α)}
      (nearBlack : near.color = .black) (farBlack : far.color = .black)
      (above : Fix outer fixed) :
      Fix (⟨side, .black, up, side.node .black near value far⟩ :: outer)
        (⟨side, .black, up, side.node .red near value far⟩ :: fixed)
  /-- Next to a red sibling a rotation makes the near nephew the sibling. -/
  | rotate {side : Side} {up value : α} {near far : RbTree α} {outer fixed : List (Frame α)}
      (below : Fix (⟨side, .red, up, near⟩ :: ⟨side, .black, value, far⟩ :: outer) fixed) :
      Fix (⟨side, .black, up, side.node .red near value far⟩ :: outer) fixed

/-- The rotated frames take what the red sibling's took. -/
theorem Accepts.rotate {side : Side} {up value : α} {near far : RbTree α}
    {outer : List (Frame α)} {height : Nat}
    (accepts : Accepts (⟨side, .black, up, side.node .red near value far⟩ :: outer) height .black) :
    Accepts (⟨side, .red, up, near⟩ :: ⟨side, .black, value, far⟩ :: outer) height .black := by
  obtain ⟨sibling, above⟩ := accepts
  obtain ⟨nearBalanced, farBalanced, nearBlack, -⟩ := Side.balanced_red.mp sibling
  exact ⟨rfl, nearBlack, nearBalanced, farBalanced, above⟩

/-- Next to a black sibling, the parent's place takes a node of any height the
siblings have and any colour the parent has. -/
theorem Accepts.parent {side : Side} {color : Color} {up : α} {sibling : RbTree α}
    {outer : List (Frame α)} {height : Nat}
    (accepts : Accepts (⟨side, color, up, sibling⟩ :: outer) height .black)
    (value : α) {other : RbTree α} (balanced : other.Balanced height)
    (black : other.color = .black) :
    Accepts (⟨side, color, value, other⟩ :: outer) height .black := by
  cases color with
  | red => exact ⟨rfl, black, balanced, accepts.2.2.2⟩
  | black => exact ⟨balanced, accepts.2⟩

theorem Accepts.sibling {frame : Frame α} {outer : List (Frame α)} {height : Nat}
    (accepts : Accepts (frame :: outer) height .black) : frame.sibling.Balanced height := by
  obtain ⟨side, color, value, sibling⟩ := frame
  cases color with
  | red => exact accepts.2.2.1
  | black => exact accepts.1

/-- After the repair the place takes a subtree that is one black shorter. -/
theorem Fix.accepts {frames fixed : List (Frame α)} (repair : Fix frames fixed) {height : Nat}
    (accepts : Accepts frames (height + 1) .black) : Accepts fixed height .black := by
  induction repair generalizing height with
  | root => rfl
  | single farRed =>
      obtain ⟨near, far⟩ := Side.balanced_black.mp accepts.sibling
      exact ⟨near, accepts.parent _ (far.blacken farRed) (RbTree.blacken_color _)⟩
  | double =>
      obtain ⟨near, far⟩ := Side.balanced_black.mp accepts.sibling
      obtain ⟨inner, rest, -, -⟩ := Side.balanced_red.mp near
      exact ⟨inner, accepts.parent _ (Side.balanced_black.mpr ⟨rest, far⟩)
        (Side.node_color _ _ _ _ _)⟩
  | stop nearBlack farBlack =>
      obtain ⟨near, far⟩ := Side.balanced_black.mp accepts.sibling
      obtain ⟨-, -, -, above⟩ := accepts
      exact ⟨Side.balanced_red.mpr ⟨near, far, nearBlack, farBlack⟩, above.black⟩
  | ascend nearBlack farBlack above inductionHypothesis =>
      obtain ⟨near, far⟩ := Side.balanced_black.mp accepts.sibling
      exact ⟨Side.balanced_red.mpr ⟨near, far, nearBlack, farBlack⟩,
        inductionHypothesis accepts.2⟩
  | rotate below inductionHypothesis => exact inductionHypothesis accepts.rotate

/-- A repair keeps the order of the values. -/
theorem Fix.order {frames fixed : List (Frame α)} (repair : Fix frames fixed) :
    before fixed = before frames ∧ after fixed = after frames := by
  induction repair with
  | root => exact ⟨rfl, rfl⟩
  | @single side _ _ _ _ _ _ _ =>
      cases side <;> simp [before, after, Side.node, RbTree.inorder]
  | @double side _ _ _ _ _ _ _ _ =>
      cases side <;> simp [before, after, Side.node, RbTree.inorder]
  | @stop side _ _ _ _ _ _ _ =>
      cases side <;> simp [before, after, Side.node, RbTree.inorder]
  | @ascend side _ _ _ _ _ _ _ _ _ inductionHypothesis =>
      cases side <;>
        simp [before, after, Side.node, RbTree.inorder, inductionHypothesis.1, inductionHypothesis.2]
  | @rotate side _ _ _ _ _ _ _ inductionHypothesis =>
      rw [inductionHypothesis.1, inductionHypothesis.2]
      cases side <;> simp [before, after, Side.node, RbTree.inorder]

/-- The subtree in the place keeps its parent and its side. -/
theorem Fix.head {frame : Frame α} {outer fixed : List (Frame α)}
    (repair : Fix (frame :: outer) fixed) :
    Exists fun color => Exists fun sibling => Exists fun above =>
      fixed = ⟨frame.side, color, frame.value, sibling⟩ :: above := by
  generalize same : frame :: outer = frames at repair
  induction repair generalizing frame outer with
  | root => cases same
  | single => cases same; exact ⟨_, _, _, rfl⟩
  | double => cases same; exact ⟨_, _, _, rfl⟩
  | stop => cases same; exact ⟨_, _, _, rfl⟩
  | ascend => cases same; exact ⟨_, _, _, rfl⟩
  | @rotate side up value near far outer fixed below inductionHypothesis =>
      cases same
      exact @inductionHypothesis ⟨side, .red, up, near⟩ _ rfl

/-! ## A red node too many -/

/-- How a tree is put right where a red node stands in a place, below a parent that may be red
as well.  The last argument is the whole tree afterwards. -/
inductive Rise : RbTree α -> List (Frame α) -> RbTree α -> Prop
  /-- At the root the node turns black. -/
  | root {tree : RbTree α} : Rise tree [] tree.blacken
  /-- Below a black parent it stays. -/
  | stop {tree sibling : RbTree α} {side : Side} {up : α} {outer : List (Frame α)} :
      Rise tree (⟨side, .black, up, sibling⟩ :: outer)
        (plug tree (⟨side, .black, up, sibling⟩ :: outer))
  /-- The parent and a red uncle turn black, and the grandparent is red instead. -/
  | ascend {tree sibling uncle whole : RbTree α} {side upSide : Side} {up grand : α}
      {outer : List (Frame α)} (uncleRed : uncle.color = .red)
      (above : Rise (upSide.node .red (side.node .black tree up sibling) grand uncle.blacken)
        outer whole) :
      Rise tree (⟨side, .red, up, sibling⟩ :: ⟨upSide, .black, grand, uncle⟩ :: outer) whole
  /-- One rotation brings the parent to the top. -/
  | single {tree sibling uncle : RbTree α} {side : Side} {up grand : α} {outer : List (Frame α)}
      (uncleBlack : uncle.color = .black) :
      Rise tree (⟨side, .red, up, sibling⟩ :: ⟨side, .black, grand, uncle⟩ :: outer)
        (plug (side.node .black tree up (side.node .red sibling grand uncle)) outer)
  /-- Two rotations bring the node itself to the top. -/
  | double {inner rest sibling uncle : RbTree α} {side : Side} {value up grand : α}
      {outer : List (Frame α)} (uncleBlack : uncle.color = .black) :
      Rise (side.node .red inner value rest)
        (⟨side.other, .red, up, sibling⟩ :: ⟨side, .black, grand, uncle⟩ :: outer)
        (plug (side.node .black (side.node .red sibling up inner) value
          (side.node .red rest grand uncle)) outer)

/-- A place below a red parent has a black grandparent. -/
theorem Accepts.grandparent {side : Side} {up : α} {sibling : RbTree α} {frames : List (Frame α)}
    {height : Nat} (accepts : Accepts (⟨side, .red, up, sibling⟩ :: frames) height .black) :
    Exists fun upSide => Exists fun grand => Exists fun uncle => Exists fun outer =>
      frames = ⟨upSide, .black, grand, uncle⟩ :: outer ∧ sibling.color = .black ∧
        sibling.Balanced height ∧ uncle.Balanced height ∧ Accepts outer (height + 1) .black := by
  obtain ⟨-, siblingBlack, siblingBalanced, above⟩ := accepts
  cases frames with
  | nil => cases above
  | cons frame outer =>
      obtain ⟨upSide, color, grand, uncle⟩ := frame
      cases color with
      | red => cases above.1
      | black =>
          exact ⟨upSide, grand, uncle, outer, rfl, siblingBlack, siblingBalanced, above.1, above.2⟩

/-- What is put right is a red-black tree, if nothing else was wrong. -/
theorem Rise.redBlack {tree whole : RbTree α} {frames : List (Frame α)}
    (rise : Rise tree frames whole) {height : Nat} (red : tree.color = .red)
    (balanced : tree.Balanced height) (accepts : Accepts frames height .black) :
    whole.RedBlack := by
  induction rise generalizing height with
  | root => exact ⟨RbTree.blacken_color _, height + 1, balanced.blacken red⟩
  | @stop tree sibling side up outer =>
      refine (redBlack_plug_iff tree _).mpr ⟨height, balanced, ?_⟩
      exact accepts
  | @ascend tree sibling uncle whole side upSide up grand outer uncleRed above
      inductionHypothesis =>
      obtain ⟨_, _, _, _, same, siblingBlack, siblingBalanced, uncleBalanced, outside⟩ :=
        accepts.grandparent
      cases same
      refine inductionHypothesis (Side.node_color _ _ _ _ _) (Side.balanced_red.mpr ?_) outside
      exact ⟨Side.balanced_black.mpr ⟨balanced, siblingBalanced⟩, uncleBalanced.blacken uncleRed,
        Side.node_color _ _ _ _ _, RbTree.blacken_color _⟩
  | @single tree sibling uncle side up grand outer uncleBlack =>
      obtain ⟨_, _, _, _, same, siblingBlack, siblingBalanced, uncleBalanced, outside⟩ :=
        accepts.grandparent
      cases same
      refine (redBlack_plug_iff _ _).mpr ⟨height + 1, Side.balanced_black.mpr ⟨balanced, ?_⟩, ?_⟩
      · exact Side.balanced_red.mpr ⟨siblingBalanced, uncleBalanced, siblingBlack, uncleBlack⟩
      · rw [Side.node_color]
        exact outside
  | @double inner rest sibling uncle side value up grand outer uncleBlack =>
      obtain ⟨_, _, _, _, same, siblingBlack, siblingBalanced, uncleBalanced, outside⟩ :=
        accepts.grandparent
      cases same
      obtain ⟨innerBalanced, restBalanced, innerBlack, restBlack⟩ := Side.balanced_red.mp balanced
      refine (redBlack_plug_iff _ _).mpr ⟨height + 1, Side.balanced_black.mpr ⟨?_, ?_⟩, ?_⟩
      · exact Side.balanced_red.mpr ⟨siblingBalanced, innerBalanced, siblingBlack, innerBlack⟩
      · exact Side.balanced_red.mpr ⟨restBalanced, uncleBalanced, restBlack, uncleBlack⟩
      · rw [Side.node_color]
        exact outside

/-- The order of the values stays. -/
theorem Rise.inorder {tree whole : RbTree α} {frames : List (Frame α)}
    (rise : Rise tree frames whole) : whole.inorder = (plug tree frames).inorder := by
  induction rise with
  | root => exact RbTree.blacken_inorder _
  | stop => rfl
  | @ascend tree sibling uncle whole side upSide up grand outer uncleRed above
      inductionHypothesis =>
      rw [inductionHypothesis]
      cases side <;> cases upSide <;> simp [plug, Frame.fill, Side.node, RbTree.inorder]
  | @single tree sibling uncle side up grand outer uncleBlack =>
      cases side <;> simp [plug, Frame.fill, Side.node, RbTree.inorder]
  | @double inner rest sibling uncle side value up grand outer uncleBlack =>
      cases side <;> simp [plug, Frame.fill, Side.node, Side.other, RbTree.inorder]

/-! ## Levels -/

namespace RbTree

/-- How many nodes there are on the longest path to a leaf. -/
def levels : RbTree α -> Nat
  | leaf => 0
  | node _ left _ right => max left.levels right.levels + 1

/-- No path has two red nodes in a row, so that at least half of its nodes are black. -/
theorem Balanced.levels_le {tree : RbTree α} {height : Nat} (balanced : tree.Balanced height) :
    tree.levels ≤ 2 * height + 1 ∧ (tree.color = .black -> tree.levels ≤ 2 * height) := by
  induction tree generalizing height with
  | leaf => exact ⟨Nat.zero_le _, fun _ => Nat.zero_le _⟩
  | node color left value right leftHypothesis rightHypothesis =>
      cases color with
      | red =>
          obtain ⟨leftBalanced, rightBalanced, leftBlack, rightBlack⟩ := balanced
          have leftLevels := (leftHypothesis leftBalanced).2 leftBlack
          have rightLevels := (rightHypothesis rightBalanced).2 rightBlack
          refine ⟨?_, fun black => nomatch black⟩
          exact Nat.succ_le_succ (Nat.max_le.mpr ⟨leftLevels, rightLevels⟩)
      | black =>
          obtain ⟨below, rfl, leftBalanced, rightBalanced⟩ := balanced
          have leftLevels := (leftHypothesis leftBalanced).1
          have rightLevels := (rightHypothesis rightBalanced).1
          have whole : max left.levels right.levels + 1 ≤ 2 * (below + 1) :=
            Nat.succ_le_succ (Nat.max_le.mpr ⟨leftLevels, rightLevels⟩)
          exact ⟨Nat.le_succ_of_le whole, fun _ => whole⟩

theorem Balanced.le_levels {tree : RbTree α} {height : Nat} (balanced : tree.Balanced height) :
    height ≤ tree.levels := by
  induction tree generalizing height with
  | leaf => exact Nat.le_of_eq balanced
  | node color left value right leftHypothesis rightHypothesis =>
      cases color with
      | red =>
          have leftLevels := leftHypothesis balanced.1
          exact Nat.le_succ_of_le (Nat.le_trans leftLevels (Nat.le_max_left _ _))
      | black =>
          obtain ⟨below, rfl, leftBalanced, -⟩ := balanced
          have leftLevels := leftHypothesis leftBalanced
          exact Nat.succ_le_succ (Nat.le_trans leftLevels (Nat.le_max_left _ _))

/-- A tree holds at least what its black nodes need. -/
theorem Balanced.two_pow_le {tree : RbTree α} {height : Nat} (balanced : tree.Balanced height) :
    2 ^ height ≤ tree.inorder.length + 1 := by
  induction tree generalizing height with
  | leaf =>
      rw [show height = 0 from balanced]
      exact Nat.le_refl 1
  | node color left value right leftHypothesis rightHypothesis =>
      simp only [inorder, List.length_append, List.length_cons]
      cases color with
      | red =>
          have leftSize := leftHypothesis balanced.1
          omega
      | black =>
          obtain ⟨below, rfl, leftBalanced, rightBalanced⟩ := balanced
          have leftSize := leftHypothesis leftBalanced
          have rightSize := rightHypothesis rightBalanced
          rw [Nat.pow_succ]
          omega

/-- A red-black tree with fewer than `2 ^ k` values has fewer than `2 * k` levels. -/
theorem RedBlack.levels_lt {tree : RbTree α} (redBlack : tree.RedBlack) {k : Nat}
    (few : tree.inorder.length + 1 < 2 ^ k) : tree.levels < 2 * k := by
  obtain ⟨black, height, balanced⟩ := redBlack
  have size : 2 ^ height < 2 ^ k := Nat.lt_of_le_of_lt balanced.two_pow_le few
  have low : height < k := (Nat.pow_lt_pow_iff_right (by decide)).mp size
  have levels := balanced.levels_le.2 black
  omega

end RbTree

end Library
end Mcachefs
