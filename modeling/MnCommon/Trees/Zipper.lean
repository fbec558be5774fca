import Mathlib.Data.Tree.Basic
import Mathlib.Data.List.Basic
import Mathlib.Tactic.Common

/-! Binary trees opened at one position: the path from the position to the root
is a list of frames, the nearest ancestor first. -/

namespace MnCommon.Trees

variable {L : Type}

inductive Side where
  | left
  | right
  deriving DecidableEq, Repr

def Side.opposite : Side → Side
  | .left => .right
  | .right => .left

def inorder : BinaryTree L → List L
  | .nil => []
  | .node v l r => inorder l ++ v :: inorder r

/-- One ancestor of the open position: the side on which the position lies, the
label of the ancestor, and its other subtree. -/
structure Frame (L : Type) where
  side : Side
  label : L
  sibling : BinaryTree L
  deriving DecidableEq, Repr

def Frame.attach (f : Frame L) (t : BinaryTree L) : BinaryTree L :=
  match f.side with
  | .left => .node f.label t f.sibling
  | .right => .node f.label f.sibling t

def plug : List (Frame L) → BinaryTree L → BinaryTree L
  | [], t => t
  | f :: path, t => plug path (f.attach t)

/-- The labels that precede the open position in order. -/
def before : List (Frame L) → List L
  | [] => []
  | ⟨.left, _, _⟩ :: path => before path
  | ⟨.right, v, sibling⟩ :: path => before path ++ (inorder sibling ++ [v])

/-- The labels that follow the open position in order. -/
def after : List (Frame L) → List L
  | [] => []
  | ⟨.left, v, sibling⟩ :: path => v :: inorder sibling ++ after path
  | ⟨.right, _, _⟩ :: path => after path

/-- A node seen from either of its children. -/
theorem attach_flip (f : Frame L) (t : BinaryTree L) :
    f.attach t = Frame.attach ⟨f.side.opposite, f.label, t⟩ f.sibling := by
  obtain ⟨side, v, sibling⟩ := f
  cases side <;> rfl

/-- Moving from one child of an ancestor to the other. -/
theorem plug_flip (f : Frame L) (path : List (Frame L)) (t : BinaryTree L) :
    plug (f :: path) t = plug (⟨f.side.opposite, f.label, t⟩ :: path) f.sibling := by
  rw [plug, plug, attach_flip]

/-- One of two subtrees. -/
def Side.pick (side : Side) (l r : BinaryTree L) : BinaryTree L :=
  match side with
  | .left => l
  | .right => r

theorem attach_pick (side : Side) (v : L) (l r : BinaryTree L) :
    Frame.attach ⟨side, v, side.opposite.pick l r⟩ (side.pick l r) = .node v l r := by
  cases side <;> rfl

theorem attach_eq_node (side : Side) (v : L) (near far : BinaryTree L) :
    Frame.attach ⟨side, v, far⟩ near = .node v (side.pick near far) (side.pick far near) := by
  cases side <;> rfl

@[simp] theorem opposite_left : Side.left.opposite = .right := rfl

@[simp] theorem opposite_right : Side.right.opposite = .left := rfl

@[simp] theorem opposite_opposite (side : Side) : side.opposite.opposite = side := by
  cases side <;> rfl

@[simp] theorem inorder_nil : inorder (.nil : BinaryTree L) = [] := rfl

@[simp] theorem inorder_node (v : L) (l r : BinaryTree L) :
    inorder (.node v l r) = inorder l ++ v :: inorder r := rfl

@[simp] theorem plug_nil (t : BinaryTree L) : plug [] t = t := rfl

@[simp] theorem plug_left (v : L) (sibling t : BinaryTree L) (path : List (Frame L)) :
    plug (⟨.left, v, sibling⟩ :: path) t = plug path (.node v t sibling) := rfl

@[simp] theorem plug_right (v : L) (sibling t : BinaryTree L) (path : List (Frame L)) :
    plug (⟨.right, v, sibling⟩ :: path) t = plug path (.node v sibling t) := rfl

theorem plug_append (inner outer : List (Frame L)) (t : BinaryTree L) :
    plug (inner ++ outer) t = plug outer (plug inner t) := by
  induction inner generalizing t with
  | nil => rfl
  | cons f inner ih => exact ih (f.attach t)

theorem inorder_plug (path : List (Frame L)) (t : BinaryTree L) :
    inorder (plug path t) = before path ++ inorder t ++ after path := by
  induction path generalizing t with
  | nil => simp [before, after]
  | cons f path ih =>
      obtain ⟨side, v, sibling⟩ := f
      cases side <;> simp [before, after, ih]

theorem inorder_length (t : BinaryTree L) : (inorder t).length = t.numNodes := by
  induction t with
  | nil => rfl
  | node v l r left right =>
      simp only [inorder_node, List.length_append, List.length_cons, left, right,
        BinaryTree.numNodes]
      omega

theorem path_length_le (path : List (Frame L)) (t : BinaryTree L) :
    path.length + t.numNodes ≤ (plug path t).numNodes := by
  induction path generalizing t with
  | nil => simp
  | cons f path ih =>
      have outer := ih (f.attach t)
      obtain ⟨side, v, sibling⟩ := f
      cases side <;> simp [Frame.attach, plug] at outer ⊢ <;> omega

/-- Every label of a tree is the focus of some opening of it. -/
theorem mem_inorder_iff (v : L) (t : BinaryTree L) :
    v ∈ inorder t ↔ ∃ path l r, t = plug path (.node v l r) := by
  constructor
  · induction t with
    | nil => simp
    | node w l r left right =>
        intro member
        simp only [inorder_node, List.mem_append, List.mem_cons] at member
        rcases member with member | rfl | member
        · obtain ⟨path, below, above, rfl⟩ := left member
          exact ⟨path ++ [⟨.left, w, r⟩], below, above, by simp [plug_append]⟩
        · exact ⟨[], l, r, rfl⟩
        · obtain ⟨path, below, above, rfl⟩ := right member
          exact ⟨path ++ [⟨.right, w, l⟩], below, above, by simp [plug_append]⟩
  · rintro ⟨path, l, r, rfl⟩
    simp [inorder_plug]

end MnCommon.Trees
