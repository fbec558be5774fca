import MnCommon.Trees.Zipper

/-! Full binary trees, and the order in which their leaves are met when one goes
through them in either direction. -/

namespace MnCommon.Trees

variable {L : Type} {side : Side} {path : List (Frame L)} {t l r sibling : BinaryTree L} {v : L}

theorem opposite_ne (side : Side) : side.opposite ≠ side := by
  cases side with
  | left => nofun
  | right => nofun

/-- The labels of a tree on the way towards `side`. -/
def along (side : Side) (t : BinaryTree L) : List L :=
  match side with
  | .left => (inorder t).reverse
  | .right => inorder t

/-- The labels that follow the open position on the way towards `side`. -/
def ahead (side : Side) (path : List (Frame L)) : List L :=
  match side with
  | .left => (before path).reverse
  | .right => after path

@[simp] theorem along_nil (side : Side) : along side (.nil : BinaryTree L) = [] := by
  cases side <;> rfl

@[simp] theorem ahead_nil (side : Side) : ahead side ([] : List (Frame L)) = [] := by
  cases side <;> rfl

theorem along_node (side : Side) (v : L) (l r : BinaryTree L) :
    along side (.node v l r) = along side (side.opposite.pick l r) ++ v :: along side (side.pick l r) := by
  cases side with
  | left =>
      rw [along, inorder_node, List.reverse_append, List.reverse_cons, List.append_assoc, List.singleton_append]
      rfl
  | right => rfl

theorem ahead_near (side : Side) (v : L) (sibling : BinaryTree L) (path : List (Frame L)) :
    ahead side (⟨side, v, sibling⟩ :: path) = ahead side path := by
  cases side <;> rfl

theorem ahead_far (side : Side) (v : L) (sibling : BinaryTree L) (path : List (Frame L)) :
    ahead side (⟨side.opposite, v, sibling⟩ :: path) = v :: along side sibling ++ ahead side path := by
  cases side with
  | left =>
      change (before path ++ (inorder sibling ++ [v])).reverse = _
      rw [List.reverse_append, List.reverse_append, List.reverse_singleton]
      rfl
  | right => rfl

variable (leaf : L → Bool)

/-- Every node is a leaf or has two children. -/
def Full : BinaryTree L → Prop
  | .nil => True
  | .node v l r => (if leaf v then l = .nil ∧ r = .nil else l ≠ .nil ∧ r ≠ .nil) ∧ Full l ∧ Full r

def leavesAlong (side : Side) (t : BinaryTree L) : List L := (along side t).filter leaf

def leavesAhead (side : Side) (path : List (Frame L)) : List L := (ahead side path).filter leaf

variable {leaf}

theorem Full.bare (full : Full leaf (.node v l r)) (here : leaf v = true) : l = .nil ∧ r = .nil := by
  have shape := full.1
  rwa [if_pos here] at shape

theorem Full.fork (full : Full leaf (.node v l r)) (here : ¬ leaf v = true) : l ≠ .nil ∧ r ≠ .nil := by
  have shape := full.1
  rwa [if_neg here] at shape

theorem Full.pick (full : Full leaf (.node v l r)) (side : Side) : Full leaf (side.pick l r) := by
  cases side with
  | left => exact full.2.1
  | right => exact full.2.2

/-- Below a fork there is something on either side. -/
theorem Full.pick_ne (full : Full leaf (.node v l r)) (here : ¬ leaf v = true) (side : Side) :
    side.pick l r ≠ .nil := by
  cases side with
  | left => exact (full.fork here).1
  | right => exact (full.fork here).2

/-- An ancestor in a full tree. -/
theorem Full.attach (full : Full leaf (Frame.attach ⟨side, v, sibling⟩ t)) (some : t ≠ .nil) :
    ¬ leaf v = true ∧ sibling ≠ .nil ∧ Full leaf sibling ∧ Full leaf t := by
  cases side with
  | left =>
      have fork : ¬ leaf v = true := fun here => some (full.bare here).1
      exact ⟨fork, (full.fork fork).2, full.2.2, full.2.1⟩
  | right =>
      have fork : ¬ leaf v = true := fun here => some (full.bare here).2
      exact ⟨fork, (full.fork fork).1, full.2.1, full.2.2⟩

theorem attach_ne_nil (f : Frame L) (t : BinaryTree L) : f.attach t ≠ .nil := by
  rcases f with ⟨side, v, sibling⟩
  cases side with
  | left => exact nofun
  | right => exact nofun

/-- What lies below an ancestor does not change the root. -/
theorem plug_cons_root {f : Frame L} {u : BinaryTree L} (root : ∃ l r, plug (f :: path) t = .node v l r) :
    ∃ l r, plug (f :: path) u = .node v l r := by
  induction path generalizing f t u with
  | nil =>
      rcases f with ⟨side, w, sibling⟩
      cases side with
      | left =>
          rcases root with ⟨l, r, same⟩
          exact ⟨u, sibling, congrArg (BinaryTree.node · u sibling) (BinaryTree.node.inj same).1⟩
      | right =>
          rcases root with ⟨l, r, same⟩
          exact ⟨sibling, u, congrArg (BinaryTree.node · sibling u) (BinaryTree.node.inj same).1⟩
  | cons g path ih => exact ih (t := f.attach t) (u := f.attach u) root

theorem Full.plug (full : Full leaf (plug path t)) (some : t ≠ .nil) : Full leaf t := by
  induction path generalizing t with
  | nil => exact full
  | cons f path ih => exact ((ih full (attach_ne_nil f t)).attach some).2.2.2

/-- The nearest ancestor of an open position. -/
theorem Full.ancestor {f : Frame L} (full : Full leaf (Trees.plug (f :: path) t)) (some : t ≠ .nil) :
    ¬ leaf f.label = true ∧ f.sibling ≠ .nil ∧ Full leaf f.sibling := by
  have whole : Full leaf (Trees.plug path (f.attach t)) := full
  have here := whole.plug (attach_ne_nil f t)
  rcases f with ⟨side, v, sibling⟩
  rcases here.attach some with ⟨fork, other, below, -⟩
  exact ⟨fork, other, below⟩

/-- The leaves in the other direction. -/
theorem leavesAlong_left (t : BinaryTree L) : leavesAlong leaf .left t = (leavesAlong leaf .right t).reverse :=
  List.filter_reverse

theorem mem_leavesAlong (side : Side) : v ∈ leavesAlong leaf side t ↔ v ∈ inorder t ∧ leaf v = true := by
  cases side with
  | left => rw [leavesAlong, along, List.mem_filter, List.mem_reverse]
  | right => rw [leavesAlong, along, List.mem_filter]

theorem Full.exists_leaf (full : Full leaf t) (some : t ≠ .nil) : ∃ v ∈ inorder t, leaf v = true := by
  induction t with
  | nil => exact absurd rfl some
  | node v l r left right =>
      by_cases here : leaf v = true
      · exact ⟨v, by simp, here⟩
      · rcases left full.2.1 (full.fork here).1 with ⟨w, inside, found⟩
        exact ⟨w, by simp [inside], found⟩

theorem leavesAlong_leaf (side : Side) (here : leaf v = true) :
    leavesAlong leaf side (.node v .nil .nil) = [v] := by
  have nothing : ∀ one : Side, one.pick (.nil : BinaryTree L) .nil = .nil := fun one => by cases one <;> rfl
  rw [leavesAlong, along_node, nothing, nothing, along_nil, List.nil_append, List.filter_cons_of_pos here,
    List.filter_nil]

theorem leavesAlong_fork (side : Side) (here : ¬ leaf v = true) :
    leavesAlong leaf side (.node v l r) =
      leavesAlong leaf side (side.opposite.pick l r) ++ leavesAlong leaf side (side.pick l r) := by
  rw [leavesAlong, along_node, List.filter_append, List.filter_cons_of_neg here]
  rfl

theorem leavesAhead_near (side : Side) (v : L) (sibling : BinaryTree L) (path : List (Frame L)) :
    leavesAhead leaf side (⟨side, v, sibling⟩ :: path) = leavesAhead leaf side path := by
  rw [leavesAhead, ahead_near]
  rfl

theorem leavesAhead_far (side : Side) (here : ¬ leaf v = true) (sibling : BinaryTree L) (path : List (Frame L)) :
    leavesAhead leaf side (⟨side.opposite, v, sibling⟩ :: path) =
      leavesAlong leaf side sibling ++ leavesAhead leaf side path := by
  rw [leavesAhead, ahead_far, List.cons_append, List.filter_cons_of_neg here, List.filter_append]
  rfl

end MnCommon.Trees
