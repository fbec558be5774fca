import MnCommon.Rbt.InsertFixup

/-! The recolouring and rotations after a removal, on trees. The open position
holds the child that took the place of its parent. -/

namespace MnCommon.Rbt

open Memory Trees

/-- Case 2: a red sibling rises above the parent. -/
def fixCase2 (f : Frame Label) (path : RbtPath) : Frame Label × RbtPath :=
  match f.sibling with
  | .nil => (f, path)
  | .node w l r =>
      if w.red then
        (⟨f.side, f.label.paint true, f.side.pick l r⟩,
          ⟨f.side, w.paint false, f.side.opposite.pick l r⟩ :: path)
      else
        (f, path)

/-- Case 5: a black sibling with a red child on the near side and a black one on
the far side makes room for the red child. -/
def fixCase5Remove (side : Side) (w : Label) (near far : RbtTree) : Label × RbtTree × RbtTree :=
  match near with
  | .nil => (w, near, far)
  | .node u l r =>
      if w.red = false ∧ u.red = true ∧ rootRed far = false then
        (u.paint false, side.pick l r,
          Frame.attach ⟨side, w.paint true, far⟩ (side.opposite.pick l r))
      else
        (w, near, far)

/-- Case 6: the sibling takes the place and the colour of the parent. -/
def fixCase6 (side : Side) (v w : Label) (near far : RbtTree) (path : RbtPath) (x : RbtTree) :
    RbtTree :=
  plug (⟨side, v.paint false, near⟩ :: ⟨side, w.paint v.red, paintRoot false far⟩ :: path) x

/-- What follows when case 3 does not apply. -/
def fixFinal (f : Frame Label) (path : RbtPath) (x : RbtTree) : RbtTree :=
  match f.sibling with
  | .nil => plug (f :: path) x
  | .node w l r =>
      if f.label.red = true ∧ w.red = false ∧ rootRed l = false ∧ rootRed r = false then
        plug (⟨f.side, f.label.paint false, .node (w.paint true) l r⟩ :: path) x
      else
        let (w, near, far) := fixCase5Remove f.side w (f.side.pick l r) (f.side.opposite.pick l r)
        fixCase6 f.side f.label w near far path x

/-- Case 3 goes on one level up. It cannot follow case 2, which leaves the
parent red. -/
def fixRemove : RbtPath → RbtTree → RbtTree
  | [], x => x
  | f :: path, x =>
      match f.sibling with
      | .nil => plug (f :: path) x
      | .node w l r =>
          if w.red then
            fixFinal (fixCase2 f path).1 (fixCase2 f path).2 x
          else if f.label.red = false ∧ rootRed l = false ∧ rootRed r = false then
            fixRemove path (Frame.attach ⟨f.side, f.label, .node (w.paint true) l r⟩ x)
          else
            fixFinal f path x

/-- Case 2 on either side. -/
def turnSibling (side : Side) (node parent sibling : Ptr) : RbtProg (Ptr × Ptr) := do
  if ← rbtIsRed sibling then
    rbtSetBlack sibling
    rbtSetRed parent
    rotate side parent
    let parent := (← load node).parent
    return (parent, ← siblingOf node parent)
  else
    return (parent, sibling)

theorem adjustCase2_eq (node parent : Ptr) :
    adjustCase2 node parent = (do
      let n ← load parent
      if node = n.left then
        turnSibling .left node parent n.right
      else
        turnSibling .right node parent n.left) := rfl

/-- Case 5 on either side, once it is known to apply. -/
def straighten (side : Side) (node sibling near : Ptr) : RbtProg (Ptr × Ptr) := do
  rbtSetRed sibling
  setBlackUnlessNull near
  rotate side.opposite sibling
  let parent := (← load node).parent
  return (parent, ← siblingOf node parent)

theorem adjustCase5Remove_eq (node parent sibling sl sr : Ptr) :
    adjustCase5Remove node parent sibling sl sr = (do
      if ← rbtIsBlack sibling then
        let n ← load parent
        if node = n.left ∧ (← rbtIsRed sl) ∧ (← rbtIsBlack sr) then
          straighten .left node sibling sl
        else if node = n.right ∧ (← rbtIsRed sr) ∧ (← rbtIsBlack sl) then
          straighten .right node sibling sr
        else
          return (parent, sibling)
      else
        return (parent, sibling)) := rfl

theorem adjustCase6_eq (node parent sibling : Ptr) :
    adjustCase6 node parent sibling = (do
      let sl := (← load sibling).left
      let sr := (← load sibling).right
      rbtSetColor sibling parent
      rbtSetBlack parent
      if node = (← load parent).left then
        setBlackUnlessNull sr
        rotate .left parent
      else
        setBlackUnlessNull sl
        rotate .right parent) := rfl

/-- What follows case 2; `again` is the recursive call. -/
def adjustRest (again : Ptr → RbtProg Unit) (node parent sibling : Ptr) : RbtProg Unit := do
  if sibling = none then
    return ()
  else
    let sl := (← load sibling).left
    let sr := (← load sibling).right
    if (← rbtIsBlack parent) ∧ (← rbtIsBlack sibling) ∧ (← rbtIsBlack sl) ∧ (← rbtIsBlack sr) then
      rbtSetRed sibling
      check parent.isSome
      again parent
    else if (← rbtIsRed parent) ∧ (← rbtIsBlack sibling) ∧ (← rbtIsBlack sl) ∧
        (← rbtIsBlack sr) then
      rbtSetBlack parent
      rbtSetRed sibling
    else
      let (parent, sibling) ← adjustCase5Remove node parent sibling sl sr
      adjustCase6 node parent sibling

theorem _rbtAdjustOnRemove_eq (fuel : Nat) (node : Ptr) :
    _rbtAdjustOnRemove (fuel + 1) node = (do
      let parent := (← load node).parent
      if parent = none then
        return ()
      else
        let (parent, sibling) ← adjustCase2 node parent
        adjustRest (_rbtAdjustOnRemove fuel) node parent sibling) := rfl

section Fixup

variable {s : RbtStore} {side : Side} {f : Frame Label} {path : RbtPath} {x near far l r : RbtTree}
  {v w : Label} {a : Addr}

theorem sibling_of_ok (tree : Holds s (plug (f :: path) x)) (atRoot : rbtLayout.root x = some a) :
    siblingOf (some a) (some f.label.addr) s = .ok (rbtLayout.root f.sibling, s) := by
  obtain ⟨n, cell, -, near, far, left, -⟩ := tree.ancestor atRoot
  rw [siblingOf, bind_ok (load_ok cell)]
  cases side : f.side <;> rw [side] at near far left
  · rw [if_pos (left.mpr rfl)]
    exact congrArg (fun p => Except.ok (p, s)) far
  · rw [if_neg (fun same => by simpa using left.mp same)]
    exact congrArg (fun p => Except.ok (p, s)) far

theorem paint_root_ok (tree : Holds s (plug path x)) :
    ∃ next, setBlackUnlessNull (rbtLayout.root x) s = .ok ((), next) ∧
      Reshapes s (plug path x) next (plug path (paintRoot false x)) := by
  cases x with
  | nil => exact ⟨s, rfl, Reshapes.refl tree⟩
  | node v l r => exact set_black_ok tree

/-- The near child of the sibling, and its far child, as the open position. -/
theorem plug_near (side : Side) (v w : Label) (far near x : RbtTree) (path : RbtPath) :
    plug (⟨side, v, Frame.attach ⟨side, w, far⟩ near⟩ :: path) x =
      plug (⟨side, w, far⟩ :: ⟨side.opposite, v, x⟩ :: path) near :=
  plug_flip _ _ _

theorem plug_far (side : Side) (v w : Label) (far near x : RbtTree) (path : RbtPath) :
    plug (⟨side, v, Frame.attach ⟨side, w, far⟩ near⟩ :: path) x =
      plug (⟨side.opposite, w, near⟩ :: ⟨side.opposite, v, x⟩ :: path) far :=
  (plug_near side v w far near x path).trans (plug_flip _ _ _)

/-- The sibling rises above the parent. -/
theorem rise_ok (tree : Holds s (plug (⟨side, v, Frame.attach ⟨side, w, far⟩ near⟩ :: path) x)) :
    ∃ next, rotate side (some v.addr) s = .ok ((), next) ∧
      Reshapes s (plug (⟨side, v, Frame.attach ⟨side, w, far⟩ near⟩ :: path) x) next
        (plug (⟨side, v, near⟩ :: ⟨side, w, far⟩ :: path) x) := by
  rw [plug_near] at tree ⊢
  rw [plug_flip ⟨side, v, near⟩]
  exact rotate_ok side tree

/-- The near child rises above the sibling. -/
theorem near_rises_ok {u : Label} {inner outer : RbtTree}
    (tree : Holds s (plug (⟨side, v,
      Frame.attach ⟨side, w, far⟩ (Frame.attach ⟨side, u, outer⟩ inner)⟩ :: path) x)) :
    ∃ next, rotate side.opposite (some w.addr) s = .ok ((), next) ∧
      Reshapes s (plug (⟨side, v,
          Frame.attach ⟨side, w, far⟩ (Frame.attach ⟨side, u, outer⟩ inner)⟩ :: path) x) next
        (plug (⟨side, v,
          Frame.attach ⟨side, u, Frame.attach ⟨side, w, far⟩ outer⟩ inner⟩ :: path) x) := by
  have before : plug (⟨side, v,
      Frame.attach ⟨side, w, far⟩ (Frame.attach ⟨side, u, outer⟩ inner)⟩ :: path) x =
        plug (⟨side.opposite, u, inner⟩ :: ⟨side.opposite.opposite, w, far⟩ ::
          ⟨side.opposite, v, x⟩ :: path) outer := by
    rw [plug_near, opposite_opposite]
    exact plug_flip ⟨side, u, outer⟩ (⟨side, w, far⟩ :: ⟨side.opposite, v, x⟩ :: path) inner
  have after : plug (⟨side, v,
      Frame.attach ⟨side, u, Frame.attach ⟨side, w, far⟩ outer⟩ inner⟩ :: path) x =
        plug (⟨side.opposite.opposite, w, far⟩ :: ⟨side.opposite, u, inner⟩ ::
          ⟨side.opposite, v, x⟩ :: path) outer := by
    rw [plug_far, opposite_opposite]
    rfl
  rw [before] at tree ⊢
  rw [after]
  exact rotate_ok side.opposite tree

theorem sibling_black_ok (tree : Holds s (plug (⟨side, v, .node w l r⟩ :: path) x)) :
    ∃ next, rbtSetBlack (some w.addr) s = .ok ((), next) ∧
      Reshapes s (plug (⟨side, v, .node w l r⟩ :: path) x) next
        (plug (⟨side, v, .node (w.paint false) l r⟩ :: path) x) := by
  simp only [plug_flip ⟨side, v, _⟩] at tree ⊢
  exact set_black_ok tree

theorem sibling_red_ok (tree : Holds s (plug (⟨side, v, .node w l r⟩ :: path) x)) :
    ∃ next, rbtSetRed (some w.addr) s = .ok ((), next) ∧
      Reshapes s (plug (⟨side, v, .node w l r⟩ :: path) x) next
        (plug (⟨side, v, .node (w.paint true) l r⟩ :: path) x) := by
  simp only [plug_flip ⟨side, v, _⟩] at tree ⊢
  exact set_red_ok tree

theorem is_red_sibling_ok (tree : Holds s (plug (f :: path) x)) :
    rbtIsRed (rbtLayout.root f.sibling) s = .ok (rootRed f.sibling, s) := by
  rw [plug_flip] at tree
  exact is_red_ok tree

/-- The record of the parent, read by a test for the side of the node. -/
theorem parent_side_ok {A : Type} (tree : Holds s (plug (f :: path) x))
    (atRoot : rbtLayout.root x = some a) (onLeft onRight : Ptr → RbtProg A) :
    (do
      let n ← load (some f.label.addr)
      if some a = n.left then onLeft n.right else onRight n.left : RbtProg A) s =
        (match f.side with | .left => onLeft | .right => onRight) (rbtLayout.root f.sibling) s := by
  obtain ⟨n, cell, -, -, far, left, -⟩ := tree.ancestor atRoot
  rw [bind_ok (load_ok cell)]
  cases side : f.side <;> rw [side] at far left
  · rw [if_pos (left.mpr rfl), ← far]
    rfl
  · rw [if_neg (fun same => by simpa using left.mp same), ← far]
    rfl

theorem turn_sibling_ok (tree : Holds s (plug (f :: path) x)) (atRoot : rbtLayout.root x = some a) :
    ∃ next, turnSibling f.side (some a) (some f.label.addr) (rbtLayout.root f.sibling) s =
        .ok ((some (fixCase2 f path).1.label.addr, rbtLayout.root (fixCase2 f path).1.sibling), next) ∧
      Reshapes s (plug (f :: path) x) next (plug ((fixCase2 f path).1 :: (fixCase2 f path).2) x) := by
  obtain ⟨side, v, sibling⟩ := f
  rw [turnSibling, bind_ok (is_red_sibling_ok tree)]
  cases sibling with
  | nil => exact ⟨s, rfl, Reshapes.refl tree⟩
  | node w l r =>
      by_cases red : w.red = true
      · have turned : fixCase2 ⟨side, v, .node w l r⟩ path =
            (⟨side, v.paint true, side.pick l r⟩,
              ⟨side, w.paint false, side.opposite.pick l r⟩ :: path) := if_pos red
        obtain ⟨s1, run1, step1⟩ := sibling_black_ok tree
        obtain ⟨s2, run2, step2⟩ := red_ancestor_ok step1.holds
        have tree2 : Holds s2 (plug (⟨side, v.paint true,
            Frame.attach ⟨side, w.paint false, side.opposite.pick l r⟩ (side.pick l r)⟩ :: path) x) := by
          rw [attach_pick]
          exact step2.holds
        obtain ⟨s3, run3, step3⟩ := rise_ok tree2
        rw [attach_pick] at step3
        obtain ⟨n, ncell, nparent⟩ := Holds.node step3.holds atRoot
        rw [rbtLayout.top_cons, layout_addr] at nparent
        rw [turned]
        refine ⟨s3, ?_, step1.trans (step2.trans step3)⟩
        have run3' : rotate side (some v.addr) s2 = .ok ((), s3) := run3
        simp only [rootRed, red, if_true]
        rw [rbtLayout.root_node, layout_addr, bind_ok run1, bind_ok run2, bind_ok run3',
          bind_ok (load_ok ncell), nparent, bind_ok (sibling_of_ok step3.holds atRoot)]
        rfl
      · have settled : fixCase2 ⟨side, v, .node w l r⟩ path = (⟨side, v, .node w l r⟩, path) :=
          if_neg red
        rw [settled]
        refine ⟨s, ?_, Reshapes.refl tree⟩
        simp only [rootRed, red]
        rfl

theorem straighten_ok {u : Label} (tree : Holds s (plug (⟨side, v,
      Frame.attach ⟨side, w, far⟩ (.node u l r)⟩ :: path) x)) (atRoot : rbtLayout.root x = some a) :
    ∃ next, straighten side (some a) (some w.addr) (some u.addr) s =
        .ok ((some v.addr, some u.addr), next) ∧
      Reshapes s (plug (⟨side, v, Frame.attach ⟨side, w, far⟩ (.node u l r)⟩ :: path) x) next
        (plug (⟨side, v, Frame.attach ⟨side, u.paint false,
          Frame.attach ⟨side, w.paint true, far⟩ (side.opposite.pick l r)⟩ (side.pick l r)⟩ ::
            path) x) := by
  have tree0 := tree
  rw [plug_near] at tree0 ⊢
  obtain ⟨s1, run1, step1⟩ := red_ancestor_ok tree0
  have tree1 : Holds s1 (plug (⟨side, w.paint true, far⟩ :: ⟨side.opposite, v, x⟩ :: path)
      (.node u l r)) := step1.holds
  obtain ⟨s2, run2, step2⟩ := paint_root_ok tree1
  have painted : plug (⟨side, w.paint true, far⟩ :: ⟨side.opposite, v, x⟩ :: path)
      (paintRoot false (.node u l r)) = plug (⟨side, v, Frame.attach ⟨side, w.paint true, far⟩
        (Frame.attach ⟨side, u.paint false, side.opposite.pick l r⟩ (side.pick l r))⟩ :: path) x := by
    rw [plug_near, attach_pick]
    rfl
  rw [painted] at step2
  obtain ⟨s3, run3, step3⟩ := near_rises_ok step2.holds
  obtain ⟨n, ncell, nparent⟩ := Holds.node step3.holds atRoot
  rw [rbtLayout.top_cons, layout_addr] at nparent
  refine ⟨s3, ?_, step1.trans (step2.trans step3)⟩
  have run3' : rotate side.opposite (some w.addr) s2 = .ok ((), s3) := run3
  have run2' : setBlackUnlessNull (some u.addr) s1 = .ok ((), s2) := run2
  rw [straighten, bind_ok run1, bind_ok run2', bind_ok run3', bind_ok (load_ok ncell), nparent,
    bind_ok (sibling_of_ok step3.holds atRoot), rbtLayout.root_attach]
  rfl

theorem nephews_ok (tree : Holds s (plug (⟨side, v, .node w l r⟩ :: path) x)) :
    (rbtIsRed (rbtLayout.root l) s = .ok (rootRed l, s) ∧
        rbtIsBlack (rbtLayout.root l) s = .ok (!rootRed l, s)) ∧
      rbtIsRed (rbtLayout.root r) s = .ok (rootRed r, s) ∧
        rbtIsBlack (rbtLayout.root r) s = .ok (!rootRed r, s) := by
  rw [plug_flip] at tree
  have onLeft : Holds s (plug (⟨.left, w, r⟩ :: ⟨side.opposite, v, x⟩ :: path) l) := tree
  have onRight : Holds s (plug (⟨.right, w, l⟩ :: ⟨side.opposite, v, x⟩ :: path) r) := tree
  exact ⟨⟨is_red_ok onLeft, is_black_ok onLeft⟩, is_red_ok onRight, is_black_ok onRight⟩

theorem fixCase5Remove_unchanged (side : Side) (w : Label) (near far : RbtTree)
    (other : ¬(w.red = false ∧ rootRed near = true ∧ rootRed far = false)) :
    fixCase5Remove side w near far = (w, near, far) := by
  cases near with
  | nil => rfl
  | node u l r => exact if_neg other

theorem choose_case5_ok (tree : Holds s (plug (⟨side, v, .node w l r⟩ :: path) x))
    (atRoot : rbtLayout.root x = some a) :
    adjustCase5Remove (some a) (some v.addr) (some w.addr) (rbtLayout.root l)
        (rbtLayout.root r) s =
      if w.red = false ∧ rootRed (side.pick l r) = true ∧
          rootRed (side.opposite.pick l r) = false then
        straighten side (some a) (some w.addr) (rbtLayout.root (side.pick l r)) s
      else
        .ok ((some v.addr, some w.addr), s) := by
  have colour : rbtIsBlack (some w.addr) s = .ok (!w.red, s) := by
    rw [plug_flip] at tree
    exact is_black_ok tree
  obtain ⟨⟨leftRed, leftBlack⟩, rightRed, rightBlack⟩ := nephews_ok tree
  obtain ⟨n, cell, -, -, -, onLeft, onRight⟩ := tree.ancestor atRoot
  rw [adjustCase5Remove_eq, bind_ok colour]
  cases w.red
  · simp only [Bool.not_false, if_true, true_and]
    rw [bind_ok (load_ok cell), bind_ok leftRed, bind_ok rightBlack]
    cases side
    · simp only [onLeft, onRight, true_and, reduceCtorEq, false_and, if_false, Bool.not_eq_true']
      by_cases applies : rootRed l = true ∧ rootRed r = false
      · rw [if_pos applies]
        exact (if_pos applies).symm
      · rw [if_neg applies, bind_ok rightRed, bind_ok leftBlack]
        exact (if_neg applies).symm
    · simp only [onLeft, onRight, true_and, reduceCtorEq, false_and, if_false, Bool.not_eq_true']
      rw [bind_ok rightRed, bind_ok leftBlack, run_ite]
      simp only [Bool.not_eq_true']
      rfl
  · rfl

theorem case5_remove_ok (tree : Holds s (plug (⟨side, v, .node w l r⟩ :: path) x))
    (atRoot : rbtLayout.root x = some a) :
    ∃ next u near far, fixCase5Remove side w (side.pick l r) (side.opposite.pick l r) =
        (u, near, far) ∧
      adjustCase5Remove (some a) (some v.addr) (some w.addr) (rbtLayout.root l)
        (rbtLayout.root r) s = .ok ((some v.addr, some u.addr), next) ∧
      Reshapes s (plug (⟨side, v, .node w l r⟩ :: path) x) next
        (plug (⟨side, v, Frame.attach ⟨side, u, far⟩ near⟩ :: path) x) := by
  rw [choose_case5_ok tree atRoot]
  by_cases applies : w.red = false ∧ rootRed (side.pick l r) = true ∧
      rootRed (side.opposite.pick l r) = false
  · rw [if_pos applies]
    rw [← attach_pick side w l r] at tree ⊢
    generalize side.pick l r = near at tree applies ⊢
    generalize side.opposite.pick l r = far at tree applies ⊢
    cases near with
    | nil => simp [rootRed] at applies
    | node u inner outer =>
        obtain ⟨next, run, step⟩ := straighten_ok tree atRoot
        exact ⟨next, _, _, _, if_pos applies, run, step⟩
  · rw [if_neg applies]
    refine ⟨s, _, _, _, fixCase5Remove_unchanged side w _ _ applies, rfl, ?_⟩
    rw [attach_pick]
    exact Reshapes.refl tree

theorem set_color_ok (tree : Holds s (plug (⟨side, v, .node w l r⟩ :: path) x)) :
    ∃ next, rbtSetColor (some w.addr) (some v.addr) s = .ok ((), next) ∧
      Reshapes s (plug (⟨side, v, .node w l r⟩ :: path) x) next
        (plug (⟨side, v, .node (w.paint v.red) l r⟩ :: path) x) := by
  have parent : Holds s (plug path (Frame.attach ⟨side, v, .node w l r⟩ x)) := tree
  have colour := is_red_ok parent
  rw [rbtLayout.root_attach, rootRed_attach, layout_addr] at colour
  rw [rbtSetColor, bind_ok colour]
  cases v.red
  · exact sibling_black_ok tree
  · exact sibling_red_ok tree

theorem case6_ok (tree : Holds s (plug (⟨side, v, Frame.attach ⟨side, w, far⟩ near⟩ :: path) x))
    (atRoot : rbtLayout.root x = some a) :
    ∃ next, adjustCase6 (some a) (some v.addr) (some w.addr) s = .ok ((), next) ∧
      Reshapes s (plug (⟨side, v, Frame.attach ⟨side, w, far⟩ near⟩ :: path) x) next
        (fixCase6 side v w near far path x) := by
  have sibling : ∃ n, s.heap.lookup w.addr = some n ∧
      n.child side.opposite = rbtLayout.root far := by
    rw [plug_near] at tree
    obtain ⟨n, record⟩ := tree.represents.ancestor
    exact ⟨n, record.cell, record.far_eq⟩
  obtain ⟨n, cell, outer⟩ := sibling
  rw [attach_eq_node] at tree ⊢
  obtain ⟨s1, run1, step1⟩ := set_color_ok tree
  obtain ⟨s2, run2, step2⟩ := black_ancestor_ok step1.holds
  obtain ⟨k, kcell, -, -, -, onLeft, -⟩ := step2.holds.ancestor atRoot
  have tree2 : Holds s2 (plug (⟨side.opposite, w.paint v.red, near⟩ ::
      ⟨side.opposite, v.paint false, x⟩ :: path) far) := by
    rw [← plug_far, attach_eq_node]
    exact step2.holds
  obtain ⟨s3, run3, step3⟩ := paint_root_ok tree2
  rw [← plug_far, ← plug_far] at step3
  obtain ⟨s4, run4, step4⟩ := rise_ok step3.holds
  rw [attach_eq_node side (w.paint v.red) near far] at step3
  refine ⟨s4, ?_, step1.trans (step2.trans (step3.trans step4))⟩
  have run4' : rotate side (some v.addr) s3 = .ok ((), s4) := run4
  rw [adjustCase6_eq, bind_ok (load_ok cell), bind_ok (load_ok cell), bind_ok run1, bind_ok run2,
    bind_ok (load_ok (a := v.addr) kcell)]
  cases side
  · rw [if_pos (onLeft.mpr rfl)]
    have far_eq : n.right = rbtLayout.root far := outer
    rw [far_eq, bind_ok run3]
    exact run4'
  · rw [if_neg (fun same => by simpa [repaint] using onLeft.mp same)]
    have far_eq : n.left = rbtLayout.root far := outer
    rw [far_eq, bind_ok run3]
    exact run4'

theorem parent_colour_ok (tree : Holds s (plug (f :: path) x)) :
    rbtIsRed (some f.label.addr) s = .ok (f.label.red, s) ∧
      rbtIsBlack (some f.label.addr) s = .ok (!f.label.red, s) := by
  have parent : Holds s (plug path (f.attach x)) := tree
  have red := is_red_ok parent
  have black := is_black_ok parent
  rw [rbtLayout.root_attach, rootRed_attach] at red black
  exact ⟨red, black⟩

/-- The colours that the tests of cases 3 and 4 read. -/
theorem rest_colours_ok (again : Ptr → RbtProg Unit)
    (tree : Holds s (plug (⟨side, v, .node w l r⟩ :: path) x)) :
    adjustRest again (some a) (some v.addr) (some w.addr) s =
      (if v.red = false ∧ w.red = false ∧ rootRed l = false ∧ rootRed r = false then do
        rbtSetRed (some w.addr)
        again (some v.addr)
      else if v.red = true ∧ w.red = false ∧ rootRed l = false ∧ rootRed r = false then do
        rbtSetBlack (some v.addr)
        rbtSetRed (some w.addr)
      else do
        let (parent, sibling) ← adjustCase5Remove (some a) (some v.addr) (some w.addr)
          (rbtLayout.root l) (rbtLayout.root r)
        adjustCase6 (some a) parent sibling) s := by
  obtain ⟨parentRed, parentBlack⟩ := parent_colour_ok tree
  obtain ⟨⟨-, leftBlack⟩, -, rightBlack⟩ := nephews_ok tree
  have refocused := tree
  rw [plug_flip] at refocused
  obtain ⟨n, cell, -, left, right, -, -⟩ := refocused.focus
  have siblingBlack : rbtIsBlack (some w.addr) s = .ok (!w.red, s) := is_black_ok refocused
  rw [adjustRest, if_neg (by simp), bind_ok (load_ok cell), bind_ok (load_ok cell), left, right,
    bind_ok parentBlack, bind_ok siblingBlack, bind_ok leftBlack, bind_ok rightBlack]
  simp only [Bool.not_eq_true']
  by_cases third : v.red = false ∧ w.red = false ∧ rootRed l = false ∧ rootRed r = false
  · rw [if_pos third, if_pos third]
    rfl
  · rw [if_neg third, if_neg third, bind_ok parentRed, bind_ok siblingBlack, bind_ok leftBlack,
      bind_ok rightBlack]
    simp only [Bool.not_eq_true']

theorem rest_again_ok (again : Ptr → RbtProg Unit)
    (tree : Holds s (plug (⟨side, v, .node w l r⟩ :: path) x))
    (black : v.red = false ∧ w.red = false ∧ rootRed l = false ∧ rootRed r = false) :
    ∃ next, adjustRest again (some a) (some v.addr) (some w.addr) s = again (some v.addr) next ∧
      Reshapes s (plug (⟨side, v, .node w l r⟩ :: path) x) next
        (plug path (Frame.attach ⟨side, v, .node (w.paint true) l r⟩ x)) := by
  obtain ⟨next, run, step⟩ := sibling_red_ok tree
  rw [rest_colours_ok again tree, if_pos black]
  exact ⟨next, bind_ok run _, step⟩

theorem rest_final_ok (again : Ptr → RbtProg Unit) (tree : Holds s (plug (f :: path) x))
    (atRoot : rbtLayout.root x = some a)
    (settled : ∀ w l r, f.sibling = .node w l r →
      ¬(f.label.red = false ∧ w.red = false ∧ rootRed l = false ∧ rootRed r = false)) :
    ∃ next, adjustRest again (some a) (some f.label.addr) (rbtLayout.root f.sibling) s =
        .ok ((), next) ∧
      Reshapes s (plug (f :: path) x) next (fixFinal f path x) := by
  obtain ⟨side, v, sibling⟩ := f
  cases sibling with
  | nil => exact ⟨s, rfl, Reshapes.refl tree⟩
  | node w l r =>
      rw [rbtLayout.root_node, layout_addr, rest_colours_ok again tree,
        if_neg (settled w l r rfl)]
      by_cases fourth : v.red = true ∧ w.red = false ∧ rootRed l = false ∧ rootRed r = false
      · have fixed : fixFinal ⟨side, v, .node w l r⟩ path x =
            plug (⟨side, v.paint false, .node (w.paint true) l r⟩ :: path) x := if_pos fourth
        obtain ⟨s1, run1, step1⟩ := black_ancestor_ok tree
        obtain ⟨s2, run2, step2⟩ := sibling_red_ok step1.holds
        rw [if_pos fourth, fixed]
        exact ⟨s2, (bind_ok run1 _).trans run2, step1.trans step2⟩
      · obtain ⟨s1, u, near, far, chosen, run1, step1⟩ := case5_remove_ok tree atRoot
        obtain ⟨s2, run2, step2⟩ := case6_ok step1.holds atRoot
        have fixed : fixFinal ⟨side, v, .node w l r⟩ path x =
            fixCase6 side v u near far path x :=
          (if_neg fourth).trans (congrArg
            (fun c : Label × RbtTree × RbtTree => fixCase6 side v c.1 c.2.1 c.2.2 path x) chosen)
        rw [if_neg fourth, fixed]
        exact ⟨s2, (bind_ok run1 _).trans run2, step1.trans step2⟩

theorem case2_ok (tree : Holds s (plug (f :: path) x)) (atRoot : rbtLayout.root x = some a) :
    ∃ next, adjustCase2 (some a) (some f.label.addr) s =
        .ok ((some (fixCase2 f path).1.label.addr, rbtLayout.root (fixCase2 f path).1.sibling), next) ∧
      Reshapes s (plug (f :: path) x) next (plug ((fixCase2 f path).1 :: (fixCase2 f path).2) x) := by
  obtain ⟨next, run, step⟩ := turn_sibling_ok tree atRoot
  refine ⟨next, ?_, step⟩
  rw [adjustCase2_eq, parent_side_ok tree atRoot (turnSibling .left _ _) (turnSibling .right _ _),
    ← run]
  cases f.side <;> rfl

/-- The fix-up carries out `fixRemove`. -/
theorem adjust_on_remove_ok (fuel : Nat) (tree : Holds s (plug path x))
    (atRoot : rbtLayout.root x = some a) (enough : path.length < fuel) :
    ∃ next, _rbtAdjustOnRemove fuel (some a) s = .ok ((), next) ∧
      Reshapes s (plug path x) next (fixRemove path x) := by
  induction path generalizing fuel s x a with
  | nil =>
      cases fuel with
      | zero => omega
      | succ fuel =>
          obtain ⟨n, cell, parent⟩ := Holds.node tree atRoot
          refine ⟨s, ?_, Reshapes.refl tree⟩
          rw [_rbtAdjustOnRemove_eq, bind_ok (load_ok cell), parent]
          rfl
  | cons f path ih =>
      cases fuel with
      | zero => omega
      | succ fuel =>
          obtain ⟨n, cell, parent⟩ := Holds.node tree atRoot
          obtain ⟨s1, run1, step1⟩ := case2_ok tree atRoot
          rw [_rbtAdjustOnRemove_eq, bind_ok (load_ok cell), parent, rbtLayout.top_cons, layout_addr,
            if_neg (by simp), bind_ok run1]
          obtain ⟨side, v, sibling⟩ := f
          cases sibling with
          | nil =>
              obtain ⟨s2, run2, step2⟩ := rest_final_ok (_rbtAdjustOnRemove fuel) step1.holds atRoot
                (fun w l r same => by cases same)
              exact ⟨s2, run2, step1.trans step2⟩
          | node w l r =>
              by_cases red : w.red = true
              · have turned : fixCase2 ⟨side, v, .node w l r⟩ path =
                    (⟨side, v.paint true, side.pick l r⟩,
                      ⟨side, w.paint false, side.opposite.pick l r⟩ :: path) := if_pos red
                have fixed : fixRemove (⟨side, v, .node w l r⟩ :: path) x =
                    fixFinal (fixCase2 ⟨side, v, .node w l r⟩ path).1
                      (fixCase2 ⟨side, v, .node w l r⟩ path).2 x := if_pos red
                obtain ⟨s2, run2, step2⟩ := rest_final_ok (_rbtAdjustOnRemove fuel) step1.holds
                  atRoot (fun _ _ _ _ black => by simp [turned, Label.paint] at black)
                rw [fixed]
                exact ⟨s2, run2, step1.trans step2⟩
              · have settled : fixCase2 ⟨side, v, .node w l r⟩ path =
                    (⟨side, v, .node w l r⟩, path) := if_neg red
                rw [settled] at step1 ⊢
                by_cases black : v.red = false ∧ rootRed l = false ∧ rootRed r = false
                · have fixed : fixRemove (⟨side, v, .node w l r⟩ :: path) x =
                      fixRemove path (Frame.attach ⟨side, v, .node (w.paint true) l r⟩ x) :=
                    (if_neg red).trans (if_pos black)
                  obtain ⟨s2, run2, step2⟩ := rest_again_ok (a := a) (_rbtAdjustOnRemove fuel)
                    step1.holds ⟨black.1, by simpa using red, black.2⟩
                  obtain ⟨s3, run3, step3⟩ := ih fuel step2.holds (rbtLayout.root_attach _ _)
                    (by simpa using enough)
                  rw [fixed]
                  exact ⟨s3, run2.trans run3, step1.trans (step2.trans step3)⟩
                · have fixed : fixRemove (⟨side, v, .node w l r⟩ :: path) x =
                      fixFinal ⟨side, v, .node w l r⟩ path x := (if_neg red).trans (if_neg black)
                  obtain ⟨s2, run2, step2⟩ := rest_final_ok (_rbtAdjustOnRemove fuel) step1.holds
                    atRoot (fun _ _ _ same all => black (by cases same; exact ⟨all.1, all.2.2⟩))
                  rw [fixed]
                  exact ⟨s2, run2, step1.trans step2⟩

end Fixup

end MnCommon.Rbt
