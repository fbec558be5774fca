import MnCommon.Rbt.Shape

/-! The recolouring and rotations after an insertion, on trees. -/

namespace MnCommon.Rbt

open Memory Trees

def repaint (f : Frame Label) (red : Bool) : Frame Label := { f with label := f.label.paint red }

def paintRoot (red : Bool) : RbtTree → RbtTree
  | .nil => .nil
  | .node v l r => .node (v.paint red) l r

/-- The parent and the grandparent as case 5 leaves them; with both on one side
the parent has risen above the grandparent. -/
def fixCase5 (f g : Frame Label) (path : RbtPath) (x : RbtTree) : RbtTree :=
  if f.side = g.side then
    plug ({ repaint f false with sibling := (repaint g true).attach f.sibling } :: path) x
  else
    plug (repaint f false :: repaint g true :: path) x

/-- The node risen above its parent. -/
def raise (f : Frame Label) : RbtTree → RbtTree
  | .nil => f.attach .nil
  | .node v l r =>
      match f.side with
      | .left => .node v l (.node f.label r f.sibling)
      | .right => .node v (.node f.label f.sibling l) r

/-- Case 5 as it follows the rotation of case 4: the grandparent is taken for
the parent, and there may be nothing above it. -/
def fixCase4 (g : Frame Label) : RbtPath → RbtTree → RbtTree
  | [], y => plug [g] y
  | h :: path, y => fixCase5 g h path y

def fixInsert : RbtPath → RbtTree → RbtTree
  | [], x => paintRoot false x
  | [f], x => plug [f] x
  | f :: g :: path, x =>
      if f.label.red = false then
        plug (f :: g :: path) x
      else if rootRed g.sibling then
        fixInsert path
          (({ repaint g true with sibling := paintRoot false g.sibling } : Frame Label).attach
            ((repaint f false).attach x))
      else if f.side = g.side then
        fixCase5 f g path x
      else
        fixCase4 g path (raise f x)

@[simp] theorem rootRed_attach (f : Frame Label) (t : RbtTree) :
    rootRed (f.attach t) = f.label.red := by
  obtain ⟨side, v, sibling⟩ := f
  cases side <;> rfl

section Fixup

variable {s : RbtStore} {f g : Frame Label} {path : RbtPath} {x l r : RbtTree} {v : Label}
  {a : Addr}

/-- What a frame of the path lets the program read. -/
theorem Holds.ancestor (tree : Holds s (plug (f :: path) x)) (atRoot : rbtLayout.root x = some a) :
    ∃ n, s.heap.lookup f.label.addr = some n ∧ n.parent = rbtLayout.top path ∧
      n.child f.side = some a ∧ n.child f.side.opposite = rbtLayout.root f.sibling ∧
      (some a = n.left ↔ f.side = .left) ∧ (some a = n.right ↔ f.side = .right) := by
  obtain ⟨n, record⟩ := tree.represents.ancestor
  exact ⟨n, record.cell, record.parent_eq, record.near_eq.trans atRoot, record.far_eq,
    tree.represents.side_iff atRoot record.cell .left,
    tree.represents.side_iff atRoot record.cell .right⟩

theorem Holds.node (tree : Holds s (plug path x)) (atRoot : rbtLayout.root x = some a) :
    ∃ n, s.heap.lookup a = some n ∧ n.parent = rbtLayout.top path := by
  cases x with
  | nil => cases atRoot
  | node v l r =>
      obtain ⟨n, cell, parent, -⟩ := tree.focus
      obtain rfl : v.addr = a := Option.some.inj atRoot
      exact ⟨n, cell, parent⟩

theorem black_ancestor_ok (tree : Holds s (plug (f :: path) x)) :
    ∃ next, rbtSetBlack (some f.label.addr) s = .ok ((), next) ∧
      Reshapes s (plug (f :: path) x) next (plug (repaint f false :: path) x) := by
  obtain ⟨side, v, sibling⟩ := f
  cases side
  · exact set_black_ok (show Holds s (plug path (.node v x sibling)) from tree)
  · exact set_black_ok (show Holds s (plug path (.node v sibling x)) from tree)

theorem red_ancestor_ok (tree : Holds s (plug (f :: path) x)) :
    ∃ next, rbtSetRed (some f.label.addr) s = .ok ((), next) ∧
      Reshapes s (plug (f :: path) x) next (plug (repaint f true :: path) x) := by
  obtain ⟨side, v, sibling⟩ := f
  cases side
  · exact set_red_ok (show Holds s (plug path (.node v x sibling)) from tree)
  · exact set_red_ok (show Holds s (plug path (.node v sibling x)) from tree)

theorem case5_ok (tree : Holds s (plug (f :: g :: path) x)) (atRoot : rbtLayout.root x = some a) :
    ∃ next, adjustCase5 (some a) (some f.label.addr) (some g.label.addr) s = .ok ((), next) ∧
      Reshapes s (plug (f :: g :: path) x) next (fixCase5 f g path x) := by
  obtain ⟨n, ncell, -, -, -, nleft, nright⟩ := tree.ancestor atRoot
  obtain ⟨k, kcell, -, -, -, kleft, kright⟩ :=
    Holds.ancestor (x := f.attach x) tree (rbtLayout.root_attach f x)
  rw [layout_addr] at kleft kright
  simp only [adjustCase5, reduceCtorEq, if_false, bind_ok (load_ok ncell), bind_ok (load_ok kcell),
    nleft, nright, kleft, kright]
  by_cases same : f.side = g.side
  · have turned : plug (f :: g :: path) x = plug (⟨g.side.opposite, f.label, x⟩ ::
        ⟨g.side.opposite.opposite, g.label, g.sibling⟩ :: path) f.sibling := by
      rw [opposite_opposite, plug, attach_flip, same]
      rfl
    rw [fixCase5, if_pos same, turned]
    rw [turned] at tree
    obtain ⟨s1, run1, step1⟩ := rotate_ok g.side.opposite tree
    have tree1 : Holds s1 (plug (⟨g.side.opposite, f.label, x⟩ :: path) (g.attach f.sibling)) := by
      have risen := step1.holds
      rw [opposite_opposite] at risen
      exact risen
    obtain ⟨s2, run2, step2⟩ := black_ancestor_ok tree1
    have tree2 : Holds s2 (plug (g :: ⟨g.side.opposite, f.label.paint false, x⟩ :: path)
        f.sibling) := step2.holds
    obtain ⟨s3, run3, step3⟩ := red_ancestor_ok tree2
    have painted : plug (repaint g true :: ⟨g.side.opposite, f.label.paint false, x⟩ :: path)
        f.sibling =
          plug ({ repaint f false with sibling := (repaint g true).attach f.sibling } :: path) x := by
      rw [plug, plug, attach_flip, opposite_opposite, ← same]
      rfl
    refine ⟨s3, ?_, ?_⟩
    · cases here : g.side
      · rw [here] at same run1
        rw [if_pos ⟨same, rfl⟩, rotate_right_eq]
        exact (bind_ok run1 _).trans ((bind_ok run2 _).trans run3)
      · rw [here] at same run1
        rw [if_neg (by simp [same]), if_pos ⟨same, rfl⟩, rotate_left_eq]
        exact (bind_ok run1 _).trans ((bind_ok run2 _).trans run3)
    · rw [← painted]
      rw [opposite_opposite] at step1 ⊢
      exact step1.trans (step2.trans step3)
  · obtain ⟨s1, run1, step1⟩ := black_ancestor_ok tree
    have tree1 : Holds s1 (plug (g :: path) ((repaint f false).attach x)) := step1.holds
    obtain ⟨s2, run2, step2⟩ := red_ancestor_ok tree1
    refine ⟨s2, ?_, ?_⟩
    · have stays : ¬(f.side = .left ∧ g.side = .left) ∧ ¬(f.side = .right ∧ g.side = .right) := by
        constructor <;> rintro ⟨inner, outer⟩ <;> exact same (inner.trans outer.symm)
      rw [if_neg stays.1, if_neg stays.2]
      exact (bind_ok run1 _).trans run2
    · rw [fixCase5, if_neg same]
      exact step1.trans step2

theorem raise_ok (tree : Holds s (plug (f :: path) (.node v l r))) :
    ∃ next, rotate f.side.opposite (some f.label.addr) s = .ok ((), next) ∧
      Reshapes s (plug (f :: path) (.node v l r)) next (plug path (raise f (.node v l r))) := by
  obtain ⟨side, w, sibling⟩ := f
  cases side
  · exact rotate_right_ok tree
  · exact rotate_left_ok tree

theorem root_raise (f : Frame Label) (v : Label) (l r : RbtTree) :
    rbtLayout.root (raise f (.node v l r)) = some v.addr := by
  obtain ⟨side, w, sibling⟩ := f
  cases side <;> rfl

theorem case4_outer_ok (tree : Holds s (plug (f :: g :: path) x)) (atRoot : rbtLayout.root x = some a)
    (outer : f.side = g.side) :
    adjustCase4 (some a) (some f.label.addr) (some g.label.addr) s =
      .ok ((some f.label.addr, some g.label.addr), s) := by
  obtain ⟨n, ncell, -, -, -, nleft, nright⟩ := tree.ancestor atRoot
  obtain ⟨k, kcell, -, -, -, kleft, kright⟩ :=
    Holds.ancestor (x := f.attach x) tree (rbtLayout.root_attach f x)
  rw [layout_addr] at kleft kright
  rw [adjustCase4, bind_ok (load_ok ncell), bind_ok (load_ok kcell)]
  simp only [nleft, nright, kleft, kright, outer]
  cases g.side <;> rfl

theorem case4_inner_ok (tree : Holds s (plug (f :: g :: path) (.node v l r)))
    (inner : f.side ≠ g.side) :
    ∃ next, adjustCase4 (some v.addr) (some f.label.addr) (some g.label.addr) s =
        .ok ((some g.label.addr, rbtLayout.top path), next) ∧
      Reshapes s (plug (f :: g :: path) (.node v l r)) next
        (plug (g :: path) (raise f (.node v l r))) := by
  have atRoot : rbtLayout.root (.node v l r) = some v.addr := rfl
  obtain ⟨n, ncell, -, -, -, nleft, nright⟩ := tree.ancestor atRoot
  obtain ⟨k, kcell, -, -, -, kleft, kright⟩ :=
    Holds.ancestor (x := f.attach (.node v l r)) tree (rbtLayout.root_attach f _)
  rw [layout_addr] at kleft kright
  obtain ⟨s1, run1, step1⟩ := raise_ok tree
  obtain ⟨m, mcell, mparent⟩ := Holds.node step1.holds (root_raise f v l r)
  obtain ⟨q, qcell, qparent⟩ := Holds.ancestor step1.holds (root_raise f v l r)
  rw [rbtLayout.top_cons, layout_addr] at mparent
  refine ⟨s1, ?_, step1⟩
  rw [adjustCase4, bind_ok (load_ok ncell), bind_ok (load_ok kcell)]
  simp only [nleft, nright, kleft, kright]
  cases fside : f.side <;> cases gside : g.side <;>
    simp only [fside, opposite_left, opposite_right] at run1
  · exact absurd (fside.trans gside.symm) inner
  · rw [if_neg (by simp), if_pos ⟨rfl, rfl⟩, rotate_right_eq, bind_ok run1,
      bind_ok (load_ok mcell), mparent, bind_ok (a := ()) (by rfl), bind_ok (load_ok qcell),
      qparent.1]
    rfl
  · rw [if_pos ⟨rfl, rfl⟩, rotate_left_eq, bind_ok run1, bind_ok (load_ok mcell), mparent,
      bind_ok (a := ()) (by rfl), bind_ok (load_ok qcell), qparent.1]
    rfl
  · exact absurd (fside.trans gside.symm) inner

theorem case4_end_ok (tree : Holds s (plug (g :: path) x)) (atRoot : rbtLayout.root x = some a) :
    ∃ next, adjustCase5 (some a) (some g.label.addr) (rbtLayout.top path) s = .ok ((), next) ∧
      Reshapes s (plug (g :: path) x) next (fixCase4 g path x) := by
  cases path with
  | nil => exact ⟨s, rfl, Reshapes.refl tree⟩
  | cons h path => exact case5_ok tree atRoot

theorem uncle_ok (tree : Holds s (plug (f :: path) x)) (atRoot : rbtLayout.root x = some a) :
    uncleOf (some a) (some f.label.addr) s = .ok (rbtLayout.root f.sibling, s) := by
  obtain ⟨n, cell, -, near, far, left, -⟩ := tree.ancestor atRoot
  rw [uncleOf, if_neg (by simp), bind_ok (load_ok cell)]
  cases side : f.side <;> rw [side] at near far left
  · rw [if_neg (not_not.mpr (left.mpr rfl).symm)]
    exact congrArg (fun p => Except.ok (p, s)) far
  · rw [if_pos (fun same => by simp [same] at left)]
    exact congrArg (fun p => Except.ok (p, s)) far

theorem adjust_root_ok (fuel : Nat) (tree : Holds s (.node v l r)) :
    ∃ next, _rbtAdjustOnInsert (fuel + 1) (some v.addr) s = .ok ((), next) ∧
      Reshapes s (.node v l r) next (.node (v.paint false) l r) := by
  obtain ⟨next, run, step⟩ := set_black_ok (show Holds s (plug [] (.node v l r)) from tree)
  refine ⟨next, ?_, step⟩
  rw [_rbtAdjustOnInsert, bind_ok (a := s.vars) (by rfl),
    if_pos (show some v.addr = s.vars.root from tree.root_eq.symm)]
  exact run

theorem adjust_black_parent_ok (fuel : Nat) (tree : Holds s (plug (f :: path) x))
    (atRoot : rbtLayout.root x = some a) (black : f.label.red = false) :
    _rbtAdjustOnInsert (fuel + 1) (some a) s = .ok ((), s) := by
  obtain ⟨n, cell, parent⟩ := Holds.node tree atRoot
  have colour := is_black_ok (show Holds s (plug path (f.attach x)) from tree)
  rw [rootRed_attach, rbtLayout.root_attach, black] at colour
  rw [_rbtAdjustOnInsert, bind_ok (a := s.vars) (by rfl),
    if_neg (by rw [tree.root_eq]; exact tree.represents.root_ne atRoot), bind_ok (load_ok cell),
    parent, rbtLayout.top_cons, bind_ok colour]
  rfl

/-- What a node with a red parent leads to. -/
theorem adjust_red_parent_ok (fuel : Nat) (tree : Holds s (plug (f :: path) x))
    (atRoot : rbtLayout.root x = some a) (red : f.label.red = true) {u : Ptr} {uncleRed : Bool}
    (uncle : uncleOf (some f.label.addr) (rbtLayout.top path) s = .ok (u, s))
    (isRed : rbtIsRed u s = .ok (uncleRed, s)) (isBlack : rbtIsBlack u s = .ok (!uncleRed, s)) :
    _rbtAdjustOnInsert (fuel + 1) (some a) s = (if uncleRed then do
        rbtSetBlack (some f.label.addr)
        rbtSetBlack u
        rbtSetRed (rbtLayout.top path)
        _rbtAdjustOnInsert fuel (rbtLayout.top path)
      else if rbtLayout.top path = none then
        return ()
      else do
        let (p, g) ← adjustCase4 (some a) (some f.label.addr) (rbtLayout.top path)
        adjustCase5 (some a) p g) s := by
  obtain ⟨n, cell, parent⟩ := Holds.node tree atRoot
  obtain ⟨k, pcell, grand, -⟩ := tree.ancestor atRoot
  have colour := is_black_ok (show Holds s (plug path (f.attach x)) from tree)
  rw [rootRed_attach, rbtLayout.root_attach, red] at colour
  rw [_rbtAdjustOnInsert, bind_ok (a := s.vars) (by rfl),
    if_neg (by rw [tree.root_eq]; exact tree.represents.root_ne atRoot), bind_ok (load_ok cell),
    parent, rbtLayout.top_cons, bind_ok colour]
  simp only [Bool.not_true, Bool.false_eq_true, if_false]
  rw [bind_ok (load_ok cell), parent, rbtLayout.top_cons, layout_addr, bind_ok (load_ok pcell),
    grand, bind_ok uncle, bind_ok isRed]
  cases uncleRed
  · simp only [Bool.false_eq_true, if_false]
    rw [bind_ok isBlack]
    rfl
  · rfl

theorem recolour_ok (tree : Holds s (plug (f :: g :: path) x)) (red : rootRed g.sibling = true) :
    ∃ next, (∀ rest : RbtProg Unit, (do
        rbtSetBlack (some f.label.addr)
        rbtSetBlack (rbtLayout.root g.sibling)
        rbtSetRed (some g.label.addr)
        rest) s = rest next) ∧
      Reshapes s (plug (f :: g :: path) x) next (plug path
        (({ repaint g true with sibling := paintRoot false g.sibling } : Frame Label).attach
          ((repaint f false).attach x))) := by
  obtain ⟨side, label, sibling⟩ := g
  cases sibling with
  | nil => cases red
  | node w l r =>
      obtain ⟨s1, run1, step1⟩ := black_ancestor_ok tree
      have uncleTree : Holds s1 (plug (⟨side.opposite, label, (repaint f false).attach x⟩ :: path)
          (.node w l r)) := by
        have flipped := step1.holds
        rwa [plug, plug, attach_flip] at flipped
      obtain ⟨s2, run2, step2⟩ := set_black_ok uncleTree
      obtain ⟨s3, run3, step3⟩ := red_ancestor_ok step2.holds
      refine ⟨s3, fun rest => ?_, step1.trans ?_⟩
      · rw [bind_ok run1, rbtLayout.root_node, layout_addr, bind_ok run2, bind_ok run3]
      have whole := step2.trans step3
      have back : plug (repaint f false :: ⟨side, label, .node w l r⟩ :: path) x =
          plug (⟨side.opposite, label, (repaint f false).attach x⟩ :: path) (.node w l r) := by
        rw [plug, plug, attach_flip, plug]
      have forth : Frame.attach ⟨side, label.paint true, .node (w.paint false) l r⟩
          ((repaint f false).attach x) =
            Frame.attach ⟨side.opposite, label.paint true, (repaint f false).attach x⟩
              (.node (w.paint false) l r) := attach_flip _ _
      rw [back]
      change Reshapes s1 _ s3 (plug path
        (Frame.attach ⟨side, label.paint true, .node (w.paint false) l r⟩ _))
      rw [forth]
      exact whole

/-- The fix-up carries out `fixInsert`. -/
theorem adjust_on_insert_ok (fuel : Nat) (tree : Holds s (plug path x))
    (atRoot : rbtLayout.root x = some a) (enough : path.length < fuel) :
    ∃ next, _rbtAdjustOnInsert fuel (some a) s = .ok ((), next) ∧
      Reshapes s (plug path x) next (fixInsert path x) := by
  induction fuel generalizing s path x a with
  | zero => omega
  | succ fuel ih =>
      match path, x, tree, atRoot, enough with
      | [], .node v l r, tree, atRoot, _ =>
          obtain rfl : v.addr = a := Option.some.inj atRoot
          exact adjust_root_ok fuel tree
      | [f], x, tree, atRoot, _ =>
          refine ⟨s, ?_, Reshapes.refl tree⟩
          cases red : f.label.red
          · exact adjust_black_parent_ok fuel tree atRoot red
          · rw [adjust_red_parent_ok fuel tree atRoot red
              (show uncleOf (some f.label.addr) none s = .ok (none, s) from rfl)
              (show rbtIsRed none s = .ok (false, s) from rfl) (by rfl)]
            rfl
      | f :: g :: path, .node v l r, tree, atRoot, enough =>
          rw [fixInsert]
          cases red : f.label.red
          · exact ⟨s, adjust_black_parent_ok fuel tree atRoot red, Reshapes.refl tree⟩
          have tree1 : Holds s (plug (g :: path) (f.attach (.node v l r))) := tree
          have uncle := uncle_ok tree1 (rbtLayout.root_attach f _)
          have uncleTree : Holds s (plug (⟨g.side.opposite, g.label, f.attach (.node v l r)⟩ :: path)
              g.sibling) := by
            have flipped := tree1
            rwa [plug, attach_flip] at flipped
          rw [adjust_red_parent_ok fuel tree atRoot red uncle (is_red_ok uncleTree)
            (is_black_ok uncleTree)]
          cases uncleRed : rootRed g.sibling
          · simp only [Bool.false_eq_true, if_false, rbtLayout.top_cons, reduceCtorEq, layout_addr]
            by_cases outer : f.side = g.side
            · rw [bind_ok (case4_outer_ok tree atRoot outer), if_pos outer]
              exact case5_ok tree atRoot
            · obtain ⟨s1, run1, step1⟩ := case4_inner_ok tree outer
              obtain rfl : v.addr = a := Option.some.inj atRoot
              rw [bind_ok run1, if_neg outer]
              obtain ⟨s2, run2, step2⟩ := case4_end_ok step1.holds (root_raise f v l r)
              exact ⟨s2, run2, step1.trans step2⟩
          · obtain ⟨s1, run1, step1⟩ := recolour_ok tree uncleRed
            obtain ⟨s2, run2, step2⟩ := ih step1.holds (rbtLayout.root_attach _ _)
              (by simp only [List.length_cons] at enough; omega)
            refine ⟨s2, ?_, step1.trans step2⟩
            exact (run1 _).trans run2

end Fixup

end MnCommon.Rbt
