import MnCommon.Rbt.Insert
import MnCommon.Rbt.RemoveFixup

/-! Removing a node: the replacement leaves its place, the tree is repaired
there, and the replacement takes the place of the node. -/

namespace MnCommon.Rbt

open Memory Trees

/-- The open position below the last node towards one side. -/
def slot (side : Side) (path : RbtPath) : RbtTree → RbtPath
  | .nil => path
  | .node v l r =>
      match side with
      | .left => slot side (⟨.left, v, r⟩ :: path) l
      | .right => slot side (⟨.right, v, l⟩ :: path) r

/-- The open position below the replacement of a node; empty for a leaf. -/
def replacementSlot (path : RbtPath) (v : Label) : RbtTree → RbtTree → RbtPath
  | .nil, .nil => []
  | .nil, .node w l r => slot .left (⟨.right, v, .nil⟩ :: path) (.node w l r)
  | .node w l r, sibling => slot .right (⟨.left, v, sibling⟩ :: path) (.node w l r)

/-- The tree without the replacement, repaired as far as the program does it. -/
def fixUnlinked (w : Label) (path : RbtPath) (child : RbtTree) : RbtTree :=
  if w.red then
    plug path child
  else if rootRed child then
    plug path (paintRoot false child)
  else if child = .nil then
    plug path .nil
  else
    fixRemove path child

/-- The replacement takes the place and the colour of the node. -/
def substitute (a : Addr) (w : Label) (t : RbtTree) : RbtTree :=
  t.map fun v => if v.addr = a then w.paint v.red else v

def removeTree (path : RbtPath) (v : Label) (l r : RbtTree) : RbtTree :=
  match replacementSlot path v l r with
  | [] => plug path .nil
  | f :: rest => substitute v.addr f.label (fixUnlinked f.label rest f.sibling)

theorem plug_slot (side : Side) (path : RbtPath) (t : RbtTree) :
    plug (slot side path t) .nil = plug path t := by
  induction t generalizing path with
  | nil => rfl
  | node v l r left right =>
      cases side
      · exact left _
      · exact right _

theorem slot_head (side : Side) (path : RbtPath) (t : RbtTree) (present : t ≠ .nil) :
    ∃ f inner, slot side path t = f :: (inner ++ path) ∧ f.side = side := by
  induction t generalizing path with
  | nil => exact absurd rfl present
  | node v l r left right =>
      cases side
      · cases l with
        | nil => exact ⟨⟨.left, v, r⟩, [], rfl, rfl⟩
        | node w below above =>
            obtain ⟨f, inner, same, here⟩ := left (⟨.left, v, r⟩ :: path) (by simp)
            exact ⟨f, inner ++ [⟨.left, v, r⟩], by simpa [slot] using same, here⟩
      · cases r with
        | nil => exact ⟨⟨.right, v, l⟩, [], rfl, rfl⟩
        | node w below above =>
            obtain ⟨f, inner, same, here⟩ := right (⟨.right, v, l⟩ :: path) (by simp)
            exact ⟨f, inner ++ [⟨.right, v, l⟩], by simpa [slot] using same, here⟩

theorem before_slot_left (path : RbtPath) (t : RbtTree) :
    before (slot .left path t) = before path := by
  induction t generalizing path with
  | nil => rfl
  | node v l r left _ => exact left _

theorem after_slot_right (path : RbtPath) (t : RbtTree) :
    after (slot .right path t) = after path := by
  induction t generalizing path with
  | nil => rfl
  | node v l r _ right => exact right _

/-- The replacement of a node that is not a leaf, next to it in order. -/
structure Replacement (path : RbtPath) (v : Label) (l r : RbtTree) (f : Frame Label)
    (rest : RbtPath) : Prop where
  slot_eq : replacementSlot path v l r = f :: rest
  side : f.side = if l = .nil then .left else .right
  whole : plug (f :: rest) .nil = plug path (.node v l r)
  deep : rest ≠ []
  member : v ∈ inorder (plug rest f.sibling)
  order : ∃ front back, (idents (plug rest f.sibling) = front ++ v.ident :: back) ∧
    (idents (plug path (.node v l r)) = front ++ f.label.ident :: v.ident :: back ∨
      idents (plug path (.node v l r)) = front ++ v.ident :: f.label.ident :: back)

theorem replacement_of_left (path : RbtPath) (v : Label) (l r : RbtTree) (present : l ≠ .nil) :
    ∃ f rest, Replacement path v l r f rest := by
  obtain ⟨f, inner, same, side⟩ := slot_head .right (⟨.left, v, r⟩ :: path) l present
  have whole : plug (f :: (inner ++ ⟨.left, v, r⟩ :: path)) .nil = plug path (.node v l r) := by
    rw [← same, plug_slot]
    rfl
  have beyond := after_slot_right (⟨.left, v, r⟩ :: path) l
  obtain ⟨_, w, child⟩ := f
  obtain rfl := side
  rw [same] at beyond
  simp only [after] at beyond
  have parted : inorder (plug (inner ++ ⟨.left, v, r⟩ :: path) child) =
      before (inner ++ ⟨.left, v, r⟩ :: path) ++ inorder child ++
        v :: (inorder r ++ after path) := by
    rw [inorder_plug, beyond]
    simp
  refine ⟨_, _, ⟨?_, (if_neg present).symm, whole, by simp, ?_, ?_⟩⟩
  · cases l with
    | nil => exact absurd rfl present
    | node u below above => exact same
  · rw [parted]
    simp
  · refine ⟨(before (inner ++ ⟨.left, v, r⟩ :: path) ++ inorder child).map Label.ident,
      (inorder r ++ after path).map Label.ident, by simp [idents, parted], Or.inl ?_⟩
    rw [← whole, idents, inorder_plug]
    simp [before, after, beyond]

theorem replacement_of_right (path : RbtPath) (v : Label) (r : RbtTree) (present : r ≠ .nil) :
    ∃ f rest, Replacement path v .nil r f rest := by
  obtain ⟨f, inner, same, side⟩ := slot_head .left (⟨.right, v, .nil⟩ :: path) r present
  have whole : plug (f :: (inner ++ ⟨.right, v, .nil⟩ :: path)) .nil =
      plug path (.node v .nil r) := by
    rw [← same, plug_slot]
    rfl
  have ahead := before_slot_left (⟨.right, v, .nil⟩ :: path) r
  obtain ⟨_, w, child⟩ := f
  obtain rfl := side
  rw [same] at ahead
  simp only [before, inorder_nil, List.nil_append] at ahead
  have parted : inorder (plug (inner ++ ⟨.right, v, .nil⟩ :: path) child) =
      before path ++ v :: (inorder child ++ after (inner ++ ⟨.right, v, .nil⟩ :: path)) := by
    rw [inorder_plug, ahead]
    simp
  refine ⟨_, _, ⟨?_, rfl, whole, by simp, ?_, ?_⟩⟩
  · cases r with
    | nil => exact absurd rfl present
    | node u below above => exact same
  · rw [parted]
    simp
  · refine ⟨(before path).map Label.ident,
      (inorder child ++ after (inner ++ ⟨.right, v, .nil⟩ :: path)).map Label.ident,
      by simp [idents, parted], Or.inr ?_⟩
    rw [← whole, idents, inorder_plug]
    simp [before, after, ahead]

theorem substitute_absent (a : Addr) (w : Label) (t : RbtTree) (absent : a ∉ rbtLayout.addrs t) :
    substitute a w t = t := by
  induction t with
  | nil => rfl
  | node v l r left right =>
      simp only [rbtLayout.addrs_node, List.mem_append, List.mem_cons, layout_addr, not_or] at absent
      obtain ⟨below, here, above⟩ := absent
      have left := left below
      have right := right above
      rw [substitute] at left right ⊢
      rw [BinaryTree.map, left, right, if_neg (Ne.symm here)]

theorem substitute_plug (a : Addr) (w : Label) (path : RbtPath) (t : RbtTree)
    (absent : a ∉ rbtLayout.pathAddrs path) :
    substitute a w (plug path t) = plug path (substitute a w t) := by
  induction path generalizing t with
  | nil => rfl
  | cons f path ih =>
      rw [rbtLayout.mem_pathAddrs_cons, not_or, not_or] at absent
      obtain ⟨here, beside, above⟩ := absent
      have beside := substitute_absent a w f.sibling beside
      rw [plug, ih _ above, plug]
      obtain ⟨side, v, sibling⟩ := f
      have kept : (if v.addr = a then w.paint v.red else v) = v := if_neg (Ne.symm here)
      rw [substitute] at beside
      cases side <;> simp [Frame.attach, substitute, BinaryTree.map, kept, beside]

theorem substitute_focus (w : Label) (path : RbtPath) (v : Label) (l r : RbtTree)
    (distinct : (rbtLayout.addrs (plug path (.node v l r))).Nodup) :
    substitute v.addr w (plug path (.node v l r)) = plug path (.node (w.paint v.red) l r) := by
  obtain ⟨-, inner, away⟩ := (rbtLayout.distinct_plug path _).mp distinct
  rw [rbtLayout.addrs_node, List.nodup_middle, List.nodup_cons, List.mem_append, not_or] at inner
  rw [substitute_plug _ _ _ _ (fun member => away _ member (by simp)), substitute, BinaryTree.map,
    if_pos rfl]
  have left := substitute_absent v.addr w l inner.1.1
  have right := substitute_absent v.addr w r inner.1.2
  rw [substitute] at left right
  rw [left, right]

theorem idents_substitute (a : Addr) (w : Label) (t : RbtTree) :
    idents (substitute a w t) = (idents t).map fun x => if x.1 = a then w.ident else x := by
  induction t with
  | nil => rfl
  | node v l r left right =>
      have here : (if v.addr = a then w.paint v.red else v).ident =
          if v.ident.1 = a then w.ident else v.ident := by
        by_cases same : v.addr = a <;> simp [Label.ident, Label.paint, same]
      simp only [idents, substitute, BinaryTree.map, inorder_node, List.map_append, List.map_cons] at *
      rw [left, right, here]

section Replacement

variable {s : RbtStore} {path : RbtPath} {t : RbtTree} {v : Label} {l r : RbtTree}

/-- Both walks to a replacement. -/
def endmost (side : Side) : Nat → Ptr → RbtProg Ptr
  | 0, _ => fault .outOfFuel
  | fuel + 1, repl => do
      let n ← load repl
      if n.child side ≠ none then endmost side fuel (n.child side) else pure repl

theorem rightmost_eq (fuel : Nat) : rightmost fuel = endmost .right fuel := by
  induction fuel with
  | zero => rfl
  | succ fuel ih =>
      funext repl
      rw [rightmost, ih]
      rfl

theorem leftmost_eq (fuel : Nat) : leftmost fuel = endmost .left fuel := by
  induction fuel with
  | zero => rfl
  | succ fuel ih =>
      funext repl
      rw [leftmost, ih]
      rfl

theorem endmost_ok (side : Side) (fuel : Nat) (tree : Holds s (plug path t)) (present : t ≠ .nil)
    (enough : t.numNodes ≤ fuel) :
    endmost side fuel (rbtLayout.root t) s = .ok (rbtLayout.top (slot side path t), s) := by
  induction t generalizing path fuel with
  | nil => exact absurd rfl present
  | node v l r left right =>
      simp only [BinaryTree.numNodes] at enough
      cases fuel with
      | zero => omega
      | succ fuel =>
          obtain ⟨n, cell, -, leftEq, rightEq, -, -⟩ := tree.focus
          rw [rbtLayout.root_node, layout_addr, endmost, bind_ok (load_ok cell)]
          cases side
          · rw [show n.child .left = rbtLayout.root l from leftEq]
            cases l with
            | nil => rfl
            | node w below above => exact left fuel tree (by simp) (by omega)
          · rw [show n.child .right = rbtLayout.root r from rightEq]
            cases r with
            | nil => rfl
            | node w below above => exact right fuel tree (by simp) (by omega)

end Replacement

section Unlinking

variable {s : RbtStore} {f : Frame Label} {path : RbtPath} {t u child l r : RbtTree} {v w : Label}
  {a : Addr} {old : Ptr} {k : MnRbtNode}

/-- A subtree that hangs elsewhere takes the place of another one. -/
theorem relink_ok (tree : Holds s (plug path t)) (atRoot : rbtLayout.root t = some a)
    (inside : rbtLayout.Subtree s.heap old u) (distinct : (rbtLayout.addrs u).Nodup)
    (apart : ∀ b ∈ rbtLayout.pathAddrs path, b ∉ rbtLayout.addrs u) :
    ∃ middle next, replaceChild (rbtLayout.top path) (some a) (rbtLayout.root u) s =
        .ok ((), middle) ∧
      setParent (rbtLayout.root u) (rbtLayout.top path) middle = .ok ((), next) ∧
      Holds next (plug path u) ∧ Within (rbtLayout.pathAddrs path ++ rbtLayout.addrs u) s next := by
  obtain ⟨opened, -⟩ := (rbtLayout.subtree_plug _ path t).mp tree.represents.shape
  obtain ⟨outer, -, away⟩ := (rbtLayout.distinct_plug path t).mp tree.represents.distinct
  rw [atRoot] at opened
  obtain ⟨s1, run1, opened1, root1, within1⟩ := replace_child_ok (rbtLayout.root u) opened outer
    (fun member => away a member (rbtLayout.root_mem t a atRoot)) tree.root_eq
  have inside1 : rbtLayout.Subtree s1.heap old u := rbtLayout.subtree_frame
    (fun b member => within1.outside b (fun onPath => apart b onPath member)) inside
  obtain ⟨s2, run2, inside2, vars2, within2⟩ :=
    set_parent_ok (rbtLayout.top path) inside1 distinct
  refine ⟨s1, s2, run1, run2, ⟨⟨(rbtLayout.subtree_plug _ path u).mpr ⟨?_, inside2⟩, ?_⟩, ?_⟩, ?_⟩
  · exact rbtLayout.opened_frame (fun b member => within2.outside b (apart b member)) opened1
  · exact (rbtLayout.distinct_plug path u).mpr ⟨outer, distinct, apart⟩
  · rw [vars2]
    exact root1 u rfl
  · exact (within1.mono (fun b member => List.mem_append_left _ member)).trans
      (within2.mono (fun b member => List.mem_append_right _ member))

theorem unlink_ok (tree : Holds s (plug (f :: path) .nil)) (deep : path ≠ []) :
    ∃ next, unlinkReplacement (some f.label.addr) (rbtLayout.root f.sibling) s = .ok ((), next) ∧
      Holds next (plug path f.sibling) ∧
      Within (rbtLayout.addrs (plug (f :: path) .nil)) s next ∧
      next.heap.lookup f.label.addr = s.heap.lookup f.label.addr := by
  have tree0 : Holds s (plug path (f.attach .nil)) := tree
  obtain ⟨n, cell, parent⟩ := Holds.node tree0 (rbtLayout.root_attach f .nil)
  obtain ⟨⟨-, beside, -⟩, -⟩ := (rbtLayout.subtree_plug _ (f :: path) _).mp tree.represents.shape
  obtain ⟨outer, inner, away⟩ :=
    (rbtLayout.distinct_plug path (f.attach .nil)).mp tree0.represents.distinct
  simp only [rbtLayout.nodup_addrs_attach, rbtLayout.mem_addrs_attach, layout_addr] at inner away
  obtain ⟨s1, s2, run1, run2, tree2, within2⟩ := relink_ok tree0 (rbtLayout.root_attach f .nil)
    beside inner.2.2.1 (fun b onPath member => away b onPath (Or.inr (Or.inl member)))
  obtain ⟨g, path, rfl⟩ := List.exists_cons_of_ne_nil deep
  rw [rbtLayout.top_cons] at run1 run2 parent
  refine ⟨s2, ?_, tree2, within2.mono ?_, within2.outside _ ?_⟩
  · have fill : fillReplacement (some (rbtLayout.addr g.label)) (some f.label.addr)
        (rbtLayout.root f.sibling) s = .ok ((), s1) := by
      rw [← run1, fillReplacement, replaceChild, if_neg (by simp), if_neg (by simp)]
      rfl
    have above : replacementParent (some f.label.addr) s =
        .ok (some (rbtLayout.addr g.label), s) := by
      rw [replacementParent, if_neg (by simp)]
      refine (bind_ok (load_ok cell) _).trans ?_
      rw [parent]
      rfl
    rw [unlinkReplacement, bind_ok above, bind_ok fill]
    exact run2
  · intro b member
    rw [rbtLayout.mem_addrs_cons]
    rcases List.mem_append.mp member with member | member
    · exact Or.inl member
    · exact Or.inr (Or.inr (Or.inl member))
  · intro member
    rcases List.mem_append.mp member with member | member
    · exact away _ member (Or.inl rfl)
    · exact inner.1 member

theorem adjust_replacement_ok (tree : Holds s (plug path child)) (cell : s.heap.lookup w.addr = some k)
    (colour : k.isRed = w.red) :
    ∃ next, adjustReplacement (some w.addr) (rbtLayout.root child) s = .ok ((), next) ∧
      Reshapes s (plug path child) next (fixUnlinked w path child) := by
  have black : rbtIsBlack (some w.addr) s = .ok (!w.red, s) := by
    rw [rbtIsBlack, bind_ok (load_ok cell), run_pure, colour]
  rw [adjustReplacement, bind_ok black, fixUnlinked]
  cases w.red
  · simp only [Bool.not_false, if_true, Bool.false_eq_true, if_false]
    rw [bind_ok (is_red_ok tree)]
    cases child with
    | nil => exact ⟨s, rfl, Reshapes.refl tree⟩
    | node c l r =>
        cases red : c.red
        · have enough : path.length < s.bound := by
            have size := tree.represents.size_le
            have length := path_length_le path (.node c l r)
            exact Nat.lt_succ_of_le (by omega)
          obtain ⟨next, run, step⟩ := adjust_on_remove_ok s.bound tree (a := c.addr) rfl enough
          simp only [rootRed, red, Bool.false_eq_true, if_false, reduceCtorEq]
          exact ⟨next, (bind_ok (a := s.bound) (by rfl) _).trans run, step⟩
        · simp only [rootRed, red, if_true]
          exact set_black_ok tree
  · exact ⟨s, rfl, Reshapes.refl tree⟩

/-- The replacement copies the links and the flags of the node. -/
theorem copy_place_ok {n : MnRbtNode} {a b : Addr} (parent : Ptr) (apart : a ≠ b)
    (cell : s.heap.lookup a = some n) (place : s.heap.lookup b = some k) :
    (do
      update (some b) fun x => { x with parent := parent }
      let left := (← load (some a)).left
      update (some b) fun x => { x with left := left }
      let right := (← load (some a)).right
      update (some b) fun x => { x with right := right }
      let flags := (← load (some a)).flags
      update (some b) fun x => { x with flags := flags } : RbtProg Unit) s =
        .ok ((), { s with heap := s.heap.insert b ({ k with
          parent := parent, left := n.left, right := n.right, flags := n.flags } : MnRbtNode) }) := by
  simp [run_bind, update, load, cell, place, apart, Finmap.insert_insert]

theorem replace_node_ok (tree : Holds s (plug path (.node v l r)))
    (outside : w.addr ∉ rbtLayout.addrs (plug path (.node v l r)))
    (cell : s.heap.lookup w.addr = some k) (key : k.key = w.key) :
    ∃ next, replaceNode (some v.addr) (some w.addr) s = .ok ((), next) ∧
      Holds next (plug path (.node (w.paint v.red) l r)) ∧
      Within (w.addr :: rbtLayout.addrs (plug path (.node v l r))) s next ∧
      next.heap.lookup v.addr = s.heap.lookup v.addr := by
  obtain ⟨n, ncell, parentEq, leftEq, rightEq, -, redEq⟩ := tree.focus
  obtain ⟨opened, ⟨-, left, right⟩⟩ := (rbtLayout.subtree_plug _ path _).mp tree.represents.shape
  obtain ⟨outer, inner, away⟩ := (rbtLayout.distinct_plug path _).mp tree.represents.distinct
  have distinct := inner
  simp only [rbtLayout.mem_addrs_plug, rbtLayout.addrs_node, List.mem_append, List.mem_cons,
    layout_addr, not_or] at outside away
  simp only [rbtLayout.addrs_node, List.nodup_append, List.nodup_cons, List.mem_cons,
    layout_addr] at distinct
  obtain ⟨s1, run1, opened1, root1, within1⟩ := replace_child_ok (a := v.addr) (some w.addr) opened
    outer (by grind) tree.root_eq
  have left1 : rbtLayout.Subtree s1.heap (some v.addr) l :=
    rbtLayout.subtree_frame (fun b member => within1.outside b (by grind)) left
  obtain ⟨s2, run2, left2, vars2, within2⟩ := set_parent_ok (some w.addr) left1 (by grind)
  have right2 : rbtLayout.Subtree s2.heap (some v.addr) r :=
    rbtLayout.subtree_frame (fun b member => by
      rw [within2.outside b (by grind), within1.outside b (by grind)]) right
  obtain ⟨s3, run3, right3, vars3, within3⟩ := set_parent_ok (some w.addr) right2 (by grind)
  have ncell1 : s1.heap.lookup v.addr = some n := by rw [within1.outside _ (by grind), ncell]
  have ncell2 : s2.heap.lookup v.addr = some n := by rw [within2.outside _ (by grind), ncell1]
  have ncell3 : s3.heap.lookup v.addr = some n := by rw [within3.outside _ (by grind), ncell2]
  have kcell3 : s3.heap.lookup w.addr = some k := by
    rw [within3.outside _ outside.2.2.2, within2.outside _ outside.2.1,
      within1.outside _ outside.1, cell]
  have apart : v.addr ≠ w.addr := fun same => outside.2.2.1 same.symm
  let k4 : MnRbtNode :=
    { k with parent := rbtLayout.top path, left := rbtLayout.root l, right := rbtLayout.root r,
             flags := n.flags }
  refine ⟨{ s3 with heap := s3.heap.insert w.addr k4 }, ?_, ⟨⟨?_, ?_⟩, ?_⟩, ?_, ?_⟩
  · rw [replaceNode, bind_ok (load_ok ncell), parentEq, bind_ok run1, bind_ok (load_ok ncell1),
      leftEq, bind_ok run2, bind_ok (load_ok ncell2), rightEq, bind_ok run3]
    have placed := copy_place_ok (rbtLayout.top path) apart ncell3 kcell3
    rw [leftEq, rightEq] at placed
    exact placed
  · refine (rbtLayout.subtree_plug _ path _).mpr ⟨?_, ⟨k4, Finmap.lookup_insert _, rfl, rfl, rfl,
      key, ?_⟩, ?_, ?_⟩
    · refine rbtLayout.opened_frame (fun b member => ?_) opened1
      rw [Finmap.lookup_insert_of_ne _ (by grind), within3.outside b (by grind),
        within2.outside b (by grind)]
    · exact redEq
    · refine rbtLayout.subtree_frame (fun b member => ?_) left2
      rw [Finmap.lookup_insert_of_ne _ (by grind), within3.outside b (by grind)]
    · refine rbtLayout.subtree_frame (fun b member => ?_) right3
      rw [Finmap.lookup_insert_of_ne _ (by grind)]
  · refine (rbtLayout.distinct_plug path _).mpr ⟨outer, ?_, ?_⟩
    · simp only [rbtLayout.addrs_node, List.nodup_append, List.nodup_cons, List.mem_cons, layout_addr,
        paint_addr]
      grind
    · simp only [rbtLayout.addrs_node, List.mem_append, List.mem_cons, layout_addr, paint_addr]
      grind
  · rw [vars3, vars2]
    exact root1 _ rfl
  · let nodes := w.addr :: rbtLayout.addrs (plug path (.node v l r))
    have within : ∀ b, b ∈ rbtLayout.pathAddrs path ∨ b ∈ rbtLayout.addrs l ∨
        b ∈ rbtLayout.addrs r → b ∈ nodes := by
      intro b member
      simp only [nodes, List.mem_cons, rbtLayout.mem_addrs_plug, rbtLayout.addrs_node,
        List.mem_append]
      tauto
    have step1 : Within nodes s s1 := within1.mono (fun b member => within b (by tauto))
    have step2 := step1.trans (within2.mono (fun b member => within b (by tauto)))
    have step3 := step2.trans (within3.mono (fun b member => within b (by tauto)))
    exact step3.trans (Within.insert List.mem_cons_self kcell3 rfl)
  · rw [Finmap.lookup_insert_of_ne _ apart, ncell3, ncell]

theorem replace_leaf_ok (tree : Holds s (plug path (.node v .nil .nil))) :
    ∃ next, replaceNode (some v.addr) none s = .ok ((), next) ∧ Holds next (plug path .nil) ∧
      Within (rbtLayout.addrs (plug path (.node v .nil .nil))) s next ∧
      next.heap.lookup v.addr = s.heap.lookup v.addr := by
  obtain ⟨n, cell, parentEq, leftEq, rightEq, -, -⟩ := tree.focus
  obtain ⟨-, -, away⟩ := (rbtLayout.distinct_plug path _).mp tree.represents.distinct
  obtain ⟨s1, s2, run1, run2, tree2, within2⟩ := relink_ok (a := v.addr) (u := .nil)
    tree rfl (show rbtLayout.Subtree s.heap none .nil from trivial) List.nodup_nil (by simp)
  obtain rfl : s1 = s2 := congrArg Prod.snd (Except.ok.inj run2)
  rw [rbtLayout.root_nil] at run1 leftEq rightEq
  have kept : s1.heap.lookup v.addr = s.heap.lookup v.addr := by
    refine within2.outside _ (fun member => ?_)
    rw [Layout.addrs_nil, List.append_nil] at member
    exact away _ member (by simp)
  refine ⟨s1, ?_, tree2, within2.mono ?_, kept⟩
  · rw [replaceNode, bind_ok (load_ok cell), parentEq, bind_ok run1,
      bind_ok (load_ok (kept.trans cell)), leftEq, bind_ok (a := ()) (by rfl),
      bind_ok (load_ok (kept.trans cell)), rightEq, bind_ok (a := ()) (by rfl)]
    rfl
  · intro b member
    rw [Layout.addrs_nil, List.append_nil] at member
    exact (rbtLayout.mem_addrs_plug path _ b).mpr (Or.inl member)

end Unlinking

section List

variable {s next : RbtStore} {a : Addr} {n : MnRbtNode}

/-- What taking a node out of the list does to the records and to the variables. -/
structure Unthreads (s next : RbtStore) (a : Addr) (n : MnRbtNode) : Prop where
  node : next.heap.lookup a = some { n with prev := none, next := none }
  before : ∀ b q, n.prev = some b → s.heap.lookup b = some q →
    next.heap.lookup b = some { q with next := n.next }
  after : ∀ b q, n.next = some b → s.heap.lookup b = some q →
    next.heap.lookup b = some { q with prev := n.prev }
  others : ∀ b, b ≠ a → n.prev ≠ some b → n.next ≠ some b →
    next.heap.lookup b = s.heap.lookup b
  vars_eq : next.vars = { s.vars with
    head := if n.prev = none then n.next else s.vars.head
    tail := if n.next = none then n.prev else s.vars.tail }

theorem remove_list_ok (cell : s.heap.lookup a = some n)
    (before : ∀ b, n.prev = some b → b ≠ a ∧ n.next ≠ some b ∧ ∃ q, s.heap.lookup b = some q)
    (after : ∀ b, n.next = some b → b ≠ a ∧ ∃ q, s.heap.lookup b = some q) :
    ∃ next, _rbtRemoveList (some a) s = .ok ((), next) ∧ Unthreads s next a n := by
  let bare : MnRbtNode := { n with prev := none, next := none }
  cases prev : n.prev with
  | none =>
      cases further : n.next with
      | none =>
          refine ⟨{ s with heap := s.heap.insert a bare,
                           vars := { s.vars with head := none, tail := none } }, ?_, ?_⟩
          · simp [_rbtRemoveList, run_bind, load, update, setVars, cell, prev, further,
              Finmap.insert_insert, bare]
          · refine ⟨by simp [bare], ?_, ?_, fun b other _ _ => by simp [other], ?_⟩
            · simp [prev]
            · simp [further]
            · simp [prev, further]
      | some c =>
          obtain ⟨notc, q, qcell⟩ := after c further
          refine ⟨{ s with heap := (s.heap.insert c { q with prev := none }).insert a bare,
                           vars := { s.vars with head := some c } }, ?_, ?_⟩
          · simp [_rbtRemoveList, run_bind, load, update, setVars, cell, prev, further, notc.symm,
              qcell, Finmap.insert_insert, bare]
          · refine ⟨by simp [bare], ?_, ?_, ?_, ?_⟩
            · simp [prev]
            · intro b k edge found
              obtain rfl : c = b := Option.some.inj (further.symm.trans edge)
              obtain rfl : q = k := Option.some.inj (qcell.symm.trans found)
              simp [prev, notc]
            · intro b other _ beyond
              have notb : b ≠ c := fun same => beyond (further.trans (same ▸ rfl))
              simp [other, notb]
            · simp [prev, further]
  | some b =>
      obtain ⟨notb, apart, q, qcell⟩ := before b prev
      cases further : n.next with
      | none =>
          refine ⟨{ s with heap := (s.heap.insert b { q with next := none }).insert a bare,
                           vars := { s.vars with tail := some b } }, ?_, ?_⟩
          · simp [_rbtRemoveList, run_bind, load, update, setVars, cell, prev, further, notb.symm,
              qcell, Finmap.insert_insert, bare]
          · refine ⟨by simp [bare], ?_, ?_, ?_, ?_⟩
            · intro d k edge found
              obtain rfl : b = d := Option.some.inj (prev.symm.trans edge)
              obtain rfl : q = k := Option.some.inj (qcell.symm.trans found)
              simp [further, notb]
            · simp [further]
            · intro d other beyond _
              have notd : d ≠ b := fun same => beyond (prev.trans (same ▸ rfl))
              simp [other, notd]
            · simp [prev, further]
      | some c =>
          obtain ⟨notc, r, rcell⟩ := after c further
          have distinct : b ≠ c := fun same => apart (further.trans (same ▸ rfl))
          let joined : MnRbtNode := { r with prev := some b }
          refine ⟨{ s with heap := (((s.heap.insert c joined).insert b { q with next := some c }).insert
                      c joined).insert a bare }, ?_, ?_⟩
          · simp [_rbtRemoveList, run_bind, load, update, cell, prev, further, notb.symm,
              notc.symm, distinct, distinct.symm, qcell, rcell, Finmap.insert_insert, bare, joined]
          · refine ⟨by simp [bare], ?_, ?_, ?_, ?_⟩
            · intro d k edge found
              obtain rfl : b = d := Option.some.inj (prev.symm.trans edge)
              obtain rfl : q = k := Option.some.inj (qcell.symm.trans found)
              simp [further, notb, distinct]
            · intro d k edge found
              obtain rfl : c = d := Option.some.inj (further.symm.trans edge)
              obtain rfl : r = k := Option.some.inj (rcell.symm.trans found)
              simp [prev, notc, joined]
            · intro d other before after
              have notd : d ≠ b := fun same => before (prev.trans (same ▸ rfl))
              have note : d ≠ c := fun same => after (further.trans (same ▸ rfl))
              simp [other, notd, note]
            · simp [prev, further]

theorem unthread_ok {front back : List Addr}
    (chain : rbtLinks.Chain s.heap s.vars.head s.vars.tail (front ++ a :: back))
    (cell : s.heap.lookup a = some n) :
    ∃ next, _rbtRemoveList (some a) s = .ok ((), next) ∧ Unthreads s next a n ∧
      rbtLinks.Chain next.heap next.vars.head next.vars.tail (front ++ back) := by
  have here := chain.linked front a back rfl
  rw [Links.pair_eq cell] at here
  obtain ⟨prevEq, nextEq⟩ := Prod.mk.inj (Option.some.inj here)
  have prev : n.prev = front.getLast? := prevEq
  have further : n.next = back.head? := nextEq
  have around := chain.around (by simp) cell
  have distinct := chain.distinct
  rw [List.nodup_middle, List.nodup_cons, List.mem_append, not_or, List.nodup_append] at distinct
  obtain ⟨⟨notFront, notBack⟩, -, -, apart⟩ := distinct
  obtain ⟨next, run, step⟩ := remove_list_ok cell
    (fun b edge => ⟨(around.1 b edge).2, fun again => apart b (List.mem_of_getLast? (prev ▸ edge)) b
      (List.mem_of_head? (further ▸ again)) rfl, chain.cell (around.1 b edge).1⟩)
    (fun b edge => ⟨(around.2 b edge).2, chain.cell (around.2 b edge).1⟩)
  refine ⟨next, run, step, ?_⟩
  have spliced := chain.splice next.heap front [a] [] back ?_ (by simp) ?_ ?_ ?_
  · have head : next.vars.head = (front ++ ([] ++ back)).head? := by
      rw [step.vars_eq, prev, further, chain.head_eq]
      cases front <;> simp [List.getLast?_cons]
    have tail : next.vars.tail = (front ++ ([] ++ back)).getLast? := by
      rw [step.vars_eq, prev, further, chain.tail_eq]
      cases back <;> simp [List.getLast?_cons]
    rw [← head, ← tail] at spliced
    exact spliced
  · have whole := chain.distinct
    rw [List.nodup_middle, List.nodup_cons] at whole
    exact whole.2
  · intro b l last was
    obtain ⟨q, found, rfl⟩ := pair_inv was
    rw [Links.pair_eq (step.before b q (prev.trans last) found), List.nil_append, ← further]
    rfl
  · intro b l first was
    obtain ⟨q, found, rfl⟩ := pair_inv was
    rw [Links.pair_eq (step.after b q (further.trans first) found), List.append_nil, ← prev]
    rfl
  · intro b member notLast notFirst
    rw [Links.pair, Links.pair, step.others b]
    · rintro rfl
      rcases List.mem_append.mp member with member | member
      · exact notFront member
      · exact notBack member
    · exact fun edge => notLast (prev.symm.trans edge)
    · exact fun edge => notFirst (further.symm.trans edge)

end List

section RemoveNode

variable {s : RbtStore} {path rest : RbtPath} {v : Label} {l r : RbtTree} {f : Frame Label}

theorem find_replacement_ok (tree : Holds s (plug path (.node v l r)))
    (found : Replacement path v l r f rest) :
    findReplacement (some v.addr) s =
      .ok ((some f.label.addr, rbtLayout.root f.sibling), s) := by
  have size := tree.represents.size_le
  have length := path_length_le path (.node v l r)
  simp only [BinaryTree.numNodes] at length
  have side := found.side
  have slot_eq := found.slot_eq
  have opened : Holds s (plug (f :: rest) .nil) := by
    rw [found.whole]
    exact tree
  obtain ⟨k, record⟩ := opened.represents.ancestor
  have kcell : s.heap.lookup f.label.addr = some k := record.cell
  have near : k.child f.side = none := record.near_eq
  have far : k.child f.side.opposite = rbtLayout.root f.sibling := record.far_eq
  obtain ⟨n, cell, -, leftEq, rightEq, -, -⟩ := tree.focus
  rw [findReplacement, bind_ok (load_ok cell), leftEq, rightEq]
  cases l with
  | node u below above =>
      rw [if_neg (by simp)] at side
      rw [side] at near far
      have child : Holds s (plug (⟨.left, v, r⟩ :: path) (.node u below above)) := tree
      have walk := endmost_ok .right s.bound child (by simp)
        (by simp only [BinaryTree.numNodes] at length ⊢; exact Nat.le_succ_of_le (by omega))
      rw [show slot .right (⟨.left, v, r⟩ :: path) (.node u below above) = f :: rest from slot_eq,
        ← rightmost_eq] at walk
      rw [if_pos (by simp), bind_ok (a := s.bound) (by rfl), bind_ok walk]
      refine (bind_ok (load_ok kcell) _).trans ?_
      rw [show k.right = none from near, bind_ok (a := ()) (by rfl)]
      refine (bind_ok (load_ok kcell) _).trans ?_
      rw [show k.left = rbtLayout.root f.sibling from far]
      rfl
  | nil =>
      rw [if_pos rfl] at side
      rw [side] at near far
      cases r with
      | nil => cases slot_eq
      | node u below above =>
          have child : Holds s (plug (⟨.right, v, .nil⟩ :: path) (.node u below above)) := tree
          have walk := endmost_ok .left s.bound child (by simp)
            (by simp only [BinaryTree.numNodes] at length ⊢; exact Nat.le_succ_of_le (by omega))
          rw [show slot .left (⟨.right, v, .nil⟩ :: path) (.node u below above) = f :: rest
            from slot_eq, ← leftmost_eq] at walk
          rw [if_neg (by simp), if_pos (by simp), bind_ok (a := s.bound) (by rfl), bind_ok walk]
          refine (bind_ok (load_ok kcell) _).trans ?_
          rw [show k.left = none from near, bind_ok (a := ()) (by rfl)]
          refine (bind_ok (load_ok kcell) _).trans ?_
          rw [show k.right = rbtLayout.root f.sibling from far]
          rfl

/-- The tree links once the node has left the tree. -/
structure Removed (s next : RbtStore) (path : RbtPath) (v : Label) (l r : RbtTree) : Prop where
  holds : Holds next (removeTree path v l r)
  within : Within (rbtLayout.addrs (plug path (.node v l r))) s next
  order : ∃ front back, idents (plug path (.node v l r)) = front ++ v.ident :: back ∧
    idents (removeTree path v l r) = front ++ back

theorem replacement_order (found : Replacement path v l r f rest) {t : RbtTree}
    (same : idents t = idents (plug rest f.sibling))
    (distinct : (rbtLayout.addrs (plug path (.node v l r))).Nodup) :
    ∃ front back, idents (plug path (.node v l r)) = front ++ v.ident :: back ∧
      idents (substitute v.addr f.label t) = front ++ back := by
  obtain ⟨front, back, inner, whole⟩ := found.order
  have apart : ∀ x ∈ front ++ back, x.1 ≠ v.addr := by
    intro x member here
    rw [addrs_eq] at distinct
    have repeated : x.1 ∈ (front ++ back).map Prod.fst := List.mem_map_of_mem member
    rw [here] at repeated
    rcases whole with whole | whole <;>
      simp only [whole, List.map_append, List.map_cons, List.nodup_append, List.nodup_cons,
        List.mem_cons, List.mem_append, Label.ident] at distinct repeated <;> grind
  have kept : ∀ xs : List (Addr × UInt64), (∀ x ∈ xs, x.1 ≠ v.addr) →
      xs.map (fun x => if x.1 = v.addr then f.label.ident else x) = xs := fun xs away =>
    (List.map_congr_left (fun x member => if_neg (away x member))).trans (List.map_id xs)
  have result : idents (substitute v.addr f.label t) = front ++ f.label.ident :: back := by
    rw [idents_substitute, same, inner, List.map_append, List.map_cons,
      kept front (fun x member => apart x (List.mem_append_left _ member)),
      kept back (fun x member => apart x (List.mem_append_right _ member)),
      if_pos (show v.ident.1 = v.addr from rfl)]
  rcases whole with whole | whole
  · exact ⟨front ++ [f.label.ident], back, by simpa using whole, by simpa using result⟩
  · exact ⟨front, f.label.ident :: back, whole, result⟩

theorem take_place_ok (tree : Holds s (plug path (.node v l r)))
    (found : Replacement path v l r f rest) :
    ∃ s1 s2 s3, unlinkReplacement (some f.label.addr) (rbtLayout.root f.sibling) s = .ok ((), s1) ∧
      adjustReplacement (some f.label.addr) (rbtLayout.root f.sibling) s1 = .ok ((), s2) ∧
      replaceNode (some v.addr) (some f.label.addr) s2 = .ok ((), s3) ∧
      Removed s s3 path v l r := by
  have opened : Holds s (plug (f :: rest) .nil) := by
    rw [found.whole]
    exact tree
  obtain ⟨k, record⟩ := opened.represents.ancestor
  obtain ⟨s1, run1, tree1, within1, kept1⟩ := unlink_ok opened found.deep
  obtain ⟨s2, run2, step2⟩ := adjust_replacement_ok tree1 (kept1.trans record.cell) record.holds.2
  have away : f.label.addr ∉ rbtLayout.addrs (plug rest f.sibling) := by
    obtain ⟨-, inner, apart⟩ := (rbtLayout.distinct_plug rest _).mp opened.represents.distinct
    rw [rbtLayout.nodup_addrs_attach] at inner
    rw [rbtLayout.mem_addrs_plug]
    rintro (member | member)
    · exact apart _ member ((rbtLayout.mem_addrs_attach f .nil _).mpr (Or.inl rfl))
    · exact inner.1 member
  have same_addrs : rbtLayout.addrs (fixUnlinked f.label rest f.sibling) =
      rbtLayout.addrs (plug rest f.sibling) := by
    rw [addrs_eq, addrs_eq, step2.idents_eq]
  -- The repairs may have moved the node, but it is still in the tree.
  have present : v.ident ∈ idents (fixUnlinked f.label rest f.sibling) := by
    rw [step2.idents_eq]
    exact List.mem_map_of_mem found.member
  obtain ⟨u, member, ident⟩ := List.mem_map.mp present
  obtain ⟨way, below, above, focused⟩ := (mem_inorder_iff u _).mp member
  have address : u.addr = v.addr := congrArg Prod.fst ident
  have kcell2 : s2.heap.lookup f.label.addr = some k :=
    (step2.within.outside _ away).trans (kept1.trans record.cell)
  have tree2 : Holds s2 (plug way (.node u below above)) := by
    rw [← focused]
    exact step2.holds
  obtain ⟨s3, run3, tree3, within3, -⟩ := replace_node_ok (w := f.label) tree2
    (by rw [← focused, same_addrs]; exact away) kcell2 record.holds.1
  have result : removeTree path v l r = plug way (.node (f.label.paint u.red) below above) := by
    rw [removeTree, found.slot_eq]
    change substitute v.addr f.label (fixUnlinked f.label rest f.sibling) = _
    rw [focused, ← address]
    exact substitute_focus f.label way u below above tree2.represents.distinct
  have inside : ∀ b ∈ rbtLayout.addrs (plug rest f.sibling),
      b ∈ rbtLayout.addrs (plug path (.node v l r)) := by
    intro b member
    rw [← found.whole, rbtLayout.mem_addrs_cons]
    rw [rbtLayout.mem_addrs_plug] at member
    tauto
  refine ⟨s1, s2, s3, run1, run2, ?_, ⟨?_, ?_, ?_⟩⟩
  · rw [← address]
    exact run3
  · rw [result]
    exact tree3
  · rw [found.whole] at within1
    refine within1.trans ((step2.within.mono inside).trans (within3.mono ?_))
    intro b member
    rcases List.mem_cons.mp member with rfl | member
    · rw [← found.whole, rbtLayout.mem_addrs_cons]
      exact Or.inr (Or.inl rfl)
    · rw [← focused, same_addrs] at member
      exact inside b member
  · have order := replacement_order found step2.idents_eq tree.represents.distinct
    rw [removeTree, found.slot_eq]
    exact order

/-- The end of the removal: the list, and the links of the node itself. -/
theorem detach_ok {t : RbtTree} {a : Addr} {n : MnRbtNode} {front back : List Addr}
    (chain : rbtLinks.Chain s.heap s.vars.head s.vars.tail (front ++ a :: back)) (tree : Holds s t)
    (away : a ∉ rbtLayout.addrs t) (cell : s.heap.lookup a = some n) :
    ∃ next, (do
        _rbtRemoveList (some a)
        update (some a) fun x => { x with parent := none }
        update (some a) fun x => { x with left := none }
        update (some a) fun x => { x with right := none }
        setVars fun t => { t with nelem := t.nelem - 1 }
        return 0 : RbtProg Int) s = .ok (0, next) ∧
      Holds next t ∧
      rbtLinks.Chain next.heap next.vars.head next.vars.tail (front ++ back) ∧
      next.vars.nelem = s.vars.nelem - 1 ∧
      (∃ m, next.heap.lookup a = some m ∧ m.Unlinked ∧ m.key = n.key) ∧
      ∀ b, b ∉ front ++ a :: back → next.heap.lookup b = s.heap.lookup b := by
  obtain ⟨s1, run1, step, chain1⟩ := unthread_ok chain cell
  let bare : MnRbtNode :=
    { n with parent := none, left := none, right := none, prev := none, next := none }
  have apart : a ∉ front ++ back := by
    have distinct := chain.distinct
    rw [List.nodup_middle, List.nodup_cons] at distinct
    exact distinct.1
  have around := chain.around (by simp) cell
  have similar : ∀ b, b ≠ a → ∀ q, s.heap.lookup b = some q → ∃ m, s1.heap.lookup b = some m ∧
      m.parent = q.parent ∧ (∀ side, m.child side = q.child side) ∧
      ∀ v, rbtLayout.holds v q → rbtLayout.holds v m := by
    intro b other q found
    by_cases before : n.prev = some b
    · exact ⟨_, step.before b q before found, rfl, by rintro ⟨⟩ <;> rfl, fun _ same => same⟩
    by_cases after : n.next = some b
    · exact ⟨_, step.after b q after found, rfl, by rintro ⟨⟩ <;> rfl, fun _ same => same⟩
    · exact ⟨q, (step.others b other before after).trans found, rfl, fun _ => rfl, fun _ same => same⟩
  refine ⟨{ s1 with heap := s1.heap.insert a bare,
                    vars := { s1.vars with nelem := s1.vars.nelem - 1 } },
    ?_, ⟨?_, ?_⟩, ?_, ?_, ⟨bare, Finmap.lookup_insert _, ⟨rfl, rfl, rfl, rfl, rfl⟩, rfl⟩, ?_⟩
  · rw [bind_ok run1]
    simp [run_bind, update, step.node, Finmap.insert_insert, bare]
    rfl
  · refine Layout.Represents.touch tree.represents ?_
    intro b member q found
    have other : b ≠ a := fun same => away (same ▸ member)
    rw [Finmap.lookup_insert_of_ne _ other]
    exact similar b other q found
  · rw [step.vars_eq]
    exact tree.root_eq
  · refine chain1.frame (fun b member => ?_)
    have other : b ≠ a := fun same => apart (same ▸ member)
    rw [Links.pair, Links.pair, Finmap.lookup_insert_of_ne _ other]
  · rw [step.vars_eq]
  · intro b outside
    have other : b ≠ a := fun same => outside (by simp [same])
    rw [Finmap.lookup_insert_of_ne _ other, step.others b other (fun edge => outside (around.1 b edge).1)
      (fun edge => outside (around.2 b edge).1)]

theorem remove_leaf_ok (tree : Holds s (plug path (.node v .nil .nil))) :
    ∃ next, unlinkReplacement none none s = .ok ((), s) ∧
      adjustReplacement none none s = .ok ((), s) ∧
      replaceNode (some v.addr) none s = .ok ((), next) ∧ Removed s next path v .nil .nil := by
  obtain ⟨next, run, tree1, within, -⟩ := replace_leaf_ok tree
  refine ⟨next, rfl, rfl, run, tree1, within, (before path).map Label.ident,
    (after path).map Label.ident, ?_, ?_⟩
  · simp [idents, inorder_plug]
  · change idents (plug path .nil) = _
    simp [idents, inorder_plug]

/-- The tree part of the removal, whatever takes the place of the node. -/
theorem leave_tree_ok (tree : Holds s (plug path (.node v l r))) :
    ∃ repl child s1 s2 s3, findReplacement (some v.addr) s = .ok ((repl, child), s) ∧
      unlinkReplacement repl child s = .ok ((), s1) ∧ adjustReplacement repl child s1 = .ok ((), s2) ∧
      replaceNode (some v.addr) repl s2 = .ok ((), s3) ∧ Removed s s3 path v l r := by
  have inner : ∀ f rest, Replacement path v l r f rest →
      ∃ repl child s1 s2 s3, findReplacement (some v.addr) s = .ok ((repl, child), s) ∧
        unlinkReplacement repl child s = .ok ((), s1) ∧
        adjustReplacement repl child s1 = .ok ((), s2) ∧
        replaceNode (some v.addr) repl s2 = .ok ((), s3) ∧ Removed s s3 path v l r := by
    intro f rest found
    obtain ⟨s1, s2, s3, run1, run2, run3, removed⟩ := take_place_ok tree found
    exact ⟨_, _, s1, s2, s3, find_replacement_ok tree found, run1, run2, run3, removed⟩
  by_cases left : l = .nil
  · subst left
    by_cases right : r = .nil
    · subst right
      obtain ⟨next, run1, run2, run3, removed⟩ := remove_leaf_ok tree
      obtain ⟨n, cell, -, leftEq, rightEq, -, -⟩ := tree.focus
      refine ⟨none, none, s, s, next, ?_, run1, run2, run3, removed⟩
      rw [findReplacement, bind_ok (load_ok cell), leftEq, rightEq]
      rfl
    · obtain ⟨f, rest, found⟩ := replacement_of_right path v r right
      exact inner f rest found
  · obtain ⟨f, rest, found⟩ := replacement_of_left path v l r left
    exact inner f rest found

theorem remove_node_ok (valid : Valid s (plug path (.node v l r))) :
    ∃ next, rbtRemoveNode (some v.addr) s = .ok (0, next) ∧ Valid next (removeTree path v l r) ∧
      (∃ front back, idents (plug path (.node v l r)) = front ++ v.ident :: back ∧
        idents (removeTree path v l r) = front ++ back) ∧
      (∃ m, next.heap.lookup v.addr = some m ∧ m.Unlinked ∧ m.key = v.key) ∧
      ∀ b, b ∉ rbtLayout.addrs (plug path (.node v l r)) →
        next.heap.lookup b = s.heap.lookup b := by
  obtain ⟨repl, child, s1, s2, s3, found, run1, run2, run3, removed⟩ := leave_tree_ok valid.holds
  obtain ⟨front, back, whole, rest⟩ := removed.order
  have order : rbtLayout.addrs (plug path (.node v l r)) =
      front.map Prod.fst ++ v.addr :: back.map Prod.fst := by
    rw [addrs_eq, whole]
    simp [Label.ident]
  have remaining : rbtLayout.addrs (removeTree path v l r) =
      front.map Prod.fst ++ back.map Prod.fst := by
    rw [addrs_eq, rest, List.map_append]
  obtain ⟨n, cell, -, -, -, key, -⟩ := valid.holds.focus
  have threaded := removed.within.threaded v.addr
  rw [cell, Option.map_some, Option.map_eq_some_iff] at threaded
  obtain ⟨n3, cell3, same⟩ := threaded
  have key3 : n3.key = v.key := by
    simp only [MnRbtNode.threaded, Prod.mk.injEq] at same
    rw [same.2.2.1, key]
  have chain3 : rbtLinks.Chain s3.heap s3.vars.head s3.vars.tail
      (front.map Prod.fst ++ v.addr :: back.map Prod.fst) := by
    rw [← order, removed.within.head_eq, removed.within.tail_eq]
    exact valid.chain.frame (fun b _ => pair_of_threaded (removed.within.threaded b))
  have away : v.addr ∉ rbtLayout.addrs (removeTree path v l r) := by
    have distinct := chain3.distinct
    rw [List.nodup_middle, List.nodup_cons, ← remaining] at distinct
    exact distinct.1
  obtain ⟨next, run4, holds, chain, nelem, detached, others⟩ :=
    detach_ok chain3 removed.holds away cell3
  refine ⟨next, ?_, ⟨holds, ?_, ?_, ?_⟩, ⟨front, back, whole, rest⟩, ?_, ?_⟩
  · rw [rbtRemoveNode, bind_ok found]
    exact (bind_ok run1 _).trans ((bind_ok run2 _).trans ((bind_ok run3 _).trans run4))
  · have ordered := valid.ordered
    rw [ordered_iff] at ordered ⊢
    rw [whole] at ordered
    rw [rest]
    exact ordered.sublist (List.Sublist.append_left (List.sublist_cons_self _ _) front)
  · rw [remaining]
    exact chain
  · rw [nelem, removed.within.nelem_eq, valid.nelem_eq, ← idents_length, ← idents_length, whole, rest]
    simp
  · obtain ⟨m, found, unlinked, same⟩ := detached
    exact ⟨m, found, unlinked, same.trans key3⟩
  · intro b outside
    rw [others b (order ▸ outside), removed.within.outside b outside]

end RemoveNode

end MnCommon.Rbt
