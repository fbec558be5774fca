import MnCommon.Rbt.InsertBalance

/-! When a removal keeps the red-black balance. -/

namespace MnCommon.Rbt

open Memory Trees

/-- The node that leaves its place (the node itself if it is a leaf, else its
replacement) is red, or has a red child to take its place, or is the only node. -/
def unlinksRed (path : RbtPath) (v : Label) (l r : RbtTree) : Bool :=
  match replacementSlot path v l r with
  | [] => v.red || path.isEmpty
  | f :: _ => f.label.red || rootRed f.sibling

section Balance

variable {path rest : RbtPath} {f : Frame Label} {v : Label} {l r : RbtTree}

theorem balanced_substitute (a : Addr) (w : Label) (t : RbtTree) :
    RbtBalanced (substitute a w t) ↔ RbtBalanced t := by
  refine redBlack_map _ (fun v => ?_) t
  split <;> rfl

/-- Below an ancestor only a subtree of the old height restores the balance. -/
theorem not_balanced_nil (deep : rest ≠ []) {colour : Bool} {n : Nat} (positive : n ≠ 0)
    (hole : Hole Label.red rest colour n) : ¬RbtBalanced (plug rest .nil) := by
  intro whole
  obtain ⟨_, _, bare, again⟩ := (redBlack_plug _ _).mp whole
  obtain ⟨rfl, rfl⟩ := (balanced_nil _ _).mp bare
  obtain ⟨g, rest, rfl⟩ := List.exists_cons_of_ne_nil deep
  exact positive (hole.height_unique again)

theorem balanced_leaf_iff (balanced : RbtBalanced (plug path (.node v .nil .nil))) :
    RbtBalanced (plug path .nil) ↔ (v.red || path.isEmpty) = true := by
  obtain ⟨colour, n, ⟨root, -, even⟩, hole⟩ := (redBlack_plug _ _).mp balanced
  obtain rfl : v.red = colour := root
  obtain ⟨m, height, -, rfl⟩ := (blackHeight_node v .nil .nil n).mp even
  obtain rfl : 0 = m := Option.some.inj height
  cases red : v.red
  · rw [weight_black red] at hole
    cases path with
    | nil => exact iff_of_true ⟨rfl, trivial, rfl⟩ rfl
    | cons g path => exact iff_of_false (not_balanced_nil (by simp) (by simp) hole) (by simp)
  · rw [weight_red red] at hole
    exact iff_of_true ((redBlack_plug _ _).mpr ⟨false, 0, (balanced_nil _ _).mpr ⟨rfl, rfl⟩,
      hole.black⟩) rfl

theorem balanced_fixUnlinked_iff (balanced : RbtBalanced (plug (f :: rest) .nil))
    (deep : rest ≠ []) :
    RbtBalanced (fixUnlinked f.label rest f.sibling) ↔
      (f.label.red || rootRed f.sibling) = true := by
  obtain ⟨_, _, bare, colours, beside, level, hole⟩ := (redBlack_plug _ _).mp balanced
  obtain ⟨rfl, rfl⟩ := (balanced_nil _ _).mp bare
  rw [fixUnlinked]
  cases red : f.label.red
  · rw [weight_black red] at hole
    cases child : rootRed f.sibling
    · have empty : f.sibling = .nil :=
        eq_nil_of_balanced ⟨(rootRed_eq _).symm.trans child, beside, level⟩
      rw [empty]
      exact iff_of_false (not_balanced_nil deep (by simp) hole) (by simp)
    · have painted := balanced_paintRoot ⟨(rootRed_eq _).symm.trans child, beside, level⟩
      rw [red] at hole
      exact iff_of_true ((redBlack_plug _ _).mpr ⟨_, _, painted, hole⟩) rfl
  · rw [weight_red red] at hole
    exact iff_of_true ((redBlack_plug _ _).mpr ⟨false, 0, ⟨(colours red).2, beside, level⟩,
      hole.black⟩) rfl

theorem balanced_removeTree_iff (balanced : RbtBalanced (plug path (.node v l r))) :
    RbtBalanced (removeTree path v l r) ↔ unlinksRed path v l r = true := by
  have inner : ∀ f rest, Replacement path v l r f rest →
      (RbtBalanced (removeTree path v l r) ↔ unlinksRed path v l r = true) := by
    intro f rest found
    rw [removeTree, unlinksRed, found.slot_eq]
    exact (balanced_substitute _ _ _).trans
      (balanced_fixUnlinked_iff (found.whole.symm ▸ balanced) found.deep)
  by_cases left : l = .nil
  · subst left
    by_cases right : r = .nil
    · subst right
      exact balanced_leaf_iff balanced
    · obtain ⟨f, rest, found⟩ := replacement_of_right path v r right
      exact inner f rest found
  · obtain ⟨f, rest, found⟩ := replacement_of_left path v l r left
    exact inner f rest found

end Balance

/-- The removal of a node, read off the tree that is in the store. -/
def removalFits (s : RbtStore) (a : Addr) : Bool :=
  match s.heap.lookup a with
  | none => true
  | some n =>
      match descend (Label.cut n.key) [] (rbtTree s) with
      | (_, .nil) => true
      | (path, .node v l r) => unlinksRed path v l r

/-- A removal from a balanced tree leaves a balanced tree exactly when the node
that leaves its place is red, has a red child, or was the only one. -/
theorem removal_balanced (s : RbtStore) (t : RbtTree) (a : Addr) (valid : Valid s t)
    (balanced : RbtBalanced t) (member : a ∈ rbtLayout.addrs t) :
    ∃ next, rbtRemoveNode (some a) s = .ok (0, next) ∧
      (RbtBalanced (rbtTree next) ↔ removalFits s a = true) := by
  obtain ⟨v, inside, rfl⟩ := List.mem_map.mp member
  obtain ⟨l, r, shape⟩ := (descend_iff (cut_respects v.key) valid.ordered v).mpr
    ⟨inside, (cut_eq v.key v).mpr rfl⟩
  have whole := plug_descend (Label.cut v.key) [] t
  rw [shape, plug_nil] at whole
  have tree := valid.holds.rbtTree_eq
  generalize found : (descend (Label.cut v.key) [] t).1 = path at whole
  rw [← whole] at valid balanced
  obtain ⟨next, run, after, -⟩ := remove_node_ok valid
  obtain ⟨n, cell, -, -, -, key, -⟩ := valid.holds.focus
  refine ⟨next, run, ?_⟩
  rw [after.holds.rbtTree_eq, balanced_removeTree_iff balanced, removalFits]
  simp only [layout_addr, cell, key, tree]
  rw [← Prod.mk.eta (p := descend _ _ _), shape, found]

/-- The keys 10, 5, 20 and 3, and then 20 again: a black leaf. -/
def blackLeafOps : List Op :=
  [.nodeInit 1 10 none, .insert 1, .nodeInit 2 5 none, .insert 2, .nodeInit 3 20 none, .insert 3,
    .nodeInit 4 3 none, .insert 4, .removeNode 3]

theorem blackLeafOps_removal :
    ∃ s next, execAll (blackLeafOps.take 8) bareStore = .ok ((), s) ∧
      rbtRemoveNode (some 3) s = .ok (0, next) ∧
      (RbtBalanced (rbtTree next) ↔ removalFits s 3 = true) := by
  obtain ⟨start, first, tracks⟩ := init_tracks bareStore
  obtain ⟨-, rfl⟩ : () = () ∧ bareStore = start := Prod.mk.inj (Except.ok.inj first)
  have admitted : Client.fresh.AdmitsAll (blackLeafOps.take 8) := by decide
  obtain ⟨s, t, run, after⟩ := exec_all_tracks _ tracks admitted
  obtain ⟨s', run', balanced⟩ := build_run _ tracks ⟨rfl, trivial, rfl⟩ admitted (by decide)
    (by decide +kernel)
  obtain ⟨-, rfl⟩ := Prod.mk.inj (Except.ok.inj (run.symm.trans run'))
  rw [after.valid.holds.rbtTree_eq] at balanced
  obtain ⟨next, removed, kept⟩ := removal_balanced s t 3 after.valid balanced
    ((after.mem_addrs 3).mpr (by decide))
  exact ⟨s, next, run, removed, kept⟩

theorem blackLeafOps_unbalanced :
    Client.fresh.AdmitsAll blackLeafOps ∧
      (treeAfter (blackLeafOps.take 8)).any (fun t => decide (RbtBalanced t)) = true ∧
      (treeAfter blackLeafOps).any (fun t => decide (¬RbtBalanced t)) = true := by
  decide +kernel

end MnCommon.Rbt
