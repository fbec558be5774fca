import MnCommon.Rbt.Map
import MnCommon.Trees.RedBlack

/-! When an insertion keeps the red-black balance. -/

namespace MnCommon.Rbt

open Memory Trees

/-- Climbing from an open position two levels at a time, as long as the parent
and the uncle are red, does not end at an inner grandchild. -/
def climbsOutside : RbtPath → Bool
  | [] => true
  | [_] => true
  | f :: g :: path =>
      if f.label.red = false then true
      else if rootRed g.sibling then climbsOutside path
      else f.side = g.side

abbrev RbtBalanced : RbtTree → Prop := RedBlack Label.red

theorem rootRed_eq (t : RbtTree) : rootRed t = rootIsRed Label.red t := by
  cases t <;> rfl

theorem weight_red {v : Label} (red : v.red = true) : weight Label.red v = 0 := if_pos red

theorem weight_black {v : Label} (black : v.red = false) : weight Label.red v = 1 := by
  rw [weight, if_neg (by simp [black])]

theorem balanced_paintRoot {t : RbtTree} {n : Nat} (balanced : Balanced Label.red t true n) :
    Balanced Label.red (paintRoot false t) false (n + 1) := by
  cases t with
  | nil => cases balanced.root
  | node v l r =>
      obtain ⟨m, below, above, rfl⟩ := (blackHeight_node v l r n).mp balanced.even
      rw [weight_red balanced.root]
      exact ⟨rfl, ⟨(fun red => by cases red), balanced.apart.2⟩,
        (blackHeight_node _ l r _).mpr ⟨m, below, above, rfl⟩⟩

section Fixup

variable {f g : Frame Label} {path : RbtPath} {x : RbtTree} {n : Nat}

/-- Case 3 moves the red node up. -/
theorem balanced_recoloured (balanced : Balanced Label.red x true n)
    (hole : Hole Label.red (f :: g :: path) false n) (red : f.label.red = true)
    (uncle : rootRed g.sibling = true) :
    Balanced Label.red (({ repaint g true with sibling := paintRoot false g.sibling } :
        Frame Label).attach ((repaint f false).attach x)) true (n + 1) ∧
      Hole Label.red path false (n + 1) := by
  obtain ⟨colours, beside, level, outer, beyond, height, rest⟩ := hole
  rw [weight_red red, Nat.add_zero] at height rest
  have black : g.label.red = false := by
    cases here : g.label.red
    · rfl
    · simpa [red] using (outer here).1
  rw [weight_black black, black] at rest
  have sibling : Balanced Label.red g.sibling true n :=
    ⟨(rootRed_eq _).symm.trans uncle, beyond, height⟩
  have painted := balanced_paintRoot sibling
  refine ⟨(balanced_attach _ _ _ _).mpr ⟨rfl, false, n + 1, ?_, fun _ => ⟨rfl, painted.root⟩,
    painted.apart, painted.even, rfl⟩, rest⟩
  exact (balanced_attach _ _ _ _).mpr ⟨rfl, true, n, balanced, (fun same => by cases same), beside,
    level, rfl⟩

/-- Case 5 with the parent and the grandparent on one side ends the repair. -/
theorem balanced_fixCase5 (balanced : Balanced Label.red x true n)
    (hole : Hole Label.red (f :: g :: path) false n) (red : f.label.red = true)
    (uncle : rootRed g.sibling = false) (same : f.side = g.side) :
    RbtBalanced (fixCase5 f g path x) := by
  obtain ⟨colours, beside, level, outer, beyond, height, rest⟩ := hole
  rw [weight_red red, Nat.add_zero] at height rest
  have black : g.label.red = false := by
    cases here : g.label.red
    · rfl
    · simpa [red] using (outer here).1
  rw [weight_black black, black] at rest
  rw [rootRed_eq] at uncle
  have sunk : Balanced Label.red ((repaint g true).attach f.sibling) true n :=
    (balanced_attach _ _ _ _).mpr ⟨rfl, false, n, ⟨(colours red).2, beside, level⟩,
      fun _ => ⟨rfl, uncle⟩, beyond, height, rfl⟩
  rw [fixCase5, if_pos same]
  exact (redBlack_plug _ _).mpr ⟨true, n, balanced, (fun same => by cases same), sunk.apart, sunk.even,
    rest⟩

theorem not_noRedRed_raise {v : Label} {l r : RbtTree} (top : v.red = true)
    (red : f.label.red = true) : ¬NoRedRed Label.red (raise f (.node v l r)) := by
  obtain ⟨side, w, sibling⟩ := f
  cases side
  · exact fun apart => by simpa [rootIsRed, show w.red = true from red] using (apart.1 top).2
  · exact fun apart => by simpa [rootIsRed, show w.red = true from red] using (apart.1 top).1

/-- Case 4 leaves a red node below a red one. -/
theorem not_balanced_fixCase4 {y : RbtTree} (clash : ¬NoRedRed Label.red y) :
    ¬RbtBalanced (fixCase4 g path y) := by
  intro whole
  cases path with
  | nil => exact clash (noRedRed_of_plug [g] y whole)
  | cons h path =>
      rw [fixCase4, fixCase5] at whole
      split at whole
      · exact clash (noRedRed_of_plug _ y whole)
      · exact clash (noRedRed_of_plug _ y whole)

theorem balanced_fixInsert_iff (path : RbtPath) (x : RbtTree) (n : Nat)
    (balanced : Balanced Label.red x true n) (hole : Hole Label.red path false n) :
    RbtBalanced (fixInsert path x) ↔ climbsOutside path = true := by
  induction path, x using fixInsert.induct generalizing n with
  | case1 x =>
      have painted := balanced_paintRoot balanced
      exact iff_of_true ((redBlack_iff _).mpr ⟨_, painted⟩) rfl
  | case2 f x =>
      have black : f.label.red = false := hole.2.2.2
      refine iff_of_true ((redBlack_plug [f] x).mpr ⟨true, n, balanced, ?_⟩) rfl
      exact ⟨fun red => by simp [black] at red, hole.2⟩
  | case3 f g path x black =>
      rw [fixInsert, if_pos black]
      refine iff_of_true ((redBlack_plug _ x).mpr ⟨true, n, balanced, ?_⟩) (if_pos black)
      exact ⟨fun red => by simp [black] at red, hole.2⟩
  | case4 f g path x red uncle ih =>
      obtain ⟨risen, above⟩ := balanced_recoloured balanced hole (by simpa using red) uncle
      rw [fixInsert, if_neg red, if_pos uncle, climbsOutside, if_neg red, if_pos uncle]
      exact ih _ risen above
  | case5 f g path x red uncle same =>
      rw [fixInsert, if_neg red, if_neg uncle, if_pos same, climbsOutside, if_neg red, if_neg uncle]
      exact iff_of_true (balanced_fixCase5 balanced hole (by simpa using red) (by simpa using uncle)
        same) (by simpa using same)
  | case6 f g path x red uncle other =>
      rw [fixInsert, if_neg red, if_neg uncle, if_neg other, climbsOutside, if_neg red, if_neg uncle]
      refine iff_of_false ?_ (by simpa using other)
      cases x with
      | nil => cases balanced.root
      | node v l r =>
          exact not_balanced_fixCase4 (not_noRedRed_raise balanced.root (by simpa using red))

end Fixup

/-- The tree that is in the store. -/
def rbtTree (s : RbtStore) : RbtTree :=
  rbtLayout.read (fun a n => ⟨a, n.key, n.isRed⟩) s.heap s.bound s.vars.root

theorem Holds.rbtTree_eq {s : RbtStore} {t : RbtTree} (tree : Holds s t) : rbtTree s = t := by
  rw [rbtTree, tree.root_eq]
  refine rbtLayout.read_subtree _ ?_ tree.represents.shape _
    (Nat.le_succ_of_le tree.represents.size_le)
  rintro ⟨a, key, red⟩ n ⟨rfl, rfl⟩
  rfl

/-- The open position the node goes to is the end of a good climb. -/
def insertFits (s : RbtStore) (a : Addr) : Bool :=
  match s.heap.lookup a with
  | none => true
  | some n =>
      match descend (Label.cut n.key) [] (rbtTree s) with
      | (path, .nil) => climbsOutside path
      | (_, .node _ _ _) => true

theorem insert_balanced_iff {s : RbtStore} {t : RbtTree} {a : Addr} {n : MnRbtNode}
    (valid : Valid s t) (balanced : RbtBalanced t) (cell : s.heap.lookup a = some n)
    (unlinked : n.Unlinked) (fresh : a ∉ rbtLayout.addrs t) :
    ∃ answer next, rbtInsert (some a) s = .ok (answer, next) ∧
      (RbtBalanced (rbtTree next) ↔ insertFits s a = true) := by
  have tree := valid.holds.rbtTree_eq
  rw [insertFits, cell]
  simp only [tree]
  cases shape : (descend (Label.cut n.key) [] t).2 with
  | node w l r =>
      refine ⟨_, s, insert_found_ok valid cell shape, ?_⟩
      rw [← Prod.mk.eta (p := descend _ _ _), shape, tree]
      exact iff_of_true balanced rfl
  | nil =>
      obtain ⟨res, next, run, -, after, -⟩ := insert_new_ok valid cell unlinked fresh shape
      refine ⟨_, next, run, ?_⟩
      have whole := plug_descend (Label.cut n.key) [] t
      rw [shape, plug_nil] at whole
      rw [← whole] at balanced
      obtain ⟨colour, height, bare, hole⟩ := (redBlack_plug _ _).mp balanced
      obtain ⟨rfl, rfl⟩ := (balanced_nil _ _).mp bare
      rw [← Prod.mk.eta (p := descend _ _ _), shape, after.holds.rbtTree_eq]
      exact balanced_fixInsert_iff _ _ 0 ⟨rfl, ⟨fun _ => ⟨rfl, rfl⟩, trivial, trivial⟩, rfl⟩ hole

def Op.Builds : Op → Prop
  | .nodeInit _ _ _ => True
  | .insert _ => True
  | _ => False

instance : (op : Op) → Decidable op.Builds
  | .nodeInit .. => isTrue trivial
  | .insert _ => isTrue trivial
  | .removeNode _ => isFalse id
  | .removeKey _ => isFalse id
  | .find _ => isFalse id

def Op.Fits (s : RbtStore) : Op → Prop
  | .insert node => insertFits s node = true
  | _ => True

instance (s : RbtStore) : (op : Op) → Decidable (op.Fits s)
  | .insert node => inferInstanceAs (Decidable (insertFits s node = true))
  | .nodeInit .. => isTrue trivial
  | .removeNode _ => isTrue trivial
  | .removeKey _ => isTrue trivial
  | .find _ => isTrue trivial

/-- Every insertion of the run meets a tree that it fits. -/
def FitsAll : RbtStore → List Op → Prop
  | _, [] => True
  | s, op :: ops => op.Fits s ∧
      match exec op s with
      | .ok (_, next) => FitsAll next ops
      | .error _ => True

instance decideFitsAll : (s : RbtStore) → (ops : List Op) → Decidable (FitsAll s ops)
  | _, [] => inferInstanceAs (Decidable True)
  | s, op :: ops =>
      have : Decidable (match exec op s with
          | .ok (_, next) => FitsAll next ops
          | .error _ => True) :=
        match exec op s with
        | .ok (_, next) => decideFitsAll next ops
        | .error _ => inferInstanceAs (Decidable True)
      inferInstanceAs (Decidable (_ ∧ _))

theorem build_step {s : RbtStore} {t : RbtTree} {c : Client} (tracks : Tracks s t c)
    (balanced : RbtBalanced t) (op : Op) (admitted : c.Admits op) (builds : op.Builds)
    (fits : op.Fits s) :
    ∃ next u, exec op s = .ok ((), next) ∧ Tracks next u (c.step op) ∧ RbtBalanced u := by
  cases op with
  | nodeInit node key data =>
      obtain ⟨next, run, tracks⟩ := node_init_step tracks node key data admitted
      exact ⟨next, t, run, tracks, balanced⟩
  | insert node =>
      obtain ⟨answer, next, u, run, after⟩ := insert_step tracks node admitted
      obtain ⟨key, same⟩ := Option.isSome_iff_exists.mp admitted.2
      obtain ⟨n, cell, unlinked, -⟩ := tracks.idle node key admitted.1 same
      obtain ⟨_, next', run', kept⟩ := insert_balanced_iff tracks.valid balanced cell unlinked
        (fun member => admitted.1 ((tracks.mem_addrs node).mp member))
      obtain ⟨-, rfl⟩ := Prod.mk.inj (Except.ok.inj (run.symm.trans run'))
      have final := kept.mpr fits
      rw [after.valid.holds.rbtTree_eq] at final
      exact ⟨next, u, bind_ok run _, after, final⟩
  | removeNode node => exact absurd builds id
  | removeKey key => exact absurd builds id
  | find key => exact absurd builds id

theorem build_run {s : RbtStore} {t : RbtTree} {c : Client} (ops : List Op) (tracks : Tracks s t c)
    (balanced : RbtBalanced t) (admitted : c.AdmitsAll ops) (builds : ∀ op ∈ ops, op.Builds)
    (fits : FitsAll s ops) :
    ∃ next, execAll ops s = .ok ((), next) ∧ RbtBalanced (rbtTree next) := by
  induction ops generalizing s t c with
  | nil => exact ⟨s, rfl, tracks.valid.holds.rbtTree_eq.symm ▸ balanced⟩
  | cons op ops ih =>
      obtain ⟨middle, u, first, tracks, balanced⟩ :=
        build_step tracks balanced op admitted.1 (builds op List.mem_cons_self) fits.1
      have later := fits.2
      rw [first] at later
      obtain ⟨next, rest, final⟩ := ih tracks balanced admitted.2
        (fun op member => builds op (List.mem_cons_of_mem _ member)) later
      exact ⟨next, (bind_ok first _).trans rest, final⟩

/-- An insertion into a balanced tree leaves a balanced tree exactly when it
fits, and so every tree built by insertions that fit is balanced. -/
theorem insertions_balanced (s : RbtStore) :
    (∀ (t : RbtTree) (a : Addr) (n : MnRbtNode), Valid s t → RbtBalanced t →
      s.heap.lookup a = some n → n.Unlinked → a ∉ rbtLayout.addrs t →
      ∃ answer next, rbtInsert (some a) s = .ok (answer, next) ∧
        (RbtBalanced (rbtTree next) ↔ insertFits s a = true)) ∧
    ∀ (start : RbtStore) (ops : List Op), rbtInit s = .ok ((), start) →
      Client.fresh.AdmitsAll ops → (∀ op ∈ ops, op.Builds) → FitsAll start ops →
      ∃ next, execAll ops start = .ok ((), next) ∧ RbtBalanced (rbtTree next) := by
  constructor
  · intro t a n valid balanced cell unlinked fresh
    exact insert_balanced_iff valid balanced cell unlinked fresh
  · intro start ops init admitted builds fits
    obtain ⟨first, run, tracks⟩ := init_tracks s
    obtain ⟨-, rfl⟩ := Prod.mk.inj (Except.ok.inj (init.symm.trans run))
    exact build_run ops tracks ⟨rfl, trivial, rfl⟩ admitted builds fits

def bareStore : RbtStore := ⟨∅, ⟨none, none, none, 0⟩, 0⟩

/-- A balanced run, and a single insertion into the empty tree. -/
def outerOps : List Op :=
  [.nodeInit 1 10 none, .insert 1, .nodeInit 2 5 none, .insert 2, .nodeInit 3 2 none, .insert 3,
    .nodeInit 4 20 none, .insert 4, .nodeInit 5 10 none, .insert 5]

def freshNode : MnRbtNode := ⟨none, none, none, none, none, 0, 7, none⟩

def oneNode : RbtStore := { bareStore with heap := bareStore.heap.insert 1 freshNode }

theorem outerOps_balanced :
    (∃ answer next, rbtInsert (some 1) oneNode = .ok (answer, next) ∧
      (RbtBalanced (rbtTree next) ↔ insertFits oneNode 1 = true)) ∧
    ∃ next, execAll outerOps bareStore = .ok ((), next) ∧ RbtBalanced (rbtTree next) :=
  ⟨(insertions_balanced oneNode).1 .nil 1 freshNode
      ⟨⟨Layout.Represents.empty _, rfl⟩, List.Pairwise.nil, Links.Chain.empty _, rfl⟩
      ⟨rfl, trivial, rfl⟩ (Finmap.lookup_insert _) ⟨rfl, rfl, rfl, rfl, rfl⟩ (by decide),
    (insertions_balanced bareStore).2 bareStore outerOps rfl (by decide) (by decide)
      (by decide +kernel)⟩

def treeAfter (ops : List Op) : Option RbtTree :=
  match (do rbtInit; execAll ops) bareStore with
  | .ok (_, s) => some (rbtTree s)
  | .error _ => none

/-- The keys 10, 5 and 7: the third insertion leaves 5 red below 7 red. -/
def innerOps : List Op :=
  [.nodeInit 1 10 none, .insert 1, .nodeInit 2 5 none, .insert 2, .nodeInit 3 7 none, .insert 3]

theorem innerOps_unbalanced :
    Client.fresh.AdmitsAll innerOps ∧ (∀ op ∈ innerOps, op.Builds) ∧
      (treeAfter (innerOps.take 5)).any (fun t => decide (RbtBalanced t)) = true ∧
      (treeAfter innerOps).any (fun t => decide (¬RbtBalanced t)) = true := by
  decide +kernel

end MnCommon.Rbt
