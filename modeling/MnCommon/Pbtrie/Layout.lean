import MnCommon.Memory.LinkedTree
import MnCommon.Pbtrie.Masks

/-! A trie on the heap, and the walk of `pbtrie_node_find_at` through it. -/

namespace MnCommon.Pbtrie

open Memory Trees Tries Prefix

/-- The address of a node and the prefix that it bears. -/
abbrev Label := Addr × Prefix

/-- The mask and the prefix of a node are those of its label. -/
structure Bears (p : Prefix) (n : MnPbtrieNode) : Prop where
  fits : p.free ≤ 64
  xmask_eq : n.xmask = mask p.free
  prefix_eq : n.keyPrefix.toNat = p.bits * 2 ^ p.free

def pbtrieLayout : Layout MnPbtrieNode Label where
  parent := MnPbtrieNode.parent
  child side n := n.child side
  addr := Prod.fst
  holds v n := Bears v.2 n

/-- The prefix that a record bears. -/
def borne (n : MnPbtrieNode) : Prefix :=
  ⟨n.keyPrefix.toNat / 2 ^ flsl (~~~n.xmask), flsl (~~~n.xmask)⟩

/-- The trie that the program finds when it follows the pointers from the root. -/
def treeOf (s : PbtrieStore) : BinaryTree Label :=
  pbtrieLayout.read (fun a n => (a, borne n)) s.heap s.bound s.vars.root

structure Holds (s : PbtrieStore) (T : BinaryTree Label) : Prop where
  rep : pbtrieLayout.Represents s.heap T
  root_eq : s.vars.root = pbtrieLayout.root T
  patricia : Patricia Prod.snd T
  top : ∃ a l r, T = .node (a, ⟨0, 64⟩) l r

variable {s : PbtrieStore} {T t l r : BinaryTree Label} {v w : Label} {p q : Prefix} {n : MnPbtrieNode}
  {key : UInt64} {path : List (Frame Label)} {side : Side}

theorem root_label (v : Label) (l r : BinaryTree Label) : pbtrieLayout.root (.node v l r) = some v.1 := rfl

theorem Bears.borne_eq (bears : Bears p n) : borne n = p := by
  have table : ∀ i : Fin 65, flsl (~~~mask i) = i.val := by decide +kernel
  have free : flsl (~~~n.xmask) = p.free := by
    rw [bears.xmask_eq]
    exact table ⟨p.free, Nat.lt_succ_of_le bears.fits⟩
  rw [borne, free, bears.prefix_eq, Nat.mul_div_cancel _ (Nat.two_pow_pos _)]

/-- The record of a node, seen from the node. -/
theorem record_at (rep : pbtrieLayout.Represents s.heap (plug path (.node v l r))) :
    ∃ n, s.heap.lookup v.1 = some n ∧ n.parent = pbtrieLayout.top path ∧
      (∀ side, n.child side = pbtrieLayout.root (side.pick l r)) ∧ Bears v.2 n := by
  rcases rep.focus with ⟨n, record⟩
  refine ⟨n, record.cell, record.parent_eq, fun side => ?_, record.holds⟩
  cases side with
  | left => exact record.near_eq
  | right => exact record.far_eq

theorem tree_eq (rep : pbtrieLayout.Represents s.heap T) (root_eq : s.vars.root = pbtrieLayout.root T) :
    treeOf s = T := by
  rw [treeOf, root_eq]
  apply pbtrieLayout.read_subtree _ _ rep.shape
  · exact rep.size_le.trans (Nat.le_succ _)
  · intro v n bears
    exact Prod.ext rfl bears.borne_eq

/-- The number of lowest digits of a key that a node does not confirm. -/
def level (key : UInt64) (p : Prefix) (n : MnPbtrieNode) : Nat := max (flsl (n.keyPrefix ^^^ key)) p.free

theorem Bears.div {j : Nat} (bears : Bears p n) (above : p.free ≤ j) :
    n.keyPrefix.toNat / 2 ^ j = p.bits / 2 ^ (j - p.free) := by
  have steps : 2 ^ j = 2 ^ p.free * 2 ^ (j - p.free) := by
    rw [← pow_add, Nat.add_sub_cancel' above]
  rw [bears.prefix_eq, steps, ← Nat.div_div_eq_div_mul, Nat.mul_div_cancel _ (Nat.two_pow_pos _)]

/-- A prefix above the one that a record bears covers a key if the two agree in the
digits that it fixes. -/
theorem Bears.level_le_iff (bears : Bears p n) (below : Below p q) :
    level key p n ≤ q.free ↔ q.Covers key.toNat := by
  have base : n.keyPrefix.toNat / 2 ^ q.free = q.bits := by
    calc
      n.keyPrefix.toNat / 2 ^ q.free = p.bits / 2 ^ (q.free - p.free) := bears.div below.1
      _ = q.bits / 2 ^ (q.free - q.free) := Below.div below le_rfl
      _ = q.bits := by rw [Nat.sub_self, pow_zero, Nat.div_one]
  rw [level, Nat.max_le, flsl_xor_le_iff, base]
  exact ⟨fun both => both.1.symm, fun covers => ⟨covers.symm, below.1⟩⟩

/-- What `pbtrie_node_find_at` learns about one child of a node. -/
structure Looks (s : PbtrieStore) (p : Prefix) (side : Side) (c : Label) (n : MnPbtrieNode) : Prop where
  cell : s.heap.lookup c.1 = some n
  bears : Bears c.2 n
  below : Below c.2 (p.child (digitOf side))

theorem Looks.mask_ok (looks : Looks s p side w n) :
    childMask key (some w.1) s = .ok (mask (level key w.2 n), s) := by
  rw [childMask, if_pos (Option.some_ne_none _), bind_ok (load_ok looks.cell), xmask_eq, looks.bears.xmask_eq,
    min_mask (flsl_le _) looks.bears.fits, level]
  rfl

theorem Looks.near (looks : Looks s p side w n) (deep : 0 < p.free) (covers : p.Covers key.toNat)
    (same : nextSide key.toNat p = side) : level key w.2 n < p.free := by
  have here : (p.child (digitOf side)).Covers key.toNat := by
    rw [covers_child_iff deep, ← same, nextSide, digitOf_sideOf]
    exact ⟨covers, rfl⟩
  have less := (looks.bears.level_le_iff looks.below).mpr here
  exact Nat.lt_of_le_pred deep less

theorem Looks.far (looks : Looks s p side w n) (deep : 0 < p.free) (covers : p.Covers key.toNat)
    (other : nextSide key.toNat p ≠ side) : level key w.2 n = p.free := by
  have upper := (looks.bears.level_le_iff (looks.below.trans (below_child deep _))).mpr covers
  apply Nat.le_antisymm upper
  by_contra low
  have here := (looks.bears.level_le_iff looks.below).mp (Nat.le_pred_of_lt (Nat.lt_of_not_le low))
  have digit := ((covers_child_iff deep _ _).mp here).2
  apply other
  rw [nextSide, digit, sideOf_digitOf]

theorem Looks.covers_iff (looks : Looks s p side w n) :
    ¬ n.xmask > mask (level key w.2 n) ↔ w.2.Covers key.toNat := by
  have fits : level key w.2 n ≤ 64 := Nat.max_le.mpr ⟨flsl_le _, looks.bears.fits⟩
  rw [looks.bears.xmask_eq, gt_iff_lt, mask_lt_iff fits looks.bears.fits, Nat.not_lt]
  exact looks.bears.level_le_iff (Below.refl w.2)

theorem Holds.looks (holds : Holds s (plug path (.node v l r))) (deep : 0 < v.2.free) (side : Side) :
    ∃ c lc rc n, side.pick l r = .node c lc rc ∧ Looks s v.2 side c n := by
  have inner : Patricia Prod.snd (.node v l r) := holds.patricia.plug nofun
  have hangs := inner.pick deep side
  have rep : pbtrieLayout.Represents s.heap
      (plug (⟨side, v, side.opposite.pick l r⟩ :: path) (side.pick l r)) := by
    rw [plug, attach_pick]
    exact holds.rep
  generalize side.pick l r = child at hangs rep
  cases child with
  | nil => exact hangs.elim
  | node c lc rc =>
      rcases record_at rep with ⟨n, cell, -, -, bears⟩
      exact ⟨c, lc, rc, n, rfl, cell, bears, hangs⟩

/-- Where the search for a key ends. -/
structure Ends (key : UInt64) (T : BinaryTree Label) (path : List (Frame Label)) (w : Label) (l r : BinaryTree Label) :
    Prop where
  tree : T = plug path (.node w l r)
  towards : Towards Prod.snd key.toNat path
  ends : w.2.free = 0 ∨ ¬ w.2.Covers key.toNat

theorem find_at_spec (fuel : Nat) (holds : Holds s (plug path (.node v l r)))
    (towards : Towards Prod.snd key.toNat path) (covers : v.2.Covers key.toNat)
    (enough : (BinaryTree.node v l r).numNodes ≤ fuel) :
    ∃ path' w l' r', Ends key (plug path (.node v l r)) path' w l' r' ∧
      pbtrieNodeFindAt key fuel (some v.1) s = .ok (some w.1, s) := by
  induction fuel generalizing path v l r with
  | zero => cases enough
  | succ fuel ih =>
      rcases record_at holds.rep with ⟨n, cell, -, child_eq, -⟩
      have left_eq : n.child .left = pbtrieLayout.root l := child_eq .left
      have right_eq : n.child .right = pbtrieLayout.root r := child_eq .right
      rw [pbtrieNodeFindAt, bind_ok (load_ok cell), left_eq, right_eq]
      by_cases bottom : v.2.free = 0
      · have inner : Patricia Prod.snd (.node v l r) := holds.patricia.plug (by simp)
        rcases inner.bare bottom with ⟨rfl, rfl⟩
        exact ⟨path, v, .nil, .nil, ⟨rfl, towards, .inl bottom⟩, rfl⟩
      · have deep := Nat.pos_of_ne_zero bottom
        have descend : ∀ side c lc rc nc, side.pick l r = .node c lc rc → Looks s v.2 side c nc →
            nextSide key.toNat v.2 = side → ∃ path' w l' r',
              Ends key (plug path (BinaryTree.node v l r)) path' w l' r' ∧
              (load (some c.1) >>= fun x => if x.xmask > mask (level key c.2 nc) then pure (some c.1)
                else pbtrieNodeFindAt key fuel (some c.1)) s = .ok (some w.1, s) := by
          intro side c lc rc nc child looks same
          have opened : plug path (.node v l r) =
              plug (⟨side, v, side.opposite.pick l r⟩ :: path) (.node c lc rc) := by
            rw [← child, plug, attach_pick]
          have further : Towards Prod.snd key.toNat (⟨side, v, side.opposite.pick l r⟩ :: path) :=
            List.forall_mem_cons.mpr ⟨⟨covers, same.symm⟩, towards⟩
          have size : (side.pick l r).numNodes ≤ fuel := by
            rw [BinaryTree.numNodes] at enough
            cases side with
            | left => exact (Nat.le_add_right _ _).trans (Nat.le_of_succ_le_succ enough)
            | right => exact (Nat.le_add_left _ _).trans (Nat.le_of_succ_le_succ enough)
          rw [bind_ok (load_ok looks.cell), run_ite]
          by_cases here : c.2.Covers key.toNat
          · rw [if_neg (looks.covers_iff.mpr here), opened]
            rw [opened] at holds
            rw [child] at size
            exact ih holds further here size
          · have stops : nc.xmask > mask (level key c.2 nc) := by
              by_contra goes
              exact here (looks.covers_iff.mp goes)
            rw [if_pos stops]
            exact ⟨_, c, lc, rc, ⟨opened, further, .inr here⟩, rfl⟩
        rcases holds.looks deep .left with ⟨c, lc, rc, nc, rfl, low⟩
        rcases holds.looks deep .right with ⟨d, ld, rd, nd, rfl, high⟩
        have fits_left : level key c.2 nc ≤ 64 := Nat.max_le.mpr ⟨flsl_le _, low.bears.fits⟩
        have fits_right : level key d.2 nd ≤ 64 := Nat.max_le.mpr ⟨flsl_le _, high.bears.fits⟩
        rw [root_label, root_label, bind_ok low.mask_ok, bind_ok high.mask_ok, run_ite]
        cases same : nextSide key.toNat v.2 with
        | left =>
            have near := low.near deep covers same
            have far := high.far deep covers (by rw [same]; simp)
            have greater : mask (level key c.2 nc) > mask (level key d.2 nd) :=
              (mask_lt_iff fits_right fits_left).mpr (near.trans_eq far.symm)
            rw [if_pos greater]
            exact descend .left c lc rc nc rfl low same
        | right =>
            have near := high.near deep covers same
            have far := low.far deep covers (by rw [same]; simp)
            have order := near.trans_eq far.symm
            have smaller : ¬ mask (level key c.2 nc) > mask (level key d.2 nd) :=
              fun wrong => absurd ((mask_lt_iff fits_right fits_left).mp wrong) (Nat.lt_asymm order)
            have greater : mask (level key d.2 nd) > mask (level key c.2 nc) :=
              (mask_lt_iff fits_left fits_right).mpr order
            rw [if_neg smaller, run_ite, if_pos greater]
            exact descend .right d ld rd nd rfl high same

theorem covers_top : (⟨0, 64⟩ : Prefix).Covers key.toNat := Nat.div_eq_of_lt key.toNat_lt

/-- The search ends below the root. -/
theorem Holds.find_at (holds : Holds s T) (key : UInt64) :
    ∃ f path w l r, Ends key T (f :: path) w l r ∧
      pbtrieNodeFindAt key s.bound s.vars.root s = .ok (some w.1, s) := by
  rcases holds.top with ⟨a, l, r, rfl⟩
  have start : Towards Prod.snd key.toNat ([] : List (Frame Label)) := nofun
  have size := holds.rep.size_le.trans (Nat.le_succ _)
  have opened : Holds s (plug [] (.node (a, ⟨0, 64⟩) l r)) := holds
  rcases find_at_spec s.bound opened start covers_top size with ⟨path, w, l', r', ends, run⟩
  rw [← root_label (a, ⟨0, 64⟩) l r, ← holds.root_eq] at run
  cases path with
  | nil =>
      rcases BinaryTree.node.inj ends.tree with ⟨rfl, -, -⟩
      exact absurd covers_top (ends.ends.resolve_left nofun)
  | cons f path => exact ⟨f, path, w, l', r', ends, run⟩

theorem Ends.found_iff (ends : Ends key T path w l r) (patricia : Patricia Prod.snd T) :
    key.toNat ∈ keysOf Prod.snd T ↔ w.2 = ⟨key.toNat, 0⟩ := by
  rcases ends with ⟨rfl, towards, last⟩
  exact towards.found_iff patricia last

end MnCommon.Pbtrie
