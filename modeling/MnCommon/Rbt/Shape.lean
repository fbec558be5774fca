import MnCommon.Rbt.Model
import MnCommon.Memory.LinkedTree

/-! What the heap of a red-black tree represents, and what the elementary
operations (reading, colouring, rotating) do to the represented tree. -/

namespace MnCommon.Rbt

open Memory Trees

structure Label where
  addr : Addr
  key : UInt64
  red : Bool
  deriving DecidableEq, Repr

def Label.paint (v : Label) (red : Bool) : Label := { v with red := red }

def MnRbtNode.child (n : MnRbtNode) : Side → Ptr
  | .left => n.left
  | .right => n.right

def MnRbtNode.setChild (n : MnRbtNode) (p : Ptr) : Side → MnRbtNode
  | .left => { n with left := p }
  | .right => { n with right := p }

def rbtLayout : Layout MnRbtNode Label where
  parent := MnRbtNode.parent
  child side n := n.child side
  addr := Label.addr
  holds v n := n.key = v.key ∧ n.isRed = v.red

@[simp] theorem child_setChild (n : MnRbtNode) (p : Ptr) (side : Side) :
    (n.setChild p side).child side = p := by
  cases side <;> rfl

@[simp] theorem child_setChild_opposite (n : MnRbtNode) (p : Ptr) (side : Side) :
    (n.setChild p side).child side.opposite = n.child side.opposite := by
  cases side <;> rfl

@[simp] theorem parent_setChild (n : MnRbtNode) (p : Ptr) (side : Side) :
    (n.setChild p side).parent = n.parent := by
  cases side <;> rfl

theorem holds_setChild (v : Label) (n : MnRbtNode) (p : Ptr) (side : Side) :
    rbtLayout.holds v (n.setChild p side) ↔ rbtLayout.holds v n := by
  cases side <;> rfl

@[simp] theorem layout_addr (v : Label) : rbtLayout.addr v = v.addr := rfl

@[simp] theorem paint_addr (v : Label) (red : Bool) : (v.paint red).addr = v.addr := rfl

abbrev RbtTree := BinaryTree Label

abbrev RbtPath := List (Frame Label)

def rootRed : RbtTree → Bool
  | .nil => false
  | .node v _ _ => v.red

def Label.ident (v : Label) : Addr × UInt64 := (v.addr, v.key)

/-- The nodes of a tree in order, with their keys but without their colours. -/
def idents (t : RbtTree) : List (Addr × UInt64) := (inorder t).map Label.ident

theorem addrs_eq (t : RbtTree) : rbtLayout.addrs t = (idents t).map Prod.fst := by
  simp only [Layout.addrs, idents, List.map_map]
  rfl

theorem idents_plug (path : RbtPath) {t u : RbtTree} (same : idents u = idents t) :
    idents (plug path u) = idents (plug path t) := by
  simp only [idents, inorder_plug, List.map_append] at same ⊢
  rw [same]

theorem idents_turn (side : Side) (v w : Label) (below m above : RbtTree) :
    idents (Frame.attach ⟨side, w, above⟩ (Frame.attach ⟨side.opposite, v, below⟩ m)) =
      idents (Frame.attach ⟨side.opposite, v, below⟩ (Frame.attach ⟨side, w, above⟩ m)) := by
  cases side <;> simp [idents, Frame.attach, Side.opposite]

structure Holds (s : RbtStore) (t : RbtTree) : Prop where
  represents : rbtLayout.Represents s.heap t
  root_eq : s.vars.root = rbtLayout.root t

/-- The part of a node that belongs to the list and to the caller. -/
def MnRbtNode.threaded (n : MnRbtNode) : Ptr × Ptr × UInt64 × Ptr := (n.prev, n.next, n.key, n.data)

theorem threaded_setChild (n : MnRbtNode) (p : Ptr) (side : Side) :
    (n.setChild p side).threaded = n.threaded := by
  cases side <;> rfl

/-- The step writes tree links and colours of the given nodes and nothing else. -/
structure Within (nodes : List Addr) (s next : RbtStore) : Prop where
  outside : ∀ a, a ∉ nodes → next.heap.lookup a = s.heap.lookup a
  threaded : ∀ a, (next.heap.lookup a).map MnRbtNode.threaded =
    (s.heap.lookup a).map MnRbtNode.threaded
  head_eq : next.vars.head = s.vars.head
  tail_eq : next.vars.tail = s.vars.tail
  nelem_eq : next.vars.nelem = s.vars.nelem

theorem Within.refl (nodes : List Addr) (s : RbtStore) : Within nodes s s :=
  ⟨fun _ _ => rfl, fun _ => rfl, rfl, rfl, rfl⟩

theorem Within.trans {nodes : List Addr} {s middle next : RbtStore}
    (first : Within nodes s middle) (second : Within nodes middle next) : Within nodes s next :=
  ⟨fun a out => (second.outside a out).trans (first.outside a out),
    fun a => (second.threaded a).trans (first.threaded a),
    second.head_eq.trans first.head_eq, second.tail_eq.trans first.tail_eq,
    second.nelem_eq.trans first.nelem_eq⟩

theorem threaded_insert {h : Heap MnRbtNode} {a : Addr} {n m : MnRbtNode}
    (cell : h.lookup a = some n) (same : m.threaded = n.threaded) :
    ∀ b : Addr, ((h.insert a m).lookup b).map MnRbtNode.threaded =
      (h.lookup b).map MnRbtNode.threaded := by
  intro b
  by_cases here : b = a
  · rw [here]
    rw [Finmap.lookup_insert, cell, Option.map_some, Option.map_some, same]
  · rw [Finmap.lookup_insert_of_ne h here]

theorem Within.insert {nodes : List Addr} {s : RbtStore} {a : Addr} {n m : MnRbtNode}
    (member : a ∈ nodes) (cell : s.heap.lookup a = some n) (same : m.threaded = n.threaded) :
    Within nodes s { s with heap := s.heap.insert a m } :=
  ⟨fun _ out => Finmap.lookup_insert_of_ne s.heap (fun here => out (here ▸ member)),
    threaded_insert cell same, rfl, rfl, rfl⟩

theorem Within.mono {small large : List Addr} {s next : RbtStore} (step : Within small s next)
    (inside : ∀ a ∈ small, a ∈ large) : Within large s next :=
  { step with outside := fun a out => step.outside a (fun member => out (inside a member)) }

/-- A step from one represented tree to another with the same nodes in order. -/
structure Reshapes (s : RbtStore) (t : RbtTree) (next : RbtStore) (u : RbtTree) : Prop where
  holds : Holds next u
  within : Within (rbtLayout.addrs t) s next
  idents_eq : idents u = idents t

theorem Reshapes.refl {s : RbtStore} {t : RbtTree} (tree : Holds s t) : Reshapes s t s t :=
  ⟨tree, Within.refl _ s, rfl⟩

theorem Reshapes.trans {s middle next : RbtStore} {t u w : RbtTree}
    (first : Reshapes s t middle u) (second : Reshapes middle u next w) : Reshapes s t next w := by
  refine ⟨second.holds, first.within.trans ?_, second.idents_eq.trans first.idents_eq⟩
  have same : rbtLayout.addrs t = rbtLayout.addrs u := by
    rw [addrs_eq, addrs_eq, first.idents_eq]
  rw [same]
  exact second.within

section Reading

variable {s : RbtStore} {path : RbtPath} {t l r : RbtTree} {v : Label}

theorem Holds.focus (tree : Holds s (plug path (.node v l r))) :
    ∃ n, s.heap.lookup v.addr = some n ∧ n.parent = rbtLayout.top path ∧
      n.left = rbtLayout.root l ∧ n.right = rbtLayout.root r ∧ n.key = v.key ∧ n.isRed = v.red := by
  obtain ⟨n, record⟩ := tree.represents.focus
  exact ⟨n, record.cell, record.parent_eq, record.near_eq, record.far_eq, record.holds⟩

theorem is_red_ok (tree : Holds s (plug path t)) :
    rbtIsRed (rbtLayout.root t) s = .ok (rootRed t, s) := by
  cases t with
  | nil => rfl
  | node v l r =>
      obtain ⟨n, cell, -, -, -, -, red⟩ := tree.focus
      change rbtIsRed (some v.addr) s = _
      rw [rbtIsRed, bind_ok (load_ok cell), run_pure, red]
      rfl

theorem is_black_ok (tree : Holds s (plug path t)) :
    rbtIsBlack (rbtLayout.root t) s = .ok (!rootRed t, s) := by
  cases t with
  | nil => rfl
  | node v l r =>
      obtain ⟨n, cell, -, -, -, -, red⟩ := tree.focus
      change rbtIsBlack (some v.addr) s = _
      rw [rbtIsBlack, bind_ok (load_ok cell), run_pure, red]
      rfl

end Reading

theorem flag_set (x : UInt64) : (x ||| rbtFlagRed) &&& rbtFlagRed ≠ 0 := by
  intro same
  have bit := congrArg (fun y : UInt64 => y.toBitVec.getLsbD 32) same
  simp [rbtFlagRed] at bit

theorem flag_clear (x : UInt64) : (x &&& ~~~rbtFlagRed) &&& rbtFlagRed = 0 := by
  rw [UInt64.and_assoc]
  simp [rbtFlagRed]

@[simp] theorem set_red_isRed (n : MnRbtNode) : n.setRed.isRed = true := by
  simpa [MnRbtNode.isRed, MnRbtNode.setRed] using flag_set n.flags

@[simp] theorem set_black_isRed (n : MnRbtNode) : n.setBlack.isRed = false := by
  simpa [MnRbtNode.isRed, MnRbtNode.setBlack] using flag_clear n.flags

section Painting

variable {s : RbtStore} {path : RbtPath} {v : Label} {l r : RbtTree}

theorem paint_ok {f : MnRbtNode → MnRbtNode} {red : Bool}
    (links : ∀ n, (f n).parent = n.parent ∧ ∀ side, (f n).child side = n.child side)
    (threaded : ∀ n, (f n).threaded = n.threaded) (painted : ∀ n, (f n).isRed = red)
    (tree : Holds s (plug path (.node v l r))) :
    ∃ next, update (some v.addr) f s = .ok ((), next) ∧
      Reshapes s (plug path (.node v l r)) next (plug path (.node (v.paint red) l r)) := by
  obtain ⟨n, cell, -, -, -, key, -⟩ := tree.focus
  have key_same : (f n).key = v.key := by
    have whole := threaded n
    simp only [MnRbtNode.threaded, Prod.mk.injEq] at whole
    exact whole.2.2.1.trans key
  refine ⟨_, update_ok _ cell, ⟨?_, ?_⟩, Within.insert ?_ cell (threaded n), ?_⟩
  · exact tree.represents.relabel cell rfl (links n).1 (links n).2
      (fun _ => ⟨key_same, painted n⟩)
  · refine tree.root_eq.trans (rbtLayout.root_plug_congr path ?_)
    rfl
  · simp [rbtLayout.mem_addrs_plug]
  · exact idents_plug path (by simp [idents, Label.ident, Label.paint])

theorem set_red_ok (tree : Holds s (plug path (.node v l r))) :
    ∃ next, rbtSetRed (some v.addr) s = .ok ((), next) ∧
      Reshapes s (plug path (.node v l r)) next (plug path (.node (v.paint true) l r)) :=
  paint_ok (fun _ => ⟨rfl, by rintro ⟨⟩ <;> rfl⟩) (fun _ => rfl) set_red_isRed tree

theorem set_black_ok (tree : Holds s (plug path (.node v l r))) :
    ∃ next, rbtSetBlack (some v.addr) s = .ok ((), next) ∧
      Reshapes s (plug path (.node v l r)) next (plug path (.node (v.paint false) l r)) :=
  paint_ok (fun _ => ⟨rfl, by rintro ⟨⟩ <;> rfl⟩) (fun _ => rfl) set_black_isRed tree

end Painting

/-- The link that a parent, or the root, keeps to the open position. -/
theorem replace_child_ok {s : RbtStore} {path : RbtPath} {t : RbtTree} {a : Addr} (new : Ptr)
    (opened : rbtLayout.Opened s.heap path (some a)) (distinct : (rbtLayout.pathAddrs path).Nodup)
    (apart : a ∉ rbtLayout.pathAddrs path)
    (root_eq : s.vars.root = rbtLayout.root (plug path t)) :
    ∃ next, replaceChild (rbtLayout.top path) (some a) new s = .ok ((), next) ∧
      rbtLayout.Opened next.heap path new ∧
      (∀ u, rbtLayout.root u = new → next.vars.root = rbtLayout.root (plug path u)) ∧
      Within (rbtLayout.pathAddrs path) s next := by
  cases path with
  | nil =>
      refine ⟨{ s with vars := { s.vars with root := new } }, ?_, trivial, ?_, ?_⟩
      · simp [replaceChild, setVars]
      · intro u root_new
        exact root_new.symm
      · exact ⟨fun _ _ => rfl, fun _ => rfl, rfl, rfl, rfl⟩
  | cons f path =>
      have ⟨⟨n, record⟩, _⟩ := opened
      have cell : s.heap.lookup f.label.addr = some n := record.cell
      have apart_sibling : rbtLayout.root f.sibling ≠ some a := fun same =>
        apart ((rbtLayout.mem_pathAddrs_cons f path a).mpr
          (Or.inr (Or.inl (rbtLayout.root_mem _ _ same))))
      have top_member : f.label.addr ∈ rbtLayout.pathAddrs (f :: path) :=
        (rbtLayout.mem_pathAddrs_cons f path _).mpr (Or.inl rfl)
      refine ⟨{ s with heap := s.heap.insert f.label.addr (n.setChild new f.side) }, ?_, ?_, ?_,
        Within.insert top_member cell (threaded_setChild _ _ _)⟩
      · rw [rbtLayout.top_cons, layout_addr, replaceChild, if_neg (by simp),
          bind_ok (load_ok cell)]
        have near : n.child f.side = some a := record.near_eq
        have far : n.child f.side.opposite = rbtLayout.root f.sibling := record.far_eq
        cases side : f.side <;> rw [side] at near far
        · rw [if_pos (show some a = n.left from near.symm)]
          exact update_ok _ cell
        · rw [if_neg (show some a ≠ n.left from fun same => apart_sibling (far.symm.trans same.symm))]
          exact update_ok _ cell
      · exact rbtLayout.opened_relink opened distinct cell (Finmap.lookup_insert _)
          (parent_setChild n new f.side) (child_setChild n new f.side)
          (child_setChild_opposite n new f.side) (by cases f.side <;> exact fun same => same)
          (fun b _ other => Finmap.lookup_insert_of_ne s.heap other)
      · intro u _
        exact root_eq.trans (rbtLayout.root_plug_cons _ path t u)

theorem set_parent_ok {s : RbtStore} {old : Ptr} {t : RbtTree} (new : Ptr)
    (tree : rbtLayout.Subtree s.heap old t) (distinct : (rbtLayout.addrs t).Nodup) :
    ∃ next, setParent (rbtLayout.root t) new s = .ok ((), next) ∧
      rbtLayout.Subtree next.heap new t ∧ next.vars = s.vars ∧
      Within (rbtLayout.addrs t) s next := by
  cases t with
  | nil => exact ⟨s, rfl, trivial, rfl, Within.refl _ s⟩
  | node v l r =>
      obtain ⟨⟨n, record⟩, below, above⟩ := tree
      have cell : s.heap.lookup v.addr = some n := record.cell
      have member : v.addr ∈ rbtLayout.addrs (.node v l r) := by simp
      refine ⟨_, update_ok _ cell, ?_, rfl, Within.insert member cell rfl⟩
      refine rbtLayout.subtree_reparent ⟨⟨n, record⟩, below, above⟩ distinct ?_ ?_
      · intro a k atRoot found
        obtain rfl : v.addr = a := Option.some.inj atRoot
        obtain rfl : n = k := Option.some.inj (cell.symm.trans found)
        exact ⟨_, Finmap.lookup_insert _, rfl, by rintro ⟨⟩ <;> rfl, fun _ same => same⟩
      · intro a _ other
        exact Finmap.lookup_insert_of_ne s.heap (fun here => other (by rw [here]; rfl))

/-- Both rotations: the child on the other side rises above its parent. -/
def rotate (side : Side) (n : Ptr) : RbtProg Unit := do
  let p := (← load n).parent
  let rising := (← load n).child side.opposite
  let inner := (← load rising).child side
  check rising.isSome
  replaceChild p n rising
  update rising fun x => { x with parent := p }
  update n fun x => { x with parent := rising }
  update rising fun x => x.setChild n side
  setParent inner n
  update n fun x => x.setChild inner side.opposite

theorem rotate_left_eq (n : Ptr) : _rbtRotateLeft n = rotate .left n := rfl

theorem rotate_right_eq (n : Ptr) : _rbtRotateRight n = rotate .right n := rfl

/-- What a rotation does behind the parent of the two nodes. -/
def turnLinks (side : Side) (n p rising inner : Ptr) : RbtProg Unit := do
  update rising fun x => { x with parent := p }
  update n fun x => { x with parent := rising }
  update rising fun x => x.setChild n side
  setParent inner n
  update n fun x => x.setChild inner side.opposite

theorem rotate_eq (side : Side) (n : Ptr) : rotate side n = (do
    let p := (← load n).parent
    let rising := (← load n).child side.opposite
    let inner := (← load rising).child side
    check rising.isSome
    replaceChild p n rising
    turnLinks side n p rising inner) := rfl

/-- The nodes `v` and `w` have changed places, and the tree between them has gone over. -/
structure Turned (side : Side) (top : Ptr) (v w : Label) (m : RbtTree) (n k : MnRbtNode) (s next : RbtStore) :
    Prop where
  lower : next.heap.lookup v.addr =
    some (({ n with parent := some w.addr } : MnRbtNode).setChild (rbtLayout.root m) side.opposite)
  upper : next.heap.lookup w.addr = some (({ k with parent := top } : MnRbtNode).setChild (some v.addr) side)
  middle : rbtLayout.Subtree next.heap (some v.addr) m
  vars : next.vars = s.vars
  within : Within (v.addr :: w.addr :: rbtLayout.addrs m) s next

section Turning

variable {side : Side} {s next : RbtStore} {v w : Label} {below m above : RbtTree} {n k : MnRbtNode} {old top : Ptr}

theorem turn_links_ok (side : Side) (top : Ptr) (ncell : s.heap.lookup v.addr = some n)
    (kcell : s.heap.lookup w.addr = some k) (middle : rbtLayout.Subtree s.heap old m)
    (distinct : (v.addr :: w.addr :: rbtLayout.addrs m).Nodup) :
    ∃ next, turnLinks side (some v.addr) top (some w.addr) (rbtLayout.root m) s = .ok ((), next) ∧
      Turned side top v w m n k s next := by
  let k1 : MnRbtNode := { k with parent := top }
  let n1 : MnRbtNode := { n with parent := some w.addr }
  let k2 : MnRbtNode := k1.setChild (some v.addr) side
  let n2 : MnRbtNode := n1.setChild (rbtLayout.root m) side.opposite
  let h3 := ((s.heap.insert w.addr k1).insert v.addr n1).insert w.addr k2
  have different : w.addr ≠ v.addr := by grind
  have ncell1 : (s.heap.insert w.addr k1).lookup v.addr = some n := by simp [different.symm, ncell]
  have kcell2 : ((s.heap.insert w.addr k1).insert v.addr n1).lookup w.addr = some k1 := by simp [different]
  have others3 : ∀ a, a ≠ v.addr → a ≠ w.addr → h3.lookup a = s.heap.lookup a := by
    intro a notv notw
    simp only [h3, Finmap.lookup_insert_of_ne, ne_eq, notv, notw, not_false_eq_true]
  have middle3 : rbtLayout.Subtree h3 old m := by
    refine rbtLayout.subtree_frame (fun a member => ?_) middle
    exact others3 a (by grind) (by grind)
  obtain ⟨s4, run4, middle4, vars4, within4⟩ :=
    set_parent_ok (s := { s with heap := h3 }) (some v.addr) middle3 (by grind)
  have ncell4 : s4.heap.lookup v.addr = some n1 := by
    rw [within4.outside _ (by grind)]
    simp [h3, different.symm]
  refine ⟨{ s4 with heap := s4.heap.insert v.addr n2 }, ?_, Finmap.lookup_insert _, ?_, ?_, vars4, ?_⟩
  · rw [turnLinks, bind_ok (update_ok _ kcell), bind_ok (update_ok _ ncell1), bind_ok (update_ok _ kcell2)]
    exact (bind_ok run4 _).trans (update_ok _ ncell4)
  · rw [Finmap.lookup_insert_of_ne _ different, within4.outside _ (by grind)]
    simp [h3, k2, k1]
  · refine rbtLayout.subtree_frame (fun a member => ?_) middle4
    rw [Finmap.lookup_insert_of_ne _ (by grind)]
  · let nodes := v.addr :: w.addr :: rbtLayout.addrs m
    have upper : v.addr ∈ nodes := List.mem_cons_self
    have lower : w.addr ∈ nodes := List.mem_cons_of_mem _ List.mem_cons_self
    have step1 : Within nodes s { s with heap := s.heap.insert w.addr k1 } := Within.insert lower kcell rfl
    have step2 := step1.trans (Within.insert upper ncell1 (m := n1) rfl)
    have step3 := step2.trans (Within.insert lower kcell2 (m := k2) (threaded_setChild _ _ _))
    have step4 := step3.trans (within4.mono fun a member =>
      List.mem_cons_of_mem _ (List.mem_cons_of_mem _ member))
    exact step4.trans (Within.insert upper ncell4 (threaded_setChild _ _ _))

theorem Turned.subtree (turned : Turned side top v w m n k s next)
    (nrec : rbtLayout.Record s.heap v old side.opposite (some w.addr) (rbtLayout.root below) n)
    {old' : Ptr} (krec : rbtLayout.Record s.heap w old' side (rbtLayout.root m) (rbtLayout.root above) k)
    (left : rbtLayout.Subtree s.heap (some v.addr) below) (right : rbtLayout.Subtree s.heap (some w.addr) above)
    (left_apart : ∀ a ∈ rbtLayout.addrs below, a ∉ v.addr :: w.addr :: rbtLayout.addrs m)
    (right_apart : ∀ a ∈ rbtLayout.addrs above, a ∉ v.addr :: w.addr :: rbtLayout.addrs m) :
    rbtLayout.Subtree next.heap top (Frame.attach ⟨side, w, above⟩ (Frame.attach ⟨side.opposite, v, below⟩ m)) := by
  simp only [rbtLayout.subtree_attach]
  refine ⟨⟨_, turned.upper, parent_setChild _ _ _, ?_, ?_, (holds_setChild _ _ _ _).mpr krec.holds⟩, ?_,
    ⟨_, turned.lower, parent_setChild _ _ _, child_setChild _ _ _, ?_, (holds_setChild _ _ _ _).mpr nrec.holds⟩, ?_,
    turned.middle⟩
  · rw [rbtLayout.root_attach]
    exact child_setChild _ _ _
  · exact (child_setChild_opposite _ _ _).trans krec.far_eq
  · exact rbtLayout.subtree_frame (fun a member => turned.within.outside a (right_apart a member)) right
  · exact (child_setChild_opposite _ _ _).trans nrec.far_eq
  · exact rbtLayout.subtree_frame (fun a member => turned.within.outside a (left_apart a member)) left

end Turning

theorem rotate_ok (side : Side) {s : RbtStore} {path : RbtPath} {v w : Label}
    {below m above : RbtTree}
    (tree : Holds s (plug (⟨side, w, above⟩ :: ⟨side.opposite, v, below⟩ :: path) m)) :
    ∃ next, rotate side (some v.addr) s = .ok ((), next) ∧
      Reshapes s (plug (⟨side, w, above⟩ :: ⟨side.opposite, v, below⟩ :: path) m)
        next (plug (⟨side.opposite, v, below⟩ :: ⟨side, w, above⟩ :: path) m) := by
  obtain ⟨⟨⟨k, krec⟩, right, ⟨n, nrec⟩, left, opened⟩, middle⟩ :=
    (rbtLayout.subtree_plug _ _ _).mp tree.represents.shape
  have ncell : s.heap.lookup v.addr = some n := nrec.cell
  have kcell : s.heap.lookup w.addr = some k := krec.cell
  have nrising : n.child side.opposite = some w.addr := nrec.near_eq
  have kinner : k.child side = rbtLayout.root m := krec.near_eq
  have nparent : n.parent = rbtLayout.top path := nrec.parent_eq
  obtain ⟨outerDistinct, innerDistinct, outerApart⟩ :=
    (rbtLayout.distinct_plug path _).mp tree.represents.distinct
  have distinct := innerDistinct
  have apart := outerApart
  simp only [rbtLayout.nodup_addrs_attach, rbtLayout.mem_addrs_attach, layout_addr] at distinct apart
  obtain ⟨s1, run1, opened1, root1, within1⟩ := replace_child_ok (a := v.addr)
    (some w.addr) opened outerDistinct (by grind) tree.root_eq
  have same1 := within1.outside
  have kept : ∀ t parent, rbtLayout.Subtree s.heap parent t → (∀ a ∈ rbtLayout.addrs t, a ∉ rbtLayout.pathAddrs path) →
      rbtLayout.Subtree s1.heap parent t := fun t parent tree outside =>
    rbtLayout.subtree_frame (fun a member => same1 a (outside a member)) tree
  have ncell1 : s1.heap.lookup v.addr = some n := by rw [same1 _ (by grind), ncell]
  have kcell1 : s1.heap.lookup w.addr = some k := by rw [same1 _ (by grind), kcell]
  obtain ⟨next, run2, turned⟩ := turn_links_ok side (rbtLayout.top path) ncell1 kcell1
    (kept m _ middle (by grind)) (by grind)
  refine ⟨next, ?_, ⟨⟨?_, ?_⟩, ?_⟩, ?_, ?_⟩
  · rw [rotate_eq, bind_ok (load_ok ncell), bind_ok (load_ok ncell), nrising, bind_ok (load_ok kcell), kinner, nparent,
      bind_ok (a := ()) (by rfl), bind_ok run1, run2]
  · refine (rbtLayout.subtree_plug _ path _).mpr
      ⟨rbtLayout.opened_frame (fun a member => ?_) (?_ : rbtLayout.Opened s1.heap path _), ?_⟩
    · exact turned.within.outside a (by grind)
    · rwa [rbtLayout.root_attach]
    · exact turned.subtree { nrec with cell := ncell1 } { krec with cell := kcell1 }
        (kept below _ left (by grind)) (kept above _ right (by grind)) (by grind) (by grind)
  · refine (rbtLayout.distinct_plug path _).mpr ⟨outerDistinct, ?_, ?_⟩
    · simp only [rbtLayout.nodup_addrs_attach, rbtLayout.mem_addrs_attach, layout_addr]
      grind
    · simp only [rbtLayout.mem_addrs_attach, layout_addr]
      grind
  · rw [turned.vars]
    exact root1 _ (rbtLayout.root_attach _ _)
  · have inside : ∀ a, a ∈ rbtLayout.pathAddrs path ∨ a ∈ v.addr :: w.addr :: rbtLayout.addrs m →
        a ∈ rbtLayout.addrs (plug (⟨side, w, above⟩ :: ⟨side.opposite, v, below⟩ :: path) m) := by
      intro a member
      simp only [rbtLayout.mem_addrs_cons, rbtLayout.mem_pathAddrs_cons, layout_addr, List.mem_cons] at member ⊢
      tauto
    exact (within1.mono fun a member => inside a (.inl member)).trans
      (turned.within.mono fun a member => inside a (.inr member))
  · exact idents_plug path (idents_turn side v w below m above)

section Rotations

variable {s : RbtStore} {path : RbtPath} {v w : Label} {l m r : RbtTree}

theorem rotate_left_ok (tree : Holds s (plug path (.node v l (.node w m r)))) :
    ∃ next, _rbtRotateLeft (some v.addr) s = .ok ((), next) ∧
      Reshapes s (plug path (.node v l (.node w m r)))
        next (plug path (.node w (.node v l m) r)) :=
  rotate_ok .left (show Holds s (plug (⟨.left, w, r⟩ :: ⟨.right, v, l⟩ :: path) m) from tree)

theorem rotate_right_ok (tree : Holds s (plug path (.node v (.node w l m) r))) :
    ∃ next, _rbtRotateRight (some v.addr) s = .ok ((), next) ∧
      Reshapes s (plug path (.node v (.node w l m) r))
        next (plug path (.node w l (.node v m r))) :=
  rotate_ok .right (show Holds s (plug (⟨.right, w, l⟩ :: ⟨.left, v, r⟩ :: path) m) from tree)

end Rotations

end MnCommon.Rbt
