import MnCommon.Rbt.InsertFixup
import MnCommon.Memory.Chain
import MnCommon.Trees.Search

/-! Looking up a key and inserting a node. -/

namespace MnCommon.Rbt

open Memory Trees

def rbtLinks : Links MnRbtNode where
  prev := MnRbtNode.prev
  next := MnRbtNode.next

def Label.lt (v w : Label) : Prop := v.key < w.key

/-- How a key compares with a node on the way down. -/
def Label.cut (key : UInt64) (v : Label) : Ordering :=
  if key < v.key then .lt else if key > v.key then .gt else .eq

@[simp] theorem cut_lt (key : UInt64) (v : Label) : v.cut key = .lt ↔ key < v.key := by
  rw [Label.cut]
  grind

@[simp] theorem cut_gt (key : UInt64) (v : Label) : v.cut key = .gt ↔ v.key < key := by
  rw [Label.cut]
  grind

@[simp] theorem cut_eq (key : UInt64) (v : Label) : v.cut key = .eq ↔ key = v.key := by
  rw [Label.cut]
  grind

theorem cut_respects (key : UInt64) : Cut Label.lt (Label.cut key) where
  below v w less := by
    simp only [cut_lt]
    exact fun before => UInt64.lt_trans before less
  above v w less := by
    simp only [cut_gt]
    exact fun after => UInt64.lt_trans less after
  left v w less := by
    simp only [cut_eq, cut_lt]
    rintro rfl
    exact less
  right v w less := by
    simp only [cut_eq, cut_gt]
    rintro rfl
    exact less

section Find

variable {s : RbtStore} {path : RbtPath} {t : RbtTree}

theorem find_from_ok (fuel : Nat) (key : UInt64) (tree : Holds s (plug path t))
    (enough : t.numNodes ≤ fuel) :
    rbtFindFrom fuel (rbtLayout.root t) key s =
      .ok (rbtLayout.root (descend (Label.cut key) path t).2, s) := by
  induction t generalizing path fuel with
  | nil => cases fuel <;> rfl
  | node v l r left right =>
      cases fuel with
      | zero => simp [BinaryTree.numNodes] at enough
      | succ fuel =>
          simp only [BinaryTree.numNodes] at enough
          obtain ⟨n, cell, -, leftEq, rightEq, keyEq, -⟩ := tree.focus
          rw [rbtLayout.root_node, layout_addr, rbtFindFrom, bind_ok (load_ok cell), keyEq, descend,
            leftEq, rightEq]
          cases order : v.cut key
          · have less := (cut_lt key v).mp order
            rw [if_neg (UInt64.ne_of_lt less), if_pos less]
            exact left fuel tree (by omega)
          · rw [if_pos ((cut_eq key v).mp order)]
            rfl
          · have greater := (cut_gt key v).mp order
            rw [if_neg (UInt64.ne_of_lt greater).symm,
              if_neg (UInt64.not_lt.mpr (UInt64.le_of_lt greater))]
            exact right fuel tree (by omega)

theorem find_ok (key : UInt64) (tree : Holds s t) :
    rbtFind key s = .ok (rbtLayout.root (descend (Label.cut key) [] t).2, s) := by
  rw [rbtFind, bind_ok (a := s.bound) (by rfl), bind_ok (a := s.vars) (by rfl), tree.root_eq]
  exact find_from_ok s.bound key (show Holds s (plug [] t) from tree)
    (Nat.le_succ_of_le tree.represents.size_le)

end Find

def MnRbtNode.step (n : MnRbtNode) : Side → Ptr
  | .left => n.prev
  | .right => n.next

def MnRbtNode.setStep (n : MnRbtNode) (p : Ptr) : Side → MnRbtNode
  | .left => { n with prev := p }
  | .right => { n with next := p }

/-- The list as it begins or ends on one side. -/
def MnRbt.tip (t : MnRbt) : Side → Ptr
  | .left => t.head
  | .right => t.tail

def MnRbt.setTip (t : MnRbt) (p : Ptr) : Side → MnRbt
  | .left => { t with head := p }
  | .right => { t with tail := p }

/-- Both ways to put a new node next to its parent. -/
def insertBeside (side : Side) (source target : Ptr) : RbtProg Unit := do
  rbtAssign (update source fun n => n.setChild target side) target
  update target fun n => { n with parent := source }
  let beyond := (← load source).step side
  update target fun n => n.setStep beyond side
  if beyond = none then
    setVars fun t => t.setTip target side
  else
    update beyond fun n => n.setStep target side.opposite
  update target fun n => n.setStep source side.opposite
  update source fun n => n.setStep target side

theorem insert_left_eq (source target : Ptr) :
    insertLeft source target = insertBeside .left source target := rfl

theorem insert_right_eq (source target : Ptr) :
    insertRight source target = insertBeside .right source target := rfl

@[simp] theorem step_setChild (n : MnRbtNode) (p : Ptr) (side towards : Side) :
    (n.setChild p side).step towards = n.step towards := by
  cases side <;> cases towards <;> rfl

@[simp] theorem setTip_root (t : MnRbt) (p : Ptr) (side : Side) :
    (t.setTip p side).root = t.root := by
  cases side <;> rfl

@[simp] theorem setTip_nelem (t : MnRbt) (p : Ptr) (side : Side) :
    (t.setTip p side).nelem = t.nelem := by
  cases side <;> rfl

@[simp] theorem tip_setTip (t : MnRbt) (p : Ptr) (side : Side) : (t.setTip p side).tip side = p := by
  cases side <;> rfl

@[simp] theorem tip_setTip_opposite (t : MnRbt) (p : Ptr) (side : Side) :
    (t.setTip p side).tip side.opposite = t.tip side.opposite := by
  cases side <;> rfl

@[simp] theorem parent_setStep (n : MnRbtNode) (p : Ptr) (side : Side) :
    (n.setStep p side).parent = n.parent := by
  cases side <;> rfl

@[simp] theorem child_setStep (n : MnRbtNode) (p : Ptr) (side towards : Side) :
    (n.setStep p side).child towards = n.child towards := by
  cases side <;> cases towards <;> rfl

theorem holds_setStep (v : Label) (n : MnRbtNode) (p : Ptr) (side : Side) :
    rbtLayout.holds v (n.setStep p side) ↔ rbtLayout.holds v n := by
  cases side <;> rfl

section Beside

variable {s : RbtStore} {side : Side} {p a : Addr} {m n : MnRbtNode}

/-- What linking a new node does to the records and to the variables. -/
structure Beside (s next : RbtStore) (side : Side) (p a : Addr) (m n : MnRbtNode) : Prop where
  parent : next.heap.lookup p = some ((m.setChild (some a) side).setStep (some a) side)
  child : next.heap.lookup a = some
    ((({ n.setRed with parent := some p } : MnRbtNode).setStep (m.step side) side).setStep (some p)
      side.opposite)
  beyond : ∀ b q, m.step side = some b → s.heap.lookup b = some q →
    next.heap.lookup b = some (q.setStep (some a) side.opposite)
  others : ∀ b, b ≠ p → b ≠ a → m.step side ≠ some b → next.heap.lookup b = s.heap.lookup b
  root_eq : next.vars.root = s.vars.root
  nelem_eq : next.vars.nelem = s.vars.nelem + 1
  tip_eq : next.vars.tip side = if m.step side = none then some a else s.vars.tip side
  tip_opposite_eq : next.vars.tip side.opposite = s.vars.tip side.opposite

theorem insert_beside_ok (side : Side) (parent : s.heap.lookup p = some m) (child : s.heap.lookup a = some n)
    (apart : a ≠ p) (beyond : ∀ b, m.step side = some b → b ≠ p ∧ b ≠ a ∧
      ∃ q, s.heap.lookup b = some q) :
    ∃ next, insertBeside side (some p) (some a) s = .ok ((), next) ∧
      Beside s next side p a m n := by
  let m1 := m.setChild (some a) side
  let n1 := ({ n.setRed with parent := some p } : MnRbtNode).setStep (m.step side) side
  let h1 := (s.heap.insert p m1).insert a n1
  let grown : MnRbt := { s.vars with nelem := s.vars.nelem + 1 }
  have start : insertBeside side (some p) (some a) s = (do
      if m.step side = none then
        setVars fun t => t.setTip (some a) side
      else
        update (m.step side) fun n => n.setStep (some a) side.opposite
      update (some a) fun n => n.setStep (some p) side.opposite
      update (some p) fun n => n.setStep (some a) side : RbtProg Unit)
        { s with heap := h1, vars := grown } := by
    simp [insertBeside, rbtAssign, rbtSetRed, run_bind, update, load, setVars, parent, child,
      apart, apart.symm, h1, grown, n1, m1]
  rw [start]
  cases edge : m.step side with
  | none =>
      refine ⟨{ s with heap := ((h1.insert a (n1.setStep (some p) side.opposite)).insert p
        (m1.setStep (some a) side)), vars := grown.setTip (some a) side }, ?_, ?_⟩
      · simp [run_bind, update, setVars, h1, apart.symm]
      · constructor
        · simp
          rfl
        · simp [edge, n1, apart]
        · simp [edge]
        · intro b notp nota _
          simp [h1, notp, nota]
        · simp [grown]
        · simp [grown]
        · simp [edge]
        · rw [tip_setTip_opposite]
          cases side <;> rfl
  | some b =>
      obtain ⟨notp, nota, q, cell⟩ := beyond b edge
      refine ⟨{ s with heap := (((h1.insert b (q.setStep (some a) side.opposite)).insert a
        (n1.setStep (some p) side.opposite)).insert p (m1.setStep (some a) side)), vars := grown }, ?_, ?_⟩
      · simp [run_bind, update, h1, apart.symm, notp, nota, notp.symm, nota.symm, cell]
      · constructor
        · simp
          rfl
        · simp [edge, n1, apart]
        · intro c k here found
          rw [edge] at here
          obtain rfl : b = c := Option.some.inj here
          obtain rfl : q = k := Option.some.inj (cell.symm.trans found)
          simp [notp, nota]
        · intro c offp offa offb
          have other : c ≠ b := fun same => offb (edge.trans (same ▸ rfl))
          simp [h1, offp, offa, other]
        · rfl
        · rfl
        · simp [edge, grown]
          cases side <;> rfl
        · cases side <;> rfl

end Beside

/-- The tree as an ordered set threaded into a list. -/
structure Valid (s : RbtStore) (t : RbtTree) : Prop where
  holds : Holds s t
  ordered : Ordered Label.lt t
  chain : rbtLinks.Chain s.heap s.vars.head s.vars.tail (rbtLayout.addrs t)
  nelem_eq : s.vars.nelem = t.numNodes

/-- A node that is in no tree. -/
structure MnRbtNode.Unlinked (n : MnRbtNode) : Prop where
  parent : n.parent = none
  left : n.left = none
  right : n.right = none
  prev : n.prev = none
  next : n.next = none

section Leaf

variable {s next : RbtStore} {f : Frame Label} {path : RbtPath} {a : Addr} {m n : MnRbtNode}

theorem beside_represents (rep : rbtLayout.Represents s.heap (plug (f :: path) .nil))
    (fresh : a ∉ rbtLayout.addrs (plug (f :: path) .nil))
    (parent : s.heap.lookup f.label.addr = some m) (unlinked : n.Unlinked)
    (step : Beside s next f.side f.label.addr a m n) :
    rbtLayout.Represents next.heap (plug (f :: path) (.node ⟨a, n.key, true⟩ .nil .nil)) := by
  have apart : a ≠ f.label.addr := fun same => fresh (by
    rw [same, rbtLayout.mem_addrs_plug, rbtLayout.mem_pathAddrs_cons]
    exact Or.inl (Or.inl rfl))
  let red : MnRbtNode := { n.setRed with parent := some f.label.addr }
  have mid := rep.graft (v := Label.mk a n.key true) (m := m.setChild (some a) f.side)
    (k := (red.setStep (m.step f.side) f.side).setStep (some f.label.addr) f.side.opposite)
    fresh parent (parent_setChild _ _ _) (child_setChild _ _ _) (child_setChild_opposite _ _ _)
    (holds_setChild _ _ _ _).mpr (by simp [rbtLayout, red]) (fun side => ?_) ?_
  · refine mid.touch ?_
    intro b member q found
    by_cases child : b = a
    · subst child
      rw [layout_addr, Finmap.lookup_insert] at found
      obtain rfl := Option.some.inj found
      exact ⟨_, step.child, rfl, fun _ => rfl, fun _ same => same⟩
    rw [layout_addr, layout_addr, Finmap.lookup_insert_of_ne _ child] at found
    by_cases top : b = f.label.addr
    · subst top
      rw [Finmap.lookup_insert] at found
      obtain rfl := Option.some.inj found
      exact ⟨_, step.parent, parent_setStep _ _ _, child_setStep _ _ _,
        fun v => (holds_setStep v _ _ _).mpr⟩
    rw [Finmap.lookup_insert_of_ne _ top] at found
    by_cases beside : m.step f.side = some b
    · exact ⟨_, step.beyond b q beside found, parent_setStep _ _ _, child_setStep _ _ _,
        fun v => (holds_setStep v _ _ _).mpr⟩
    · exact ⟨q, (step.others b top child beside).trans found, rfl, fun _ => rfl, fun _ same => same⟩
  · have leaf : red.child side = none := by
      cases side
      · exact unlinked.left
      · exact unlinked.right
    simpa [rbtLayout] using leaf
  · rw [holds_setStep, holds_setStep]
    exact ⟨rfl, set_red_isRed n⟩

theorem pair_inv {h : Heap MnRbtNode} {b : Addr} {l : Ptr × Ptr}
    (was : rbtLinks.pair h b = some l) : ∃ q, h.lookup b = some q ∧ l = (q.prev, q.next) := by
  rw [Links.pair, Option.map_eq_some_iff] at was
  obtain ⟨q, cell, same⟩ := was
  exact ⟨q, cell, same.symm⟩

theorem chain_before {p : Addr} {front rest : List Addr}
    (chain : rbtLinks.Chain s.heap s.vars.head s.vars.tail (front ++ p :: rest))
    (fresh : a ∉ front ++ p :: rest) (parent : s.heap.lookup p = some m)
    (step : Beside s next .left p a m n) :
    rbtLinks.Chain next.heap next.vars.head next.vars.tail (front ++ a :: p :: rest) := by
  have here := chain.linked front p rest rfl
  rw [Links.pair_eq parent] at here
  obtain ⟨prev, after⟩ := Prod.mk.inj (Option.some.inj here)
  have spliced := chain.splice next.heap front [] [a] (p :: rest) ?_ ?_ ?_ ?_ ?_
  · have head : next.vars.head = (front ++ ([a] ++ p :: rest)).head? := by
      refine step.tip_eq.trans ?_
      cases front with
      | nil => exact if_pos prev
      | cons c front =>
          rw [if_neg (fun none => by simpa using prev.symm.trans none)]
          exact chain.head_eq
    have tail : next.vars.tail = (front ++ ([a] ++ p :: rest)).getLast? :=
      step.tip_opposite_eq.trans (chain.tail_eq.trans (by simp))
    rw [head, tail]
    exact spliced
  · rw [List.singleton_append, List.nodup_middle, List.nodup_cons]
    exact ⟨fresh, chain.distinct⟩
  · intro pre b post whole
    obtain ⟨rfl, rfl, rfl⟩ : pre = [] ∧ b = a ∧ post = [] := by
      cases pre <;> simp_all
    rw [Links.pair_eq step.child, List.append_nil, ← prev]
    rfl
  · intro b l last was
    obtain ⟨q, cell, rfl⟩ := pair_inv was
    rw [Links.pair_eq (step.beyond b q (prev.trans last) cell)]
    rfl
  · intro b l first was
    obtain rfl : p = b := by simpa using first
    rw [Links.pair_eq parent] at was
    obtain rfl := Option.some.inj was
    rw [Links.pair_eq step.parent]
    simp [rbtLinks, MnRbtNode.setStep, MnRbtNode.setChild]
  · intro b member notLast notFirst
    rw [Links.pair, Links.pair, step.others b]
    · rintro rfl
      simp at notFirst
    · rintro rfl
      exact fresh member
    · exact fun edge => notLast (prev.symm.trans edge)

theorem chain_after {p : Addr} {front rest : List Addr}
    (chain : rbtLinks.Chain s.heap s.vars.head s.vars.tail (front ++ p :: rest))
    (fresh : a ∉ front ++ p :: rest) (parent : s.heap.lookup p = some m)
    (step : Beside s next .right p a m n) :
    rbtLinks.Chain next.heap next.vars.head next.vars.tail (front ++ p :: a :: rest) := by
  have here := chain.linked front p rest rfl
  rw [Links.pair_eq parent] at here
  obtain ⟨before, after⟩ := Prod.mk.inj (Option.some.inj here)
  have chain' : rbtLinks.Chain s.heap s.vars.head s.vars.tail ((front ++ [p]) ++ ([] ++ rest)) := by
    simpa using chain
  have spliced := chain'.splice next.heap (front ++ [p]) [] [a] rest ?_ ?_ ?_ ?_ ?_
  · have head : next.vars.head = (front ++ [p] ++ ([a] ++ rest)).head? :=
      step.tip_opposite_eq.trans (chain.head_eq.trans (by simp))
    have tail : next.vars.tail = (front ++ [p] ++ ([a] ++ rest)).getLast? := by
      refine step.tip_eq.trans ?_
      cases rest with
      | nil =>
          rw [if_pos (show m.step .right = none from after)]
          simp
      | cons c rest =>
          rw [if_neg (fun none => by simpa using after.symm.trans none)]
          exact chain.tail_eq.trans (by simp)
    rw [← head, ← tail] at spliced
    simpa using spliced
  · have whole : front ++ [p] ++ ([a] ++ rest) = (front ++ [p]) ++ a :: rest := by simp
    rw [whole, List.nodup_middle, List.nodup_cons]
    exact ⟨by simpa using fresh, by simpa using chain.distinct⟩
  · intro pre b post whole
    obtain ⟨rfl, rfl, rfl⟩ : pre = [] ∧ b = a ∧ post = [] := by
      cases pre <;> simp_all
    rw [Links.pair_eq step.child, List.nil_append, List.append_nil, List.getLast?_concat, ← after]
    rfl
  · intro b l last was
    obtain rfl : p = b := by simpa using last
    rw [Links.pair_eq parent] at was
    obtain rfl := Option.some.inj was
    rw [Links.pair_eq step.parent]
    simp [rbtLinks, MnRbtNode.setStep, MnRbtNode.setChild]
  · intro b l first was
    obtain ⟨q, cell, rfl⟩ := pair_inv was
    rw [Links.pair_eq (step.beyond b q (after.trans first) cell)]
    simp [rbtLinks, MnRbtNode.setStep]
  · intro b member notLast notFirst
    rw [Links.pair, Links.pair, step.others b]
    · rintro rfl
      simp at notLast
    · rintro rfl
      exact fresh (by simpa using member)
    · exact fun edge => notFirst (after.symm.trans edge)

theorem attach_leaf_ok (valid : Valid s (plug (f :: path) .nil)) (cell : s.heap.lookup a = some n)
    (unlinked : n.Unlinked) (fresh : a ∉ rbtLayout.addrs (plug (f :: path) .nil))
    (inside : Between (Label.cut n.key) (f :: path)) :
    ∃ next, insertBeside f.side (some f.label.addr) (some a) s = .ok ((), next) ∧
      Valid next (plug (f :: path) (.node ⟨a, n.key, true⟩ .nil .nil)) ∧
      ∀ b, b ∉ rbtLayout.addrs (plug (f :: path) .nil) → b ≠ a →
        next.heap.lookup b = s.heap.lookup b := by
  obtain ⟨m, record⟩ := valid.holds.represents.ancestor
  have parent : s.heap.lookup f.label.addr = some m := record.cell
  have top : f.label.addr ∈ rbtLayout.addrs (plug (f :: path) .nil) := by
    rw [rbtLayout.mem_addrs_cons]
    exact Or.inr (Or.inl rfl)
  have apart : a ≠ f.label.addr := fun same => fresh (same ▸ top)
  have around : ∀ b, m.step f.side = some b →
      b ∈ rbtLayout.addrs (plug (f :: path) .nil) ∧ b ≠ f.label.addr := by
    cases f.side
    · exact (valid.chain.around top parent).1
    · exact (valid.chain.around top parent).2
  obtain ⟨next, run, step⟩ := insert_beside_ok f.side parent cell apart
    (fun b edge => ⟨(around b edge).2, fun same => fresh (same ▸ (around b edge).1),
      valid.chain.cell (around b edge).1⟩)
  refine ⟨next, run, ⟨⟨?_, ?_⟩, ?_, ?_, ?_⟩, ?_⟩
  · exact beside_represents valid.holds.represents fresh parent unlinked step
  · rw [step.root_eq, valid.holds.root_eq]
    exact rbtLayout.root_plug_cons f path _ _
  · exact ordered_insert valid.ordered inside (fun w greater => (cut_gt _ w).mp greater)
      (fun w less => (cut_lt _ w).mp less)
  · have chain := valid.chain
    obtain ⟨side, v, sibling⟩ := f
    cases side
    · rw [rbtLayout.addrs_plug_eq] at chain fresh ⊢
      exact chain_before chain fresh parent step
    · have front : ∀ t, rbtLayout.addrs (plug (⟨.right, v, sibling⟩ :: path) t) =
          ((before path).map rbtLayout.addr ++ rbtLayout.addrs sibling) ++ v.addr ::
            (rbtLayout.addrs t ++ (after path).map rbtLayout.addr) := by
        intro t
        rw [rbtLayout.addrs_plug_eq]
        simp [before, after, Layout.addrs]
      rw [front] at chain fresh ⊢
      exact chain_after chain fresh parent step
  · rw [step.nelem_eq, valid.nelem_eq, ← inorder_length, ← inorder_length, inorder_plug, inorder_plug]
    simp
    omega
  · intro b outside other
    exact step.others b (fun same => outside (same ▸ top)) other (fun edge => outside (around b edge).1)

end Leaf

section Insert

variable {s : RbtStore} {t : RbtTree} {path : RbtPath} {a : Addr} {n : MnRbtNode}

/-- The end of the descent. -/
def insertAt (a : Addr) : RbtPath × RbtTree → RbtProg (Int × Ptr)
  | (_, .node w _ _) => pure (0, some w.addr)
  | (f :: _, .nil) => do
      insertBeside f.side (some f.label.addr) (some a)
      return (if f.side = .left then -1 else 1, none)
  | ([], .nil) => do
      rbtAssign (setVars fun t => { t with root := some a }) (some a)
      setVars fun t => { t with head := some a, tail := some a }
      return (-2, none)

theorem insert_descend_ok (fuel : Nat) (tree : Holds s (plug path t)) (place : t ≠ .nil ∨ path = [])
    (cell : s.heap.lookup a = some n) (enough : t.numNodes < fuel) :
    _rbtInsert fuel (rbtLayout.root t) (some a) s =
      insertAt a (descend (Label.cut n.key) path t) s := by
  induction t generalizing path fuel with
  | nil =>
      obtain rfl := place.resolve_left (by simp)
      cases fuel with
      | zero => omega
      | succ fuel => rfl
  | node v l r left right =>
      cases fuel with
      | zero => omega
      | succ fuel =>
          simp only [BinaryTree.numNodes] at enough
          obtain ⟨m, source, -, leftEq, rightEq, keyEq, -⟩ := tree.focus
          rw [rbtLayout.root_node, layout_addr, _rbtInsert, if_neg (by simp),
            bind_ok (load_ok cell), bind_ok (load_ok source), keyEq, leftEq, rightEq, descend]
          cases order : v.cut n.key
          · rw [if_pos ((cut_lt n.key v).mp order)]
            cases l with
            | nil => rfl
            | node w below above => exact left fuel tree (Or.inl (by simp)) (by omega)
          · have same := (cut_eq n.key v).mp order
            rw [if_neg (by simp [same]), if_neg (by simp [same])]
            rfl
          · have greater := (cut_gt n.key v).mp order
            rw [if_neg (UInt64.not_lt.mpr (UInt64.le_of_lt greater)), if_pos greater]
            cases r with
            | nil => rfl
            | node w below above => exact right fuel tree (Or.inl (by simp)) (by omega)

theorem insert_empty_ok (valid : Valid s .nil) (cell : s.heap.lookup a = some n)
    (unlinked : n.Unlinked) :
    ∃ next, insertAt a ([], .nil) s = .ok ((-2, none), next) ∧
      Valid next (.node ⟨a, n.key, true⟩ .nil .nil) ∧
      ∀ b, b ≠ a → next.heap.lookup b = s.heap.lookup b := by
  have parent : n.setRed.parent = none := unlinked.parent
  have left : n.setRed.left = none := unlinked.left
  have right : n.setRed.right = none := unlinked.right
  have prev : n.setRed.prev = none := unlinked.prev
  have further : n.setRed.next = none := unlinked.next
  refine ⟨{ s with
      heap := s.heap.insert a n.setRed
      vars := { root := some a, head := some a, tail := some a, nelem := s.vars.nelem + 1 } },
    ?_, ⟨⟨⟨⟨⟨n.setRed, Finmap.lookup_insert _, parent, left, right, rfl, set_red_isRed n⟩, trivial,
      trivial⟩, by simp⟩, rfl⟩, ?_, ?_, ?_⟩, ?_⟩
  · simp only [insertAt, rbtAssign, rbtSetRed, run_bind, update, setVars, cell]
    rfl
  · simp [Ordered]
  · refine ⟨rfl, rfl, ?_, by simp⟩
    intro front b back whole
    obtain ⟨rfl, rfl, rfl⟩ : front = [] ∧ b = a ∧ back = [] := by
      cases front <;> simp_all
    rw [Links.pair_eq (Finmap.lookup_insert _)]
    exact congrArg some (Prod.ext prev further)
  · simp [valid.nelem_eq]
  · intro b other
    exact Finmap.lookup_insert_of_ne _ other

theorem ordered_iff (t : RbtTree) :
    Ordered Label.lt t ↔ (idents t).Pairwise fun x y => x.2 < y.2 := by
  rw [idents, List.pairwise_map]
  rfl

theorem idents_length (t : RbtTree) : (idents t).length = t.numNodes := by
  rw [idents, List.length_map, inorder_length]

theorem pair_of_threaded {h next : Heap MnRbtNode} {b : Addr}
    (same : (next.lookup b).map MnRbtNode.threaded = (h.lookup b).map MnRbtNode.threaded) :
    rbtLinks.pair next b = rbtLinks.pair h b := by
  have kept := congrArg (Option.map fun x : Ptr × Ptr × UInt64 × Ptr => (x.1, x.2.1)) same
  rw [Option.map_map, Option.map_map] at kept
  exact kept

theorem Valid.reshape {next : RbtStore} {u : RbtTree} (valid : Valid s t)
    (step : Reshapes s t next u) : Valid next u := by
  refine ⟨step.holds, ?_, ?_, ?_⟩
  · rw [ordered_iff, step.idents_eq, ← ordered_iff]
    exact valid.ordered
  · rw [addrs_eq, step.idents_eq, ← addrs_eq, step.within.head_eq, step.within.tail_eq]
    exact valid.chain.frame (fun b _ => pair_of_threaded (step.within.threaded b))
  · rw [step.within.nelem_eq, valid.nelem_eq, ← idents_length, ← idents_length, step.idents_eq]

/-- The label of a node that is inserted. -/
def leaf (a : Addr) (key : UInt64) : RbtTree := .node ⟨a, key, true⟩ .nil .nil

theorem insert_found_ok {w : Label} {l r : RbtTree} (valid : Valid s t)
    (cell : s.heap.lookup a = some n) (found : (descend (Label.cut n.key) [] t).2 = .node w l r) :
    rbtInsert (some a) s = .ok ((0, some w.addr), s) := by
  have run := insert_descend_ok s.bound (show Holds s (plug [] t) from valid.holds) (Or.inr rfl) cell
    (Nat.lt_succ_of_le valid.holds.represents.size_le)
  rw [← valid.holds.root_eq, ← Prod.mk.eta (p := descend _ _ _), found] at run
  rw [rbtInsert, bind_ok (a := s.bound) (by rfl), bind_ok (a := s.vars) (by rfl), bind_ok run]
  rfl

theorem insert_new_ok (valid : Valid s t) (cell : s.heap.lookup a = some n) (unlinked : n.Unlinked)
    (fresh : a ∉ rbtLayout.addrs t) (absent : (descend (Label.cut n.key) [] t).2 = .nil) :
    ∃ res next, rbtInsert (some a) s = .ok ((res, none), next) ∧ res ≠ 0 ∧
      Valid next (fixInsert (descend (Label.cut n.key) [] t).1 (leaf a n.key)) ∧
      idents (fixInsert (descend (Label.cut n.key) [] t).1 (leaf a n.key)) =
        idents (plug (descend (Label.cut n.key) [] t).1 (leaf a n.key)) ∧
      ∀ b, b ∉ rbtLayout.addrs t → b ≠ a → next.heap.lookup b = s.heap.lookup b := by
  have run := insert_descend_ok s.bound (show Holds s (plug [] t) from valid.holds) (Or.inr rfl) cell
    (Nat.lt_succ_of_le valid.holds.represents.size_le)
  have whole := plug_descend (Label.cut n.key) [] t
  have inside := between_descend (cut_respects n.key) valid.ordered (Between.root _)
  rw [← valid.holds.root_eq, ← Prod.mk.eta (p := descend _ _ _), absent] at run
  rw [absent, plug_nil] at whole
  generalize (descend (Label.cut n.key) [] t).1 = path at run whole inside ⊢
  subst whole
  have placed : ∃ res next, insertAt a (path, .nil) s = .ok ((res, none), next) ∧ res ≠ 0 ∧
      Valid next (plug path (leaf a n.key)) ∧
      ∀ b, b ∉ rbtLayout.addrs (plug path .nil) → b ≠ a → next.heap.lookup b = s.heap.lookup b := by
    cases path with
    | nil =>
        obtain ⟨next, stored, step, others⟩ := insert_empty_ok valid cell unlinked
        exact ⟨-2, next, stored, by decide, step, fun b _ => others b⟩
    | cons f path =>
        obtain ⟨next, stored, step, others⟩ := attach_leaf_ok valid cell unlinked fresh inside
        exact ⟨_, next, bind_ok stored _, by split <;> decide, step, others⟩
  obtain ⟨res, s1, stored, nonzero, valid1, others1⟩ := placed
  have enough : path.length < s1.bound := by
    have size := valid1.holds.represents.size_le
    have length := path_length_le path (leaf a n.key)
    exact Nat.lt_succ_of_le (by omega)
  obtain ⟨s2, fixed, step⟩ := adjust_on_insert_ok s1.bound valid1.holds (a := a) rfl enough
  refine ⟨res, s2, ?_, nonzero, valid1.reshape step, step.idents_eq, ?_⟩
  · rw [rbtInsert, bind_ok (a := s.bound) (by rfl), bind_ok (a := s.vars) (by rfl),
      bind_ok (run.trans stored)]
    simp only [nonzero, if_false]
    rw [bind_ok (a := s1.bound) (by rfl), bind_ok fixed]
    rfl
  · intro b outside other
    rw [step.within.outside b ?_, others1 b outside other]
    rw [rbtLayout.mem_addrs_plug] at outside ⊢
    simpa [leaf, other] using outside

end Insert

end MnCommon.Rbt
