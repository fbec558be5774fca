import MnCommon.Pbtrie.Layout

/-! What `pbtrie_init`, `pbtrie_add_node` and `pbtrie_remove_node` do to a trie. -/

namespace MnCommon.Pbtrie

open Memory Trees Tries Prefix

/-- One record is overwritten, or comes into being. -/
structure Writes (s next : PbtrieStore) (a : Addr) (n : MnPbtrieNode) : Prop where
  cells : ∀ b, next.heap.lookup b = if b = a then some n else s.heap.lookup b
  vars : next.vars = s.vars

/-- The contents that `pbtrie_node_init` gives to a node. -/
def blank : MnPbtrieNode :=
  { xmask := uint64Max, keyPrefix := 0, value := none, parent := none, child := fun _ => none }

variable {s next : PbtrieStore} {T t l r : BinaryTree Label} {v w x : Label} {n m : MnPbtrieNode} {a b : Addr}
  {key : UInt64} {path : List (Frame Label)} {f : Frame Label} {side : Side} {i : Nat}

theorem setChild_same (n : MnPbtrieNode) (side : Side) (target : Ptr) : (n.setChild side target).child side = target :=
  Function.update_self _ _ _

theorem setChild_other (n : MnPbtrieNode) (side : Side) (target : Ptr) :
    (n.setChild side target).child side.opposite = n.child side.opposite :=
  Function.update_of_ne (opposite_ne side) _ _

theorem Writes.here (writes : Writes s next a n) : next.heap.lookup a = some n := by
  rw [writes.cells, if_pos rfl]

theorem Writes.apart (writes : Writes s next a n) (other : b ≠ a) : next.heap.lookup b = s.heap.lookup b := by
  rw [writes.cells, if_neg other]

theorem writes_insert (s : PbtrieStore) (tick : Nat) (a : Addr) (n : MnPbtrieNode) :
    Writes s ⟨s.heap.insert a n, s.vars, tick⟩ a n := by
  refine ⟨fun b => ?_, rfl⟩
  split
  · rename_i same
    rw [same, Finmap.lookup_insert]
  · rename_i other
    exact Finmap.lookup_insert_of_ne _ other

theorem update_writes (g : MnPbtrieNode → MnPbtrieNode) (cell : s.heap.lookup a = some n) :
    ∃ next, update (some a) g s = .ok ((), next) ∧ Writes s next a (g n) :=
  ⟨_, update_ok g cell, writes_insert s s.tick a (g n)⟩

theorem node_new_spec (system : Allocator MnPbtrieNode) (s : PbtrieStore) :
    ∃ a next, pbtrieNodeNew system s = .ok (some a, next) ∧ s.heap.lookup a = none ∧ Writes s next a blank := by
  let a := system.pick s.tick s.heap.keys
  have fresh : a ∉ s.heap.keys := system.pick_fresh s.tick s.heap.keys
  have first := writes_insert s (s.tick + 1) a (system.junk s.tick)
  have made : alloc system s = .ok (some a, ⟨s.heap.insert a (system.junk s.tick), s.vars, s.tick + 1⟩) := rfl
  rcases update_writes (fun _ => blank) first.here with ⟨next, run, second⟩
  have init : pbtrieNodeInit (some a) ⟨s.heap.insert a (system.junk s.tick), s.vars, s.tick + 1⟩ = .ok ((), next) := run
  refine ⟨a, next, ?_, ?_, fun b => ?_, second.vars.trans first.vars⟩
  · rw [pbtrieNodeNew, bind_ok made, bind_ok init]
    rfl
  · rw [Finmap.lookup_eq_none, ← Finmap.mem_keys]
    exact fresh
  · rw [second.cells]
    split
    · rfl
    · rename_i other
      exact first.apart other

/-- Where a new key and the node at which the search for it ended part. -/
structure Splits (key : UInt64) (p : Prefix) (n : MnPbtrieNode) (i : Nat) : Prop where
  mask_eq : xmask n.keyPrefix key = mask i
  parts : Parts key.toNat p i
  proper : i ≤ 63
  agree : n.keyPrefix.toNat / 2 ^ i = key.toNat / 2 ^ i
  sides : nextSide n.keyPrefix.toNat (cut n.keyPrefix.toNat i) = (nextSide key.toNat (cut key.toNat i)).opposite

theorem Holds.splits (holds : Holds s (plug (f :: path) (.node v l r)))
    (towards : Towards Prod.snd key.toNat (f :: path)) (outside : ¬ v.2.Covers key.toNat)
    (cell : s.heap.lookup v.1 = some n) (bears : Bears v.2 n) : ∃ i, Splits key v.2 n i := by
  have there : BinaryTree.node v l r ≠ .nil := nofun
  rcases holds.patricia.ancestor there with ⟨deep, hangs, -⟩
  rcases towards f List.mem_cons_self with ⟨covers, same⟩
  have looks : Looks s f.label.2 f.side v n := ⟨cell, bears, hangs⟩
  have short : flsl (n.keyPrefix ^^^ key) < f.label.2.free :=
    (Nat.le_max_left _ _).trans_lt (looks.near deep covers same.symm)
  have fits : f.label.2.free ≤ 64 := by
    rcases holds.rep.ancestor with ⟨p, record⟩
    exact record.holds.fits
  have below : v.2.free < flsl (n.keyPrefix ^^^ key) := by
    by_contra low
    exact outside ((bears.level_le_iff (Below.refl v.2)).mp (Nat.max_le.mpr ⟨Nat.le_of_not_lt low, le_rfl⟩))
  have agree := flsl_xor_le_iff.mp (le_refl (flsl (n.keyPrefix ^^^ key)))
  have part : n.keyPrefix.toNat / 2 ^ (flsl (n.keyPrefix ^^^ key) - 1) ≠
      key.toNat / 2 ^ (flsl (n.keyPrefix ^^^ key) - 1) := by
    intro same
    have less := flsl_xor_le_iff.mpr same
    omega
  refine ⟨flsl (n.keyPrefix ^^^ key), rfl, ⟨below, ?_, ?_⟩, by omega, agree,
    nextSide_opposite (Nat.zero_lt_of_lt below) agree part⟩
  · rw [← agree]
    exact bears.div below.le
  · intro same
    apply part
    rw [same]
    exact bears.div (Nat.le_sub_one_of_lt below)

/-- The records of a trie lie on the heap. -/
theorem mem_addrs_cell (rep : pbtrieLayout.Represents s.heap T) (member : a ∈ pbtrieLayout.addrs T) :
    s.heap.lookup a ≠ none := by
  rcases List.mem_map.mp member with ⟨v, inside, rfl⟩
  rcases (mem_inorder_iff v T).mp inside with ⟨path, l, r, rfl⟩
  rcases record_at rep with ⟨n, cell, -⟩
  exact fun gone => Option.some_ne_none n (cell.symm.trans gone)

/-- The node that comes between a node and its parent. -/
def branchNode (split parent : Addr) (keyPrefix : UInt64) (i : Nat) (side : Side) : MnPbtrieNode :=
  { blank with xmask := mask i, keyPrefix := keyPrefix &&& mask i, parent := some parent }.setChild side (some split)

def leafNode (parent : Addr) (key : UInt64) : MnPbtrieNode := { blank with parent := some parent, keyPrefix := key }

theorem leafNode_bears (parent : Addr) (key : UInt64) : Bears ⟨key.toNat, 0⟩ (leafNode parent key) :=
  ⟨Nat.zero_le _, mask_zero.symm, (Nat.mul_one _).symm⟩

/-- The parent turns from the old child to the new one, on whichever side the old one is. -/
theorem turn_child {p : MnPbtrieNode} {old new : Ptr} (here : p.child side = old)
    (only : p.child .left = old → side = .left)
    (run : update (some a) (fun x => x.setChild side new) s = .ok ((), next)) (more : Unit → PbtrieProg Ptr) :
    (if p.child .left = old then update (some a) (fun x => x.setChild .left new) >>= more
      else check (p.child .right == old) >>= fun _ => update (some a) (fun x => x.setChild .right new) >>= more) s =
      more () next := by
  cases side with
  | left =>
      rw [if_pos here]
      exact bind_ok run more
  | right =>
      have other : ¬ p.child .left = old := fun left => by cases only left
      rw [if_neg other, here, beq_self_eq_true, check_bind]
      exact bind_ok run more

theorem node_split_spec (system : Allocator MnPbtrieNode)
    (rep : pbtrieLayout.Represents s.heap (plug (f :: path) (.node v l r))) (cell : s.heap.lookup v.1 = some n)
    (splits : Splits key v.2 n i) (bears : Bears v.2 n) :
    ∃ a next, pbtrieNodeSplit system (some v.1) key s = .ok (some a, next) ∧ next.vars = s.vars ∧
      pbtrieLayout.Represents next.heap
        (plug (⟨(nextSide key.toNat (cut key.toNat i)).opposite, (a, cut key.toNat i), .nil⟩ :: f :: path)
          (.node v l r)) := by
  rcases rep.ancestor with ⟨p, above⟩
  have top : s.heap.lookup f.label.1 = some p := above.cell
  rcases node_new_spec system s with ⟨a, s1, new, free, first⟩
  have parent : n.parent = some f.label.1 := by
    rcases record_at rep with ⟨m, same, parent_eq, -⟩
    rw [Option.some.inj (cell.symm.trans same)]
    exact parent_eq
  have distinct := ((pbtrieLayout.distinct_plug (f :: path) _).mp rep.distinct).2.2
  have apart : v.1 ≠ f.label.1 := fun same =>
    distinct f.label.1 ((pbtrieLayout.mem_pathAddrs_cons f path _).mpr (.inl rfl))
      (same ▸ pbtrieLayout.root_mem _ _ rfl)
  have new_v : v.1 ≠ a := fun same => Option.some_ne_none n (cell.symm.trans (same ▸ free))
  have new_f : f.label.1 ≠ a := fun same => Option.some_ne_none p (top.symm.trans (same ▸ free))
  have cell1 := (first.apart new_v).trans cell
  rcases update_writes (fun x => { x with keyPrefix := n.keyPrefix &&& mask i }) first.here with ⟨s2, run2, second⟩
  rcases update_writes (fun x => { x with xmask := mask i }) second.here with ⟨s3, run3, third⟩
  rcases update_writes (fun x => { x with parent := some f.label.1 }) third.here with ⟨s4, run4, fourth⟩
  have top4 : s4.heap.lookup f.label.1 = some p := by
    rw [fourth.apart new_f, third.apart new_f, second.apart new_f, first.apart new_f, top]
  rcases update_writes (fun x => x.setChild f.side (some a)) top4 with ⟨s5, run5, fifth⟩
  have cell5 : s5.heap.lookup v.1 = some n := by
    rw [fifth.apart apart, fourth.apart new_v, third.apart new_v, second.apart new_v, cell1]
  have new5 := (fifth.apart new_f.symm).trans fourth.here
  rcases update_writes (fun x => x.setChild (nextSide key.toNat (cut key.toNat i)).opposite (some v.1)) new5
    with ⟨s6, run6, sixth⟩
  have cell6 := (sixth.apart new_v).trans cell5
  rcases update_writes (fun x => { x with parent := some a }) cell6 with ⟨s7, run7, seventh⟩
  have deep := Nat.zero_lt_of_lt splits.parts.below
  have small : i ≤ 64 := splits.proper.trans (Nat.le_succ 63)
  have strict : decide (mask i < n.xmask) = true := by
    rw [bears.xmask_eq, decide_eq_true_iff, mask_lt_iff small bears.fits]
    exact splits.parts.below
  have chosen : childsel (mask i) (n.keyPrefix &&& mask i) n.keyPrefix =
      (nextSide key.toNat (cut key.toNat i)).opposite := by
    rw [childsel_eq splits.proper deep (and_mask _ small), splits.sides]
  have tells := rep.side_iff rfl above.cell
  refine ⟨a, s7, ?_, ?_, ?_⟩
  · rw [pbtrieNodeSplit, bind_ok (load_ok cell)]
    simp only [splits.mask_eq, strict, parent, Option.isSome_some, check_bind]
    rw [bind_ok new, bind_ok (load_ok cell1), bind_ok run2, bind_ok run3, bind_ok run4, bind_ok (load_ok top4)]
    apply (turn_child ((tells f.side).mpr rfl).symm (fun left => (tells .left).mp left.symm) run5 _).trans
    rw [bind_ok (load_ok new5), bind_ok (load_ok cell5)]
    simp only [chosen]
    rw [bind_ok run6, bind_ok run7]
    rfl
  · rw [seventh.vars, sixth.vars, fifth.vars, fourth.vars, third.vars, second.vars, first.vars]
  · have final : s7.heap.lookup a = some (branchNode v.1 f.label.1 n.keyPrefix i
        (nextSide key.toNat (cut key.toNat i)).opposite) := (seventh.apart new_v.symm).trans sixth.here
    have final_f : s7.heap.lookup f.label.1 = some (p.setChild f.side (some a)) := by
      rw [seventh.apart apart.symm, sixth.apart new_f, fifth.here]
    have fresh : pbtrieLayout.addr (a, cut key.toNat i) ∉ pbtrieLayout.addrs (plug (f :: path) (.node v l r)) :=
      fun member => mem_addrs_cell rep member free
    apply rep.interpose fresh above.cell final_f rfl (setChild_same _ _ _) (setChild_other _ _ _)
      fun held => ⟨held.1, held.2, held.3⟩
    · have held : Bears (cut key.toNat i) (branchNode v.1 f.label.1 n.keyPrefix i
          (nextSide key.toNat (cut key.toNat i)).opposite) := by
        refine ⟨small, rfl, ?_⟩
        change (n.keyPrefix &&& mask i).toNat = _
        rw [and_mask _ small, splits.agree]
        rfl
      exact ⟨final, rfl, setChild_same _ _ _, setChild_other _ _ _, held⟩
    · intro b m atRoot old
      obtain rfl : v.1 = b := Option.some.inj atRoot
      obtain rfl : n = m := Option.some.inj (cell.symm.trans old)
      exact ⟨_, seventh.here, rfl, fun _ => rfl, fun _ held => ⟨held.1, held.2, held.3⟩⟩
    · intro b member other notRoot
      have new_b : b ≠ a := fun same => mem_addrs_cell rep member (same ▸ free)
      have new_root : b ≠ v.1 := fun same => notRoot (same ▸ rfl)
      rw [seventh.apart new_root, sixth.apart new_b, fifth.apart other, fourth.apart new_b, third.apart new_b,
        second.apart new_b, first.apart new_b]

/-- The labels of a fork are those of the old subtree and two more. -/
theorem mem_fork (key : Nat) (level : Nat) {y : Label} :
    y ∈ inorder (plug path (fork key w x t level)) ↔ y ∈ inorder (plug path t) ∨ y = w ∨ y = x := by
  rw [inorder_plug, inorder_plug, fork, attach_eq_node]
  cases nextSide key (cut key level) with
  | left =>
      simp only [Side.pick, opposite_left, inorder_node, inorder_nil, List.nil_append, List.mem_append, List.mem_cons,
        List.not_mem_nil, or_false]
      tauto
  | right =>
      simp only [Side.pick, opposite_right, inorder_node, inorder_nil, List.nil_append, List.mem_append, List.mem_cons,
        List.not_mem_nil, or_false]
      tauto

/-- What `pbtrie_add_node` does when the branch is there. -/
def attachLeaf (system : Allocator MnPbtrieNode) (key : UInt64) (newParent : Ptr) : PbtrieProg Ptr := do
  let node ← pbtrieNodeNew system
  update node fun x => { x with parent := newParent }
  update node fun x => { x with keyPrefix := key }
  let n ← load newParent
  let idx := childsel n.xmask n.keyPrefix key
  check (n.child idx == none)
  update newParent fun x => x.setChild idx node
  return node

theorem add_node_eq (system : Allocator MnPbtrieNode) (key : UInt64) :
    pbtrieAddNode system key = (do
      let split ← pbtrieNodeFindAt key (← bound) (← vars).root
      let newParent ← pbtrieNodeSplit system split key
      attachLeaf system key newParent) := rfl

/-- The branch gets a leaf where it has no child. -/
theorem attach_leaf_spec (system : Allocator MnPbtrieNode)
    (opened : pbtrieLayout.Represents s.heap (plug (⟨side, w, t⟩ :: path) .nil)) (cell : s.heap.lookup w.1 = some m)
    (chosen : childsel m.xmask m.keyPrefix key = side) (hole : m.child side = none) :
    ∃ a next, attachLeaf system key (some w.1) s = .ok (some a, next) ∧ next.vars = s.vars ∧
      pbtrieLayout.Represents next.heap (plug (⟨side, w, t⟩ :: path) (.node (a, ⟨key.toNat, 0⟩) .nil .nil)) := by
  rcases node_new_spec system s with ⟨a, s1, made, free, first⟩
  rcases update_writes (fun x => { x with parent := some w.1 }) first.here with ⟨s2, run2, second⟩
  rcases update_writes (fun x => { x with keyPrefix := key }) second.here with ⟨s3, run3, third⟩
  have apart : w.1 ≠ a := fun same => Option.some_ne_none m (cell.symm.trans (same ▸ free))
  have cell3 : s3.heap.lookup w.1 = some m := by
    rw [third.apart apart, second.apart apart, first.apart apart, cell]
  rcases update_writes (fun x => x.setChild side (some a)) cell3 with ⟨s4, run4, fourth⟩
  have fresh : pbtrieLayout.addr (a, ⟨key.toNat, 0⟩) ∉ pbtrieLayout.addrs (plug (⟨side, w, t⟩ :: path) .nil) :=
    fun member => mem_addrs_cell opened member free
  have grafted : pbtrieLayout.Represents ((s.heap.insert w.1 (m.setChild side (some a))).insert a (leafNode w.1 key))
      (plug (⟨side, w, t⟩ :: path) (.node (a, ⟨key.toNat, 0⟩) .nil .nil)) :=
    opened.graft fresh cell rfl (setChild_same m _ (some a)) (setChild_other m _ _)
      (fun held => ⟨held.1, held.2, held.3⟩) rfl (fun _ => rfl) (leafNode_bears w.1 key)
  refine ⟨a, s4, ?_, ?_, ?_⟩
  · rw [attachLeaf, bind_ok made, bind_ok run2, bind_ok run3, bind_ok (load_ok cell3)]
    simp only [chosen, hole]
    rw [beq_self_eq_true, check_bind, bind_ok run4]
    rfl
  · rw [fourth.vars, third.vars, second.vars, first.vars]
  · apply grafted.frame
    intro b _
    by_cases leaf_b : b = a
    · rw [leaf_b, fourth.apart apart.symm, third.here, Finmap.lookup_insert]
      rfl
    · rw [Finmap.lookup_insert_of_ne _ leaf_b]
      by_cases branch_b : b = w.1
      · rw [branch_b, fourth.here, Finmap.lookup_insert]
      · rw [Finmap.lookup_insert_of_ne _ branch_b, fourth.apart branch_b, third.apart leaf_b, second.apart leaf_b,
          first.apart leaf_b]

theorem add_node_spec (system : Allocator MnPbtrieNode) (holds : Holds s T) (new : key.toNat ∉ keysOf Prod.snd T) :
    ∃ a next U w, pbtrieAddNode system key s = .ok (some a, next) ∧ next.vars = s.vars ∧ Holds next U ∧
      0 < w.2.free ∧ ∀ y, y ∈ inorder U ↔ y ∈ inorder T ∨ y = w ∨ y = (a, ⟨key.toNat, 0⟩) := by
  rcases holds.find_at key with ⟨f, path, v, l, r, ends, found⟩
  have missed := fun same => new ((ends.found_iff holds.patricia).mpr same)
  rcases ends with ⟨rfl, towards, last⟩
  rcases record_at holds.rep with ⟨n, cell, -, -, bears⟩
  have outside : ¬ v.2.Covers key.toNat := by
    intro covers
    have bottom := last.resolve_right (not_not.mpr covers)
    apply missed
    rw [covers.eq_cut, bottom, cut_zero]
  rcases holds.splits towards outside cell bears with ⟨i, splits⟩
  rcases node_split_spec system holds.rep cell splits bears with ⟨c, s1, split, vars1, rep1⟩
  have deep := Nat.zero_lt_of_lt splits.parts.below
  rcases rep1.ancestor with ⟨m, above⟩
  have branch : s1.heap.lookup c = some m := above.cell
  let w : Label := (c, cut key.toNat i)
  have opened : pbtrieLayout.Represents s1.heap
      (plug (⟨nextSide key.toNat (cut key.toNat i), w, .node v l r⟩ :: f :: path) .nil) := by
    rw [plug_flip, opposite_opposite] at rep1
    exact rep1
  have chosen : childsel m.xmask m.keyPrefix key = nextSide key.toNat (cut key.toNat i) := by
    have held : Bears (cut key.toNat i) m := above.holds
    rw [held.xmask_eq]
    exact childsel_eq splits.proper deep held.prefix_eq
  have hole : m.child (nextSide key.toNat (cut key.toNat i)) = none := by
    have far := above.far_eq
    rw [opposite_opposite] at far
    exact far
  rcases attach_leaf_spec system opened branch chosen hole with ⟨a, s2, attached, vars2, rep2⟩
  have there : BinaryTree.node v l r ≠ .nil := nofun
  have inner : Patricia Prod.snd (.node v l r) := holds.patricia.plug there
  rcases holds.patricia.ancestor there with ⟨room, hangs, -⟩
  rcases towards f List.mem_cons_self with ⟨covers, same⟩
  have below : (f.label.2.child (digitOf f.side)).Covers key.toNat := by
    rw [covers_child_iff room, same, nextSide, digitOf_sideOf]
    exact ⟨covers, rfl⟩
  let x : Label := (a, ⟨key.toNat, 0⟩)
  refine ⟨a, s2, plug (f :: path) (fork key.toNat w x (.node v l r) i), w, ?_, vars2.trans vars1, ⟨?_, ?_, ?_, ?_⟩,
    deep, fun y => mem_fork key.toNat i⟩
  · have known : (vars : PbtrieProg MnPbtrie) s = .ok (s.vars, s) := rfl
    rw [add_node_eq, bound_bind, bind_ok known, bind_ok found, bind_ok split, attached]
  · rw [fork_flip]
    exact rep2
  · rw [vars2, vars1, holds.root_eq]
    exact pbtrieLayout.root_plug_cons f path _ _
  · exact holds.patricia.replace there (splits.parts.fork_patricia inner rfl rfl)
      (splits.parts.fork_hangs hangs below rfl)
  · rcases holds.top with ⟨top, l', r', whole⟩
    exact ⟨top, plug_cons_root ⟨l', r', whole⟩⟩

/-- A key cannot be added twice. -/
theorem add_present_aborts (system : Allocator MnPbtrieNode) (holds : Holds s T) (old : key.toNat ∈ keysOf Prod.snd T) :
    pbtrieAddNode system key s = .error .assertion := by
  rcases holds.find_at key with ⟨f, path, v, l, r, ends, found⟩
  have same := (ends.found_iff holds.patricia).mp old
  rcases ends with ⟨rfl, -, -⟩
  rcases record_at holds.rep with ⟨n, cell, -, -, bears⟩
  rw [same] at bears
  have prefix_eq : n.keyPrefix = key := UInt64.toNat_inj.mp (bears.prefix_eq.trans (Nat.mul_one _))
  have equal : xmask n.keyPrefix key = n.xmask := by
    rw [prefix_eq, bears.xmask_eq, xmask_eq, UInt64.xor_self]
    rfl
  have strict : decide (xmask n.keyPrefix key < n.xmask) = false := by
    rw [equal, decide_eq_false_iff_not]
    exact UInt64.lt_irrefl _
  have known : (vars : PbtrieProg MnPbtrie) s = .ok (s.vars, s) := rfl
  rw [pbtrieAddNode, bound_bind, bind_ok known, bind_ok found, run_bind, pbtrieNodeSplit, bind_ok (load_ok cell)]
  simp only [strict]
  rfl

theorem init_sentinel_spec (system : Allocator MnPbtrieNode) (cell : s.heap.lookup b = some n) (key : UInt64)
    (side : Side) :
    ∃ a next, initSentinel system (some b) key side s = .ok (some a, next) ∧ s.heap.lookup a = none ∧
      next.heap.lookup a = some (leafNode b key) ∧ next.heap.lookup b = some (n.setChild side (some a)) ∧
      (∀ c, c ≠ a → c ≠ b → next.heap.lookup c = s.heap.lookup c) ∧ next.vars = s.vars := by
  rcases node_new_spec system s with ⟨a, s1, made, free, first⟩
  have apart : b ≠ a := fun same => Option.some_ne_none n (cell.symm.trans (same ▸ free))
  rcases update_writes (fun x => { x with keyPrefix := key }) first.here with ⟨s2, run2, second⟩
  have cell2 : s2.heap.lookup b = some n := by rw [second.apart apart, first.apart apart, cell]
  rcases update_writes (fun x => x.setChild side (some a)) cell2 with ⟨s3, run3, third⟩
  have leaf3 := (third.apart apart.symm).trans second.here
  rcases update_writes (fun x => { x with parent := some b }) leaf3 with ⟨s4, run4, fourth⟩
  refine ⟨a, s4, ?_, free, fourth.here, ?_, ?_, ?_⟩
  · rw [initSentinel, bind_ok made, bind_ok run2, bind_ok run3, bind_ok run4]
    rfl
  · rw [fourth.apart apart, third.here]
  · intro c new old
    rw [fourth.apart new, third.apart old, second.apart new, first.apart new]
  · rw [fourth.vars, third.vars, second.vars, first.vars]

/-- The contents that `pbtrie_init` gives to the root. -/
def rootNode (head tail : Addr) : MnPbtrieNode :=
  ({ blank with xmask := 0, keyPrefix := 0 }.setChild .left (some head)).setChild .right (some tail)

theorem rootNode_bears (head tail : Addr) : Bears ⟨0, 64⟩ (rootNode head tail) :=
  ⟨Nat.le_refl 64, mask_full.symm, (Nat.zero_mul _).symm⟩

/-- The trie without keys: the two sentinels below the root. -/
def bareTrie (root head tail : Addr) : BinaryTree Label :=
  .node (root, ⟨0, 64⟩) (.node (head, ⟨0, 0⟩) .nil .nil) (.node (tail, ⟨uint64Max.toNat, 0⟩) .nil .nil)

theorem bareTrie_patricia (root head tail : Addr) : Patricia Prod.snd (bareTrie root head tail) := by
  have low : Below ⟨0, 0⟩ ((⟨0, 64⟩ : Prefix).child false) := below_of_covers (by decide)
  have high : Below ⟨uint64Max.toNat, 0⟩ ((⟨0, 64⟩ : Prefix).child true) := below_of_covers (by decide)
  exact ⟨⟨low, high⟩, ⟨⟨rfl, rfl⟩, trivial, trivial⟩, ⟨⟨rfl, rfl⟩, trivial, trivial⟩⟩

theorem init_spec (system : Allocator MnPbtrieNode) (s : PbtrieStore) :
    ∃ root head tail next, pbtrieInit system s = .ok ((), next) ∧ Holds next (bareTrie root head tail) ∧
      next.vars.head = some head ∧ next.vars.tail = some tail := by
  rcases node_new_spec system s with ⟨root, s1, made, -, first⟩
  let s1' : PbtrieStore := { s1 with vars := { s1.vars with root := some root } }
  have cell1 : s1'.heap.lookup root = some blank := first.here
  rcases update_writes (fun x => { x with xmask := 0 }) cell1 with ⟨s2, run2, second⟩
  rcases update_writes (fun x => { x with keyPrefix := 0 }) second.here with ⟨s3, run3, third⟩
  rcases init_sentinel_spec system third.here 0 .left with ⟨head, s4, run4, free4, leaf4, root4, -, vars4⟩
  let s4' : PbtrieStore := { s4 with vars := { s4.vars with head := some head } }
  have cell4 : s4'.heap.lookup root = _ := root4
  rcases init_sentinel_spec system cell4 uint64Max .right with ⟨tail, s5, run5, free5, leaf5, root5, kept5, vars5⟩
  have old_root : root ≠ head := fun same => Option.some_ne_none _ (third.here.symm.trans (same ▸ free4))
  have old_root' : root ≠ tail := fun same => Option.some_ne_none _ (cell4.symm.trans (same ▸ free5))
  have old_head : head ≠ tail := fun same => Option.some_ne_none _ (leaf4.symm.trans (same ▸ free5))
  have leaf5' : s5.heap.lookup head = some (leafNode root 0) := (kept5 head old_head old_root.symm).trans leaf4
  let last : PbtrieStore := { s5 with vars := { s5.vars with tail := some tail, volume := 0, nvals := 0 } }
  have set1 : (setVars fun tr => { tr with root := some root } : PbtrieProg Unit) s1 = .ok ((), s1') := rfl
  have set4 : (setVars fun tr => { tr with head := some head } : PbtrieProg Unit) s4 = .ok ((), s4') := rfl
  have root_vars : s5.vars.root = some root := by
    rw [vars5]
    change s4.vars.root = _
    rw [vars4, third.vars, second.vars]
  have head_vars : s5.vars.head = some head := by rw [vars5]
  have rep : pbtrieLayout.Represents s5.heap (bareTrie root head tail) := by
    have near : (rootNode head tail).child .left = some head :=
      (setChild_other _ .right _).trans (setChild_same _ .left _)
    have far : (rootNode head tail).child .right = some tail := setChild_same _ .right _
    constructor
    · exact ⟨⟨rootNode head tail, root5, rfl, near, far, rootNode_bears head tail⟩,
        ⟨⟨leafNode root 0, leaf5', rfl, rfl, rfl, leafNode_bears root 0⟩, trivial, trivial⟩,
        ⟨⟨leafNode root uint64Max, leaf5, rfl, rfl, rfl, leafNode_bears root uint64Max⟩, trivial, trivial⟩⟩
    · change [head, root, tail].Nodup
      simp only [List.nodup_cons, List.mem_cons, List.not_mem_nil, or_false, not_or, not_false_eq_true,
        List.nodup_nil, and_true]
      exact ⟨⟨old_root.symm, old_head⟩, old_root'⟩
  refine ⟨root, head, tail, last, ?_, ⟨rep, root_vars, bareTrie_patricia root head tail, root, _, _, rfl⟩,
    head_vars, rfl⟩
  rw [pbtrieInit, bind_ok made, bind_ok set1, bind_ok run2, bind_ok run3, bind_ok run4, bind_ok set4, bind_ok run5]
  rfl

/-- A leaf goes, and nothing takes its place. -/
theorem remove_node_spec (rep : pbtrieLayout.Represents s.heap (plug (f :: path) (.node v .nil .nil))) :
    ∃ next, pbtrieRemoveNode (some v.1) s = .ok (0, next) ∧ next.vars = s.vars ∧
      pbtrieLayout.Represents next.heap (plug (f :: path) .nil) := by
  rcases record_at rep with ⟨n, cell, parent_eq, child_eq, -⟩
  rcases rep.ancestor with ⟨p, above⟩
  have top : s.heap.lookup f.label.1 = some p := above.cell
  have parent : n.parent = some f.label.1 := parent_eq
  have tells := rep.side_iff rfl above.cell
  have distinct := ((pbtrieLayout.distinct_plug (f :: path) _).mp rep.distinct).2.2
  have outside : ∀ b ∈ pbtrieLayout.pathAddrs (f :: path), b ≠ v.1 :=
    fun b inside same => distinct b inside (same ▸ pbtrieLayout.root_mem _ _ rfl)
  have apart := outside f.label.1 ((pbtrieLayout.mem_pathAddrs_cons f path _).mpr (.inl rfl))
  have left : n.child .left = none := child_eq .left
  have right : n.child .right = none := child_eq .right
  rcases update_writes (fun x => x.setChild .left none) cell with ⟨s1, run1, first⟩
  rcases update_writes (fun x => x.setChild .right none) first.here with ⟨s2, run2, second⟩
  let s3 : PbtrieStore := { s2 with heap := s2.heap.erase v.1 }
  have freed : free (some v.1) s2 = .ok ((), s3) := free_ok second.here
  have nothing : ∀ fuel, pbtrieNodeDestroy fuel none = pure () := fun fuel => by
    cases fuel with
    | zero => rfl
    | succ fuel => rfl
  have right1 : (n.setChild .left none).child .right = none := (setChild_other n .left none).trans right
  have destroyed : pbtrieNodeDestroy s.bound (some v.1) s = .ok ((), s3) := by
    rw [Store.bound, pbtrieNodeDestroy, bind_ok (load_ok cell), left, nothing, pure_bind, bind_ok run1,
      bind_ok (load_ok first.here), right1, nothing, pure_bind, bind_ok run2]
    exact freed
  have top3 : s3.heap.lookup f.label.1 = some p := by
    rw [Finmap.lookup_erase_ne apart, second.apart apart, first.apart apart, top]
  rcases update_writes (fun x => x.setChild f.side none) top3 with ⟨s4, run4, third⟩
  refine ⟨s4, ?_, ?_, ?_⟩
  · rw [pbtrieRemoveNode, bind_ok (load_ok cell), parent, if_pos (Option.some_ne_none _), bind_ok (load_ok top)]
    cases here : f.side with
    | left =>
        rw [here] at run4
        have same : p.child .left = some v.1 := ((tells .left).mpr here).symm
        rw [if_pos same, bound_bind, bind_ok destroyed, bind_ok run4]
        rfl
    | right =>
        rw [here] at run4
        have same : p.child .right = some v.1 := ((tells .right).mpr here).symm
        have other : ¬ p.child .left = some v.1 := fun wrong => by
          rw [(tells .left).mp wrong.symm] at here
          cases here
        rw [if_neg other, same, beq_self_eq_true, check_bind, bound_bind, bind_ok destroyed, bind_ok run4]
        rfl
  · rw [third.vars]
    exact second.vars.trans first.vars
  · apply rep.prune above.cell third.here rfl (setChild_same _ _ _) (setChild_other _ _ _)
      (fun held => ⟨held.1, held.2, held.3⟩)
    intro b inside other
    have gone := outside b inside
    rw [third.apart other, Finmap.lookup_erase_ne gone, second.apart gone, first.apart gone]

end MnCommon.Pbtrie
