import MnCommon.Memory.Run
import MnCommon.Pbtrie.Updates
import MnCommon.Pbtrie.Walk

/-! Runs of a client: what the trie answers for its keys, and the order in which
they are traversed. -/

namespace MnCommon.Pbtrie

open Memory Trees Tries

/-- The nodes that the client was given, and the keys that it added and did not
remove since. -/
structure Client where
  store : PbtrieStore
  ledger : UInt64 → Ptr
  live : Finset UInt64

inductive Op where
  | add (key : UInt64)
  | remove (key : UInt64)
  deriving DecidableEq, Repr

inductive Answer where
  | node (p : Ptr)
  | code (res : Int)
  deriving DecidableEq, Repr

def Op.Adds : Op → Prop
  | .add _ => True
  | .remove _ => False

def start (system : Allocator MnPbtrieNode) (s : PbtrieStore) : Except Fault Client :=
  (pbtrieInit system s).map fun out => ⟨out.2, fun _ => none, ∅⟩

def step (system : Allocator MnPbtrieNode) : Op → Client → Except Fault (Answer × Client)
  | .add key, c => (pbtrieAddNode system key c.store).map fun out =>
      (.node out.1, ⟨out.2, Function.update c.ledger key out.1, insert key c.live⟩)
  | .remove key, c => (pbtrieRemoveNode (c.ledger key) c.store).map fun out =>
      (.code out.1, ⟨out.2, Function.update c.ledger key none, c.live.erase key⟩)

def liveStep (live : Finset UInt64) : Op → Finset UInt64
  | .add key => insert key live
  | .remove key => live.erase key

/-- Absent keys other than the sentinels are added, present ones removed. -/
def Admits (live : Finset UInt64) : Op → Prop
  | .add key => key ∉ live ∧ key ≠ 0 ∧ key ≠ uint64Max
  | .remove key => key ∈ live

def AdmitsAll (live : Finset UInt64) : List Op → Prop
  | [] => True
  | op :: ops => Admits live op ∧ AdmitsAll (liveStep live op) ops

namespace Client

def Present (c : Client) (key : UInt64) : Prop := key = 0 ∨ key = uint64Max ∨ key ∈ c.live

/-- The node that belongs to a key. -/
def node (c : Client) (key : UInt64) : Ptr :=
  if key = 0 then c.store.vars.head else if key = uint64Max then c.store.vars.tail else c.ledger key

end Client

/-- The node is a leaf that bears exactly the key. -/
def LeafOf (s : PbtrieStore) (a : Addr) (key : UInt64) : Prop :=
  ∃ n, s.heap.lookup a = some n ∧ n.xmask = uint64Max ∧ n.keyPrefix = key ∧ ∀ side, n.child side = none

/-- The callback writes down which nodes it is called for and the keys they bear. -/
def visit (node : Ptr) (seen : List (Ptr × UInt64)) : PbtrieProg (Int × List (Ptr × UInt64)) := do
  let n ← load node
  return (0, seen ++ [(node, n.keyPrefix)])

/-- Every present key is found at its own node. -/
def Finds (c : Client) : Prop :=
  ∀ key, c.Present key → pbtrieFindExact key c.store = .ok (c.node key, c.store) ∧
    ∃ a, c.node key = some a ∧ LeafOf c.store a key

/-- Both traversals visit the leaves of the present keys and nothing else, one in
ascending and the other one in descending order. -/
def Traverses (c : Client) : Prop :=
  ∃ visits, pbtrieTraverse visit [] c.store = .ok ((0, visits), c.store) ∧
    pbtrieReverse visit [] c.store = .ok ((0, visits.reverse), c.store) ∧
    visits.Pairwise (fun v w => v.2 < w.2) ∧ (∀ key, key ∈ visits.map Prod.snd ↔ c.Present key) ∧
    ∀ v ∈ visits, v.1 = c.node v.2

/-- The nodes bear the longest prefixes that their keys have in common, and those
that are not leaves have two children, one for either next digit. -/
structure Shaped (s : PbtrieStore) : Prop where
  compressed : Compressed Prod.snd (treeOf s)
  borne : ∀ v ∈ inorder (treeOf s), ∃ n, s.heap.lookup v.1 = some n ∧ Bears v.2 n

structure Good (c : Client) : Prop where
  shaped : Shaped c.store
  keys : ∀ key : UInt64, key.toNat ∈ keysOf Prod.snd (treeOf c.store) ↔ c.Present key
  finds : Finds c
  traverses : Traverses c

/-- No node but the leaves lacks a child. -/
structure Intact (c : Client) : Prop where
  forks : Full isLeaf (treeOf c.store)
  finds : Finds c
  traverses : Traverses c

/-- The call returns, and leaves such a client behind. -/
def Upholds (system : Allocator MnPbtrieNode) (P : Client → Prop) (op : Op) (c : Client) : Prop :=
  ∃ answer next, step system op c = .ok (answer, next) ∧ P next

/-- The lookup returns a node only if it is the leaf of the key, and none for a key
that is absent. -/
def Sound (c : Client) (key : UInt64) : Prop :=
  ∃ node, pbtrieFindExact key c.store = .ok (node, c.store) ∧ (∀ a, node = some a → LeafOf c.store a key) ∧
    (¬ c.Present key → node = none)

structure Tracks (c : Client) (T : BinaryTree Label) : Prop where
  holds : Holds c.store T
  keys : ∀ key : UInt64, key.toNat ∈ keysOf Prod.snd T ↔ c.Present key
  nodes : ∀ v ∈ inorder T, ∀ key : UInt64, v.2 = ⟨key.toNat, 0⟩ → c.node key = some v.1

variable {c next : Client} {s : PbtrieStore} {T l r : BinaryTree Label} {v w z : Label} {side : Side} {key : UInt64}
  {path : List (Frame Label)}

/-- A search ends at a leaf of the key, or at some other node. -/
theorem Tracks.find_exact (tracks : Tracks c T) (key : UInt64) :
    ∃ w ∈ inorder T, pbtrieFindExact key c.store = .ok (some w.1, c.store) ∧
      (c.Present key ↔ w.2 = ⟨key.toNat, 0⟩) := by
  rcases tracks.holds.find_at key with ⟨f, path, w, l, r, ends, run⟩
  refine ⟨w, (mem_inorder_iff w T).mpr ⟨_, l, r, ends.tree⟩, run, ?_⟩
  rw [← tracks.keys]
  exact ends.found_iff tracks.holds.patricia

theorem Tracks.leaf (tracks : Tracks c T) (member : v ∈ inorder T) (same : v.2 = ⟨key.toNat, 0⟩) :
    LeafOf c.store v.1 key := by
  rcases (mem_inorder_iff v T).mp member with ⟨path, l, r, tree⟩
  have rep := tracks.holds.rep
  have patricia := tracks.holds.patricia
  rw [tree] at rep patricia
  rcases record_at rep with ⟨n, cell, -, child_eq, bears⟩
  have inner : Patricia Prod.snd (.node v l r) := patricia.plug nofun
  rcases inner.bare (congrArg Prefix.free same) with ⟨rfl, rfl⟩
  rw [same] at bears
  refine ⟨n, cell, bears.xmask_eq.trans mask_zero, ?_, fun side => ?_⟩
  · exact UInt64.toNat_inj.mp (bears.prefix_eq.trans (Nat.mul_one _))
  · rw [child_eq]
    cases side with
    | left => rfl
    | right => rfl

theorem Tracks.finds (tracks : Tracks c T) : Finds c := by
  intro key present
  rcases tracks.find_exact key with ⟨w, inside, run, found⟩
  have same := found.mp present
  have own := tracks.nodes w inside key same
  exact ⟨own ▸ run, w.1, own, tracks.leaf inside same⟩

theorem Tracks.shaped (tracks : Tracks c T) : Shaped c.store := by
  have tree := tree_eq tracks.holds.rep tracks.holds.root_eq
  constructor
  · rw [tree]
    exact tracks.holds.patricia.compressed
  · rw [tree]
    intro v inside
    rcases (mem_inorder_iff v T).mp inside with ⟨path, l, r, rfl⟩
    rcases record_at tracks.holds.rep with ⟨n, cell, -, -, bears⟩
    exact ⟨n, cell, bears⟩

/-- What the callback writes down at a leaf. -/
def visited (v : Label) : Ptr × UInt64 := (some v.1, UInt64.ofNat v.2.bits)

/-- A traversal from one end of the trie to the other. -/
theorem Holds.traverse (holds : Holds s T) (side : Side) (first : (leavesAlong isLeaf side T).head? = some v)
    (last : (leavesAlong isLeaf side T).getLast? = some z) :
    traverseFrom side visit (some z.1) s.bound (some v.1) [] s =
      .ok ((0, (leavesAlong isLeaf side T).map visited), s) := by
  rcases holds with ⟨rep, -, patricia, top, l, r, rfl⟩
  have full := patricia.full
  have size := rep.size_le
  have opened : pbtrieLayout.Represents s.heap (plug [] (.node (top, ⟨0, 64⟩) l r)) := rep
  rcases node_end_spec side opened full (size.trans (Nat.le_succ _)) with ⟨path, w, rest, here, order, -⟩
  have all : leavesAlong isLeaf side (.node (top, ⟨0, 64⟩) l r) = w :: rest := by
    rw [order, leavesAhead, ahead_nil]
    exact (List.append_nil _).symm
  rw [all] at first last ⊢
  obtain rfl : w = v := Option.some.inj first
  have sub : (w :: rest).Sublist (along side (.node (top, ⟨0, 64⟩) l r)) := all ▸ List.filter_sublist
  have same : (along side (.node (top, ⟨0, 64⟩) l r)).Perm (inorder (.node (top, ⟨0, 64⟩) l r)) := by
    cases side with
    | left => exact List.reverse_perm _
    | right => exact .refl _
  have distinct : ((w :: rest).map Prod.fst).Nodup :=
    (((same.map Prod.fst).nodup_iff).mpr rep.distinct).sublist (sub.map Prod.fst)
  have enough : rest.length < s.bound := by
    have length := sub.length_le
    rw [same.length_eq, inorder_length] at length
    exact Nat.lt_succ_of_le ((Nat.le_succ _).trans (length.trans size))
  have quiet : ∀ v ∈ inorder (.node (top, ⟨0, 64⟩) l r), isLeaf v = true → ∀ seen,
      visit (some v.1) seen s = .ok ((0, seen ++ [visited v]), s) := by
    intro v inside leaf seen
    rcases (mem_inorder_iff v _).mp inside with ⟨path, l', r', tree⟩
    rw [tree] at rep
    rcases record_at rep with ⟨n, cell, -, -, bears⟩
    have key : n.keyPrefix = UInt64.ofNat v.2.bits := by
      rw [← UInt64.ofNat_toNat (x := n.keyPrefix), bears.prefix_eq, isKey_iff.mp leaf, pow_zero, Nat.mul_one]
    rw [visit, bind_ok (load_ok cell), key]
    rfl
  have run : traverseFrom side visit (some z.1) s.bound (some w.1) [] s =
      .ok ((0, (w :: rest).foldl (fun seen v => seen ++ [visited v]) []), s) :=
    traverse_from_spec quiet rep full here last distinct enough
  rw [run, List.foldl_append_eq_append, List.nil_append, ← List.flatMap_def, ← List.map_eq_flatMap]

/-- The first element of an ordered list is the one that nothing precedes. -/
theorem head_of_least {α : Type} {R : α → α → Prop} {list : List α} {a : α} (ordered : list.Pairwise R)
    (member : a ∈ list)
    (least : ∀ b ∈ list, ¬ R b a) : list.head? = some a := by
  cases list with
  | nil => cases member
  | cons b rest =>
      rcases List.mem_cons.mp member with rfl | later
      · rfl
      · exact absurd ((List.pairwise_cons.mp ordered).1 a later) (least b List.mem_cons_self)

theorem Holds.ordered (holds : Holds s T) : (leavesAlong isLeaf .right T).Pairwise fun v w => v.2.bits < w.2.bits :=
  List.pairwise_map.mp holds.patricia.ascending

/-- The keys that the leaves bear fit into 64 bits. -/
theorem Holds.leaf_lt (holds : Holds s T) (member : v ∈ leavesAlong isLeaf .right T) : v.2.bits < 2 ^ 64 := by
  rcases (mem_leavesAlong .right).mp member with ⟨inside, leaf⟩
  rcases (mem_inorder_iff v T).mp inside with ⟨path, l, r, tree⟩
  have rep := holds.rep
  rw [tree] at rep
  rcases record_at rep with ⟨n, -, -, -, bears⟩
  have base := bears.prefix_eq
  rw [isKey_iff.mp leaf, pow_zero, Nat.mul_one] at base
  rw [← base]
  exact n.keyPrefix.toNat_lt

theorem Holds.visited_key (holds : Holds s T) (member : v ∈ leavesAlong isLeaf .right T) :
    v.2 = ⟨(visited v).2.toNat, 0⟩ := by
  have bottom := isKey_iff.mp ((mem_leavesAlong .right).mp member).2
  rw [visited, UInt64.toNat_ofNat_of_lt' (holds.leaf_lt member), ← bottom]

/-- The leaf of a present key. -/
theorem Tracks.exists_leaf (tracks : Tracks c T) (present : c.Present key) :
    ∃ v ∈ leavesAlong isLeaf .right T, v.2 = ⟨key.toNat, 0⟩ ∧ c.node key = some v.1 := by
  rcases mem_keysOf.mp ((tracks.keys key).mpr present) with ⟨v, inside, same⟩
  exact ⟨v, (mem_leavesAlong .right).mpr ⟨inside, isKey_iff.mpr (congrArg Prefix.free same)⟩, same,
    tracks.nodes v inside key same⟩

theorem Tracks.traverses (tracks : Tracks c T) : Traverses c := by
  have holds := tracks.holds
  have ordered := holds.ordered
  rcases tracks.exists_leaf (.inl rfl) with ⟨v, low, low_eq, low_node⟩
  rcases tracks.exists_leaf (.inr (.inl rfl)) with ⟨z, high, high_eq, high_node⟩
  have first : (leavesAlong isLeaf .right T).head? = some v := by
    apply head_of_least ordered low
    intro w _ less
    rw [low_eq] at less
    exact Nat.not_lt_zero _ less
  have last : (leavesAlong isLeaf .left T).head? = some z := by
    rw [leavesAlong_left]
    apply head_of_least (List.pairwise_reverse.mpr ordered) (List.mem_reverse.mpr high)
    intro w inside less
    rw [high_eq] at less
    have bound := holds.leaf_lt (List.mem_reverse.mp inside)
    have top : uint64Max.toNat = 2 ^ 64 - 1 := rfl
    have greater : uint64Max.toNat < w.2.bits := less
    omega
  have first' : (leavesAlong isLeaf .left T).getLast? = some v := by
    rw [leavesAlong_left, List.getLast?_reverse, first]
  have last' : (leavesAlong isLeaf .right T).getLast? = some z := by
    rw [← List.head?_reverse, ← leavesAlong_left, last]
  have head_eq : c.store.vars.head = some v.1 := low_node
  have tail_eq : c.store.vars.tail = some z.1 := high_node
  have known : (vars : PbtrieProg MnPbtrie) c.store = .ok (c.store.vars, c.store) := rfl
  refine ⟨(leavesAlong isLeaf .right T).map visited, ?_, ?_, ?_, fun key => ?_, ?_⟩
  · rw [pbtrieTraverse, bind_ok known, bound_bind, head_eq, tail_eq]
    exact holds.traverse .right first last'
  · rw [pbtrieReverse, bind_ok known, bound_bind, head_eq, tail_eq, ← List.map_reverse, ← leavesAlong_left]
    exact holds.traverse .left last first'
  · apply List.pairwise_map.mpr
    apply ordered.imp_of_mem
    intro v w inside within less
    rw [holds.visited_key inside, holds.visited_key within] at less
    exact UInt64.lt_iff_toNat_lt.mpr less
  · rw [List.map_map, List.mem_map]
    constructor
    · rintro ⟨v, inside, rfl⟩
      rw [← tracks.keys]
      exact mem_keysOf.mpr ⟨v, ((mem_leavesAlong .right).mp inside).1, holds.visited_key inside⟩
    · intro present
      rcases tracks.exists_leaf present with ⟨v, inside, same, -⟩
      refine ⟨v, inside, ?_⟩
      have bits := (holds.visited_key inside).symm.trans same
      exact UInt64.toNat_inj.mp (congrArg Prefix.bits bits)
  · intro entry member
    rcases List.mem_map.mp member with ⟨v, inside, rfl⟩
    exact (tracks.nodes v ((mem_leavesAlong .right).mp inside).1 _ (holds.visited_key inside)).symm

theorem Tracks.good (tracks : Tracks c T) : Good c := by
  refine ⟨tracks.shaped, ?_, tracks.finds, tracks.traverses⟩
  rw [tree_eq tracks.holds.rep tracks.holds.root_eq]
  exact tracks.keys

theorem Tracks.intact (tracks : Tracks c T) : Intact c := by
  refine ⟨?_, tracks.finds, tracks.traverses⟩
  rw [tree_eq tracks.holds.rep tracks.holds.root_eq]
  exact tracks.holds.patricia.full

theorem start_spec (system : Allocator MnPbtrieNode) (s : PbtrieStore) :
    ∃ c T, start system s = .ok c ∧ Tracks c T ∧ c.live = ∅ := by
  rcases init_spec system s with ⟨root, head, tail, next, run, holds, head_eq, tail_eq⟩
  have labels : ∀ v, v ∈ inorder (bareTrie root head tail) ↔
      v = (head, ⟨0, 0⟩) ∨ v = (root, ⟨0, 64⟩) ∨ v = (tail, ⟨uint64Max.toNat, 0⟩) := fun v => by
    simp only [bareTrie, inorder_node, inorder_nil, List.nil_append, List.cons_append, List.mem_cons, List.not_mem_nil,
      or_false]
  refine ⟨⟨next, fun _ => none, ∅⟩, bareTrie root head tail, ?_, ⟨holds, fun key => ?_, ?_⟩, rfl⟩
  · rw [start, run]
    rfl
  · rw [mem_keysOf]
    constructor
    · rintro ⟨v, inside, same⟩
      rcases (labels v).mp inside with rfl | rfl | rfl
      · have zero : (0 : UInt64) = key := UInt64.toNat_inj.mp (congrArg Prefix.bits same)
        exact .inl zero.symm
      · exact absurd (congrArg Prefix.free same) nofun
      · exact .inr (.inl (UInt64.toNat_inj.mp (congrArg Prefix.bits same)).symm)
    · rintro (rfl | rfl | member)
      · exact ⟨(head, ⟨0, 0⟩), (labels _).mpr (.inl rfl), rfl⟩
      · exact ⟨(tail, ⟨uint64Max.toNat, 0⟩), (labels _).mpr (.inr (.inr rfl)), rfl⟩
      · cases member
  · intro v inside key same
    rcases (labels v).mp inside with rfl | rfl | rfl
    · obtain rfl : 0 = key := UInt64.toNat_inj.mp (congrArg Prefix.bits same)
      exact head_eq
    · exact absurd (congrArg Prefix.free same) nofun
    · obtain rfl : uint64Max = key := UInt64.toNat_inj.mp (congrArg Prefix.bits same)
      exact tail_eq

theorem Tracks.add_step (tracks : Tracks c T) (system : Allocator MnPbtrieNode) (absent : ¬ c.Present key) :
    ∃ answer next U, step system (.add key) c = .ok (answer, next) ∧ Tracks next U ∧ next.live = insert key c.live := by
  have new : key.toNat ∉ keysOf Prod.snd T := fun inside => absent ((tracks.keys key).mp inside)
  rcases add_node_spec system tracks.holds new with ⟨a, s', U, w, run, vars_eq, holds, deep, labels⟩
  refine ⟨.node (some a), ⟨s', Function.update c.ledger key (some a), insert key c.live⟩, U, ?_,
    ⟨holds, fun other => ?_, ?_⟩, rfl⟩
  · rw [step, run]
    rfl
  · have entered : key.toNat = other.toNat ↔ other = key := by rw [UInt64.toNat_inj, eq_comm]
    have grown : other.toNat ∈ keysOf Prod.snd U ↔ other.toNat ∈ keysOf Prod.snd T ∨ other = key := by
      rw [mem_keysOf, mem_keysOf, ← entered]
      constructor
      · rintro ⟨v, inside, same⟩
        rcases (labels v).mp inside with old | rfl | rfl
        · exact .inl ⟨v, old, same⟩
        · exact absurd (congrArg Prefix.free same) deep.ne'
        · exact .inr (congrArg Prefix.bits same)
      · rintro (⟨v, old, same⟩ | same)
        · exact ⟨v, (labels v).mpr (.inl old), same⟩
        · exact ⟨_, (labels _).mpr (.inr (.inr rfl)), congrArg (Prefix.mk · 0) same⟩
    rw [grown, tracks.keys]
    simp only [Client.Present, Finset.mem_insert]
    tauto
  · intro v inside other same
    rcases (labels v).mp inside with old | rfl | rfl
    · have apart : other ≠ key := by
        rintro rfl
        exact new (mem_keysOf.mpr ⟨v, old, same⟩)
      rw [← tracks.nodes v old other same]
      simp only [Client.node, vars_eq, Function.update_of_ne apart]
    · exact absurd (congrArg Prefix.free same) deep.ne'
    · obtain rfl : key = other := UInt64.toNat_inj.mp (congrArg Prefix.bits same)
      have low : key ≠ 0 := fun zero => absent (.inl zero)
      have high : key ≠ uint64Max := fun top => absent (.inr (.inl top))
      simp only [Client.node, if_neg low, if_neg high, Function.update_self]

/-- A removal leaves a node behind that lacks a child. -/
theorem Tracks.remove_step (tracks : Tracks c T) (system : Allocator MnPbtrieNode) (member : key ∈ c.live)
    (proper : key ≠ 0 ∧ key ≠ uint64Max) :
    ∃ answer next, step system (.remove key) c = .ok (answer, next) ∧ ¬ Full isLeaf (treeOf next.store) := by
  rcases mem_keysOf.mp ((tracks.keys key).mpr (.inr (.inr member))) with ⟨v, inside, same⟩
  have own := tracks.nodes v inside key same
  simp only [Client.node, if_neg proper.1, if_neg proper.2] at own
  rcases (mem_inorder_iff v T).mp inside with ⟨path, l, r, tree⟩
  have holds := tracks.holds
  rw [tree] at holds
  have inner : Patricia Prod.snd (.node v l r) := holds.patricia.plug nofun
  rcases inner.bare (congrArg Prefix.free same) with ⟨rfl, rfl⟩
  cases path with
  | nil =>
      rcases holds.top with ⟨top, l, r, root⟩
      rw [(BinaryTree.node.inj root).1] at same
      exact absurd (congrArg Prefix.free same) nofun
  | cons f path =>
      rcases remove_node_spec holds.rep with ⟨next, run, vars_eq, rep⟩
      refine ⟨.code 0, ⟨next, Function.update c.ledger key none, c.live.erase key⟩, ?_, fun full => ?_⟩
      · rw [step, own, run]
        rfl
      · have root_eq : next.vars.root = pbtrieLayout.root (plug (f :: path) .nil) := by
          rw [vars_eq, holds.root_eq]
          exact pbtrieLayout.root_plug_cons f path _ _
        rw [tree_eq rep root_eq] at full
        have there : BinaryTree.node v .nil .nil ≠ .nil := nofun
        have fork := (holds.patricia.full.ancestor there).1
        have whole : Full isLeaf (plug path (f.attach .nil)) := full
        have here := whole.plug (attach_ne_nil f .nil)
        rcases f with ⟨side, w, sibling⟩
        cases side with
        | left => exact (here.fork fork).1 rfl
        | right => exact (here.fork fork).2 rfl

/-- An admitted addition keeps up what holds of all tries built so. -/
theorem Tracks.upholds {P : Client → Prop} (tracks : Tracks c T) (system : Allocator MnPbtrieNode)
    (holds : ∀ c T, Tracks c T → P c) (admitted : Admits c.live (.add key)) :
    Upholds system P (.add key) c ∧ ∀ answer next, step system (.add key) c = .ok (answer, next) →
      (∃ U, Tracks next U) ∧ next.live = insert key c.live := by
  rcases admitted with ⟨absent, low, high⟩
  have new : ¬ c.Present key := fun present => (present.resolve_left low).elim high absent
  rcases tracks.add_step system new with ⟨answer, next, U, run, tracked, live⟩
  refine ⟨⟨answer, next, run, holds next U tracked⟩, fun answer' next' stepped => ?_⟩
  rcases Prod.mk.inj (Except.ok.inj (run.symm.trans stepped)) with ⟨-, rfl⟩
  exact ⟨⟨U, tracked⟩, live⟩

theorem Tracks.run_good {keys : List UInt64} (tracks : Tracks c T) (system : Allocator MnPbtrieNode)
    (distinct : keys.Nodup) (proper : ∀ key ∈ keys, key ∉ c.live ∧ key ≠ 0 ∧ key ≠ uint64Max) :
    Along (step system) (Upholds system Good) (keys.map .add) c := by
  induction keys generalizing c T with
  | nil => trivial
  | cons key keys ih =>
      rcases List.forall_mem_cons.mp proper with ⟨one, others⟩
      rcases List.nodup_cons.mp distinct with ⟨new, rest⟩
      rcases tracks.upholds system (fun _ _ tracks => tracks.good) one with ⟨here, after⟩
      refine ⟨here, fun answer next stepped => ?_⟩
      rcases after answer next stepped with ⟨⟨U, tracked⟩, live⟩
      apply ih tracked rest
      intro other inside
      refine ⟨fun member => ?_, (others other inside).2⟩
      rw [live, Finset.mem_insert] at member
      rcases member with rfl | member
      · exact new inside
      · exact (others other inside).1 member

/-- Whatever distinct keys are added, the trie is compressed, finds every key at its
own leaf and traverses the keys in order. -/
theorem additions_good (system : Allocator MnPbtrieNode) (s : PbtrieStore) {keys : List UInt64}
    (distinct : keys.Nodup) (proper : ∀ key ∈ keys, key ≠ 0 ∧ key ≠ uint64Max) :
    ∃ c, start system s = .ok c ∧ Good c ∧ Along (step system) (Upholds system Good) (keys.map .add) c := by
  rcases start_spec system s with ⟨c, T, run, tracks, live⟩
  refine ⟨c, run, tracks.good, tracks.run_good system distinct fun key inside => ⟨?_, proper key inside⟩⟩
  rw [live]
  exact Finset.notMem_empty key

theorem sampleKeys_good : ∃ c, start (.bump blank) ⟨∅, ⟨none, none, none, 0, 0⟩, 0⟩ = .ok c ∧ Good c ∧
    Along (step (.bump blank)) (Upholds (.bump blank) Good)
      ([5, 4, 0x8000000000000000, 6].map .add) c := by
  apply additions_good (.bump blank) _ (by decide +kernel)
  simp only [List.mem_cons, List.not_mem_nil, or_false, forall_eq_or_imp, forall_eq]
  decide +kernel

theorem Tracks.add_ok {answer : Answer} (tracks : Tracks c T) (system : Allocator MnPbtrieNode)
    (stepped : step system (.add key) c = .ok (answer, next)) :
    (∃ U, Tracks next U) ∧ next.live = insert key c.live := by
  by_cases present : c.Present key
  · have aborts := add_present_aborts system tracks.holds ((tracks.keys key).mpr present)
    rw [step, aborts] at stepped
    cases stepped
  · rcases tracks.add_step system present with ⟨answer', next', U, run, tracked, live⟩
    rcases Prod.mk.inj (Except.ok.inj (run.symm.trans stepped)) with ⟨-, rfl⟩
    exact ⟨⟨U, tracked⟩, live⟩

theorem Tracks.execute_adds {keys : List UInt64} {answers : List Answer} (tracks : Tracks c T)
    (system : Allocator MnPbtrieNode) (ran : execute (step system) (keys.map .add) c = .ok (answers, next)) :
    (∃ U, Tracks next U) ∧ ∀ key, key ∈ next.live ↔ key ∈ keys ∨ key ∈ c.live := by
  induction keys generalizing c T answers with
  | nil =>
      rcases Prod.mk.inj (Except.ok.inj ran) with ⟨-, rfl⟩
      exact ⟨⟨T, tracks⟩, fun key => (or_iff_right List.not_mem_nil).symm⟩
  | cons key keys ih =>
      rcases execute_cons ran with ⟨answer, second, others, stepped, later⟩
      rcases tracks.add_ok system stepped with ⟨⟨U, tracked⟩, live⟩
      rcases ih tracked later with ⟨last, members⟩
      refine ⟨last, fun other => ?_⟩
      rw [members, live, Finset.mem_insert, List.mem_cons]
      tauto

theorem Tracks.sound_iff (tracks : Tracks c T) (key : UInt64) : Sound c key ↔ c.Present key := by
  rcases tracks.find_exact key with ⟨w, inside, run, found⟩
  constructor
  · rintro ⟨node, run', -, absent⟩
    by_contra missing
    rcases Prod.mk.inj (Except.ok.inj (run'.symm.trans run)) with ⟨same, -⟩
    exact Option.some_ne_none w.1 (same.symm.trans (absent missing))
  · intro present
    refine ⟨some w.1, run, fun a same => ?_, fun missing => absurd present missing⟩
    rw [← Option.some.inj same]
    exact tracks.leaf inside (found.mp present)

/-- A lookup is sound exactly for the keys that are present: it never reports that one is absent. -/
theorem find_exact_sound_iff (system : Allocator MnPbtrieNode) (s : PbtrieStore) {keys : List UInt64}
    {answers : List Answer} (begun : start system s = .ok c)
    (ran : execute (step system) (keys.map .add) c = .ok (answers, next)) (key : UInt64) :
    Sound next key ↔ key = 0 ∨ key = uint64Max ∨ key ∈ keys := by
  rcases start_spec system s with ⟨c', T, run, tracks, live⟩
  obtain rfl : c' = c := Except.ok.inj (run.symm.trans begun)
  rcases tracks.execute_adds system ran with ⟨⟨U, tracked⟩, members⟩
  rw [tracked.sound_iff, Client.Present, members, live]
  simp only [Finset.notMem_empty, or_false]

theorem addedFive_sound_iff : ∃ c next answers, start (.bump blank) ⟨∅, ⟨none, none, none, 0, 0⟩, 0⟩ = .ok c ∧
    execute (step (.bump blank)) ([5].map .add) c = .ok (answers, next) ∧
    (Sound next 5 ↔ (5 : UInt64) = 0 ∨ (5 : UInt64) = uint64Max ∨ (5 : UInt64) ∈ [5]) := by
  have ran : ((start (.bump blank) ⟨∅, ⟨none, none, none, 0, 0⟩, 0⟩).bind fun c =>
      (execute (step (.bump blank)) ([5].map .add) c).map Prod.fst) = .ok [.node (some 5)] := by decide +kernel
  rcases start_spec (.bump blank) ⟨∅, ⟨none, none, none, 0, 0⟩, 0⟩ with ⟨c, -, begun, -, -⟩
  rw [begun] at ran
  rcases execute_of_answers ran with ⟨next, ran⟩
  exact ⟨c, next, _, begun, ran, find_exact_sound_iff (.bump blank) _ begun ran 5⟩

/-- In a trie without keys the search for 5 ends at the sentinel of 0. -/
theorem absent_five_found : ∃ c, start (.bump blank) ⟨∅, ⟨none, none, none, 0, 0⟩, 0⟩ = .ok c ∧ ¬ Sound c 5 := by
  have found : ((start (.bump blank) ⟨∅, ⟨none, none, none, 0, 0⟩, 0⟩).bind fun c =>
      (pbtrieFindExact 5 c.store).map Prod.fst) = .ok (some 2) := by decide +kernel
  rcases start_spec (.bump blank) ⟨∅, ⟨none, none, none, 0, 0⟩, 0⟩ with ⟨c, -, begun, -, live⟩
  refine ⟨c, begun, ?_⟩
  rw [begun] at found
  rintro ⟨node, run, -, absent⟩
  have missing : ¬ c.Present 5 := by
    rw [Client.Present, live]
    decide
  have none_found : node = none := absent missing
  rw [Except.bind, run, none_found] at found
  exact absurd (Except.ok.inj found) nofun

/-- Along a run of admitted operations the trie stays intact exactly if nothing is removed. -/
theorem Tracks.stays_intact_iff {ops : List Op} (tracks : Tracks c T) (system : Allocator MnPbtrieNode)
    (proper : ∀ key ∈ c.live, key ≠ 0 ∧ key ≠ uint64Max) (admitted : AdmitsAll c.live ops) :
    Along (step system) (Upholds system Intact) ops c ↔ ∀ op ∈ ops, op.Adds := by
  induction ops generalizing c T with
  | nil => exact ⟨fun _ => nofun, fun _ => trivial⟩
  | cons op ops ih =>
      rcases admitted with ⟨one, others⟩
      cases op with
      | add key =>
          rcases tracks.upholds system (fun _ _ tracks => tracks.intact) one with ⟨here, after⟩
          have stays : ∀ other ∈ insert key c.live, other ≠ 0 ∧ other ≠ uint64Max := by
            intro other member
            rcases Finset.mem_insert.mp member with rfl | old
            · exact one.2
            · exact proper other old
          have later : ∀ answer next, step system (.add key) c = .ok (answer, next) →
              (Along (step system) (Upholds system Intact) ops next ↔ ∀ op ∈ ops, op.Adds) := by
            intro answer next stepped
            rcases after answer next stepped with ⟨⟨U, tracked⟩, live⟩
            apply ih tracked
            · rw [live]
              exact stays
            · rw [live]
              exact others
          have stepped := here
          rcases stepped with ⟨answer, next, run, -⟩
          rw [List.forall_mem_cons]
          constructor
          · intro along
            exact ⟨trivial, (later answer next run).mp (along.2 answer next run)⟩
          · intro adds
            exact ⟨here, fun answer next stepped => (later answer next stepped).mpr adds.2⟩
      | remove key =>
          rcases tracks.remove_step system one (proper key one) with ⟨answer, next, run, torn⟩
          constructor
          · rintro ⟨⟨answer', next', stepped, intact⟩, -⟩
            rcases Prod.mk.inj (Except.ok.inj (run.symm.trans stepped)) with ⟨-, rfl⟩
            exact absurd intact.forks torn
          · intro adds
            exact (adds _ List.mem_cons_self).elim

theorem run_intact_iff (system : Allocator MnPbtrieNode) (s : PbtrieStore) {ops : List Op}
    (admitted : AdmitsAll ∅ ops) :
    ∃ c, start system s = .ok c ∧
      (Along (step system) (Upholds system Intact) ops c ↔ ∀ op ∈ ops, op.Adds) := by
  rcases start_spec system s with ⟨c, T, run, tracks, live⟩
  rw [← live] at admitted
  refine ⟨c, run, tracks.stays_intact_iff system (fun key member => ?_) admitted⟩
  rw [live] at member
  cases member

theorem addedKeys_intact_iff : ∃ c, start (.bump blank) ⟨∅, ⟨none, none, none, 0, 0⟩, 0⟩ = .ok c ∧
    (Along (step (.bump blank)) (Upholds (.bump blank) Intact) [.add 4, .add 5] c ↔
      ∀ op ∈ [Op.add 4, .add 5], op.Adds) :=
  run_intact_iff (.bump blank) _ ⟨⟨by decide, by decide, by decide⟩, ⟨by decide, by decide, by decide⟩, trivial⟩

/-- The trie that the client finds after a run. -/
def treeAfter (system : Allocator MnPbtrieNode) (ops : List Op) (s : PbtrieStore) : Except Fault (BinaryTree Label) :=
  (start system s).bind fun c => (execute (step system) ops c).map fun out => treeOf out.2.store

/-- The node above a removed leaf stays, with one child. -/
theorem removed_four_torn : AdmitsAll ∅ [.add 4, .add 5, .remove 4] ∧
    ¬ ∃ c, start (.bump blank) ⟨∅, ⟨none, none, none, 0, 0⟩, 0⟩ = .ok c ∧
      Along (step (.bump blank)) (Upholds (.bump blank) Intact) [.add 4, .add 5, .remove 4] c := by
  have live : 4 ∈ insert 5 (insert 4 (∅ : Finset UInt64)) := by decide
  refine ⟨⟨⟨by decide, by decide, by decide⟩, ⟨by decide, by decide, by decide⟩, live, trivial⟩, ?_⟩
  rintro ⟨c, begun, along⟩
  have torn : treeAfter (.bump blank) [.add 4, .add 5, .remove 4] ⟨∅, ⟨none, none, none, 0, 0⟩, 0⟩ =
      .ok (.node (1, ⟨0, 64⟩)
        (.node (4, ⟨0, 3⟩) (.node (2, ⟨0, 0⟩) .nil .nil) (.node (6, ⟨2, 1⟩) .nil (.node (7, ⟨5, 0⟩) .nil .nil)))
        (.node (3, ⟨uint64Max.toNat, 0⟩) .nil .nil)) := by decide +kernel
  rcases along with ⟨⟨first, c1, step1, -⟩, along⟩
  rcases along first c1 step1 with ⟨⟨second, c2, step2, -⟩, along⟩
  rcases along second c2 step2 with ⟨⟨third, c3, step3, intact⟩, -⟩
  have ran : execute (step (.bump blank)) [.add 4, .add 5, .remove 4] c = .ok ([first, second, third], c3) := by
    simp only [execute, step1, step2, step3, Except.map]
  rw [treeAfter, begun, Except.bind, ran] at torn
  have shape : treeOf c3.store = _ := Except.ok.inj torn
  have forks := intact.forks
  rw [shape] at forks
  exact (Full.fork forks.2.1.2.2 (by decide)).1 rfl

end MnCommon.Pbtrie
