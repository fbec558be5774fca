import MnCommon.Btrie.Closest
import MnCommon.Btrie.Exact
import MnCommon.Btrie.Remove

/-! Runs of a client: what the trie answers for the keys that are live, and the
shape it has. -/

namespace MnCommon.Btrie

open Memory Tries Prefix

inductive Op where
  | add (key : UInt64) (value : Addr)
  | remove (key : UInt64)
  | removeNoCleanup (key : UInt64)
  | cleanup
  deriving DecidableEq, Repr

/-- The nodes that the client was given, by their keys. -/
abbrev Ledger := UInt64 → Ptr

/-- The client keeps the node that it got first as long as the key is live. -/
def Ledger.enter (ledger : Ledger) (key : UInt64) (node : Ptr) : Ledger :=
  if ledger key = none then Function.update ledger key node else ledger

/-- The client gives every node a value and clears it before the removal. -/
def exec (system : Allocator MnBtrieNode) (ledger : Ledger) : Op → BtrieProg Ledger
  | .add key value => do
      let node ← btrieAddNode system key
      update node fun n => { n with value := some value }
      return ledger.enter key node
  | .remove key => do
      update (ledger key) fun n => { n with value := none }
      let _ ← btrieRemoveNode (ledger key)
      return Function.update ledger key none
  | .removeNoCleanup key => do
      update (ledger key) fun n => { n with value := none }
      let _ ← btrieRemoveNodeNoCleanup (ledger key)
      return Function.update ledger key none
  | .cleanup => do
      btrieCleanup
      return ledger

def execAll (system : Allocator MnBtrieNode) (ledger : Ledger) : List Op → BtrieProg Ledger
  | [] => pure ledger
  | op :: ops => do execAll system (← exec system ledger op) ops

def run (system : Allocator MnBtrieNode) (ops : List Op) : BtrieProg Ledger := do
  btrieInit
  execAll system (fun _ => none) ops

/-- The keys that were added and not removed since. -/
def liveStep (live : Finset UInt64) : Op → Finset UInt64
  | .add key _ => insert key live
  | .remove key => live.erase key
  | .removeNoCleanup key => live.erase key
  | .cleanup => live

def liveKeys (ops : List Op) : Finset UInt64 := ops.foldl liveStep ∅

def Admits (live : Finset UInt64) : Op → Prop
  | .add key _ => key ≠ 0
  | .remove key => key ∈ live
  | .removeNoCleanup key => key ∈ live
  | .cleanup => True

/-- The operations that leave nothing for a later sweep. -/
def Op.Eager : Op → Prop
  | .removeNoCleanup _ => False
  | _ => True

instance (live : Finset UInt64) (op : Op) : Decidable (Admits live op) := by
  cases op <;> unfold Admits <;> infer_instance

def AdmitsAll (live : Finset UInt64) : List Op → Prop
  | [] => True
  | op :: ops => Admits live op ∧ AdmitsAll (liveStep live op) ops

instance decideAdmitsAll (live : Finset UInt64) : (ops : List Op) → Decidable (AdmitsAll live ops)
  | [] => inferInstanceAs (Decidable True)
  | op :: ops =>
      have := decideAdmitsAll (liveStep live op) ops
      inferInstanceAs (Decidable (Admits live op ∧ AdmitsAll (liveStep live op) ops))

structure Tracks (s : BtrieStore) (T : Trie) (addr : Prefix → Addr) (ledger : Ledger)
    (live : Finset UInt64) : Prop where
  holds : Holds s T addr
  settled : Settled T
  stored : ∀ key : UInt64, T.Live key.toNat ↔ key ∈ live
  entries : ∀ key : UInt64, ledger key = if key ∈ live then some (addr ⟨key.toNat, 0⟩) else none

section Steps

variable {s : BtrieStore} {T : Trie} {addr : Prefix → Addr} {ledger : Ledger} {live : Finset UInt64}
  {key : UInt64}

theorem Tracks.node_mem (tracks : Tracks s T addr ledger live) (member : key ∈ live) :
    ⟨key.toNat, 0⟩ ∈ T.nodes :=
  T.value_mem _ ((tracks.stored key).mpr member)

theorem Tracks.node (tracks : Tracks s T addr ledger live) (member : key ∈ live) :
    ledger key = some (addr ⟨key.toNat, 0⟩) := by rw [tracks.entries, if_pos member]

theorem add_step (system : Allocator MnBtrieNode) (tracks : Tracks s T addr ledger live) (nonzero : key ≠ 0)
    (value : Addr) :
    ∃ next U addr' ledger', exec system ledger (.add key value) s = .ok (ledger', next) ∧
      Tracks next U addr' ledger' (insert key live) ∧ (T.Pruned → U.Pruned) := by
  obtain ⟨mid, U, addr', run, holds, grows, -⟩ := add_node_ok system nonzero tracks.holds
  have assigned := holds.assigned grows.here (some value)
  have stored := update_ok (fun n : MnBtrieNode => { n with value := some value }) (holds.cell _ grows.here)
  have live_iff : ∀ other, (U.assign key.toNat (some value) grows.here).Live other ↔
      other = key.toNat ∨ T.Live other := by
    intro other
    rw [PrefixTrie.live_assign, PrefixTrie.Live, grows.value]
    split
    · simp [*]
    · simp only [*, false_or]
      rfl
  have kept : ∀ k ∈ live, addr' ⟨k.toNat, 0⟩ = addr ⟨k.toNat, 0⟩ :=
    fun k member => (grows.kept _ (tracks.node_mem member)).2
  refine ⟨_, _, addr', ledger.enter key (some (addr' ⟨key.toNat, 0⟩)), ?_, ⟨assigned, ?_, ?_, ?_⟩, ?_⟩
  · rw [exec, bind_ok run, bind_ok stored]
    rfl
  · intro k inside
    rw [live_iff]
    rcases grows.new _ inside with old | covers
    · rcases tracks.settled k old with one | old
      · exact .inl one
      · exact .inr (.inr old)
    · exact .inr (.inl ((covers_zero rfl _).mp covers))
  · intro k
    rw [live_iff, tracks.stored, Finset.mem_insert, UInt64.toNat_inj]
  · intro k
    have entry := tracks.entries k
    rw [Ledger.enter]
    by_cases same : k = key
    · subst same
      rw [if_pos (Finset.mem_insert_self _ _)]
      by_cases member : k ∈ live
      · rw [if_pos member] at entry
        rw [entry, if_neg (Option.some_ne_none _), entry, kept k member]
      · rw [if_neg member] at entry
        rw [if_pos entry, Function.update_self]
    · have unchanged : (if ledger key = none then Function.update ledger key (some (addr' ⟨key.toNat, 0⟩))
          else ledger) k = ledger k := by
        split
        · exact Function.update_of_ne same _ _
        · rfl
      rw [unchanged, entry]
      simp only [Finset.mem_insert, same, false_or]
      split
      · rw [kept k ‹_›]
      · rfl
  · intro pruned x inside
    rcases grows.new x inside with old | covers
    · rcases pruned x old with top | ⟨k, some⟩
      · exact .inl top
      · exact .inr ⟨k, (live_iff k).mpr (.inr some.1), some.2⟩
    · exact .inr ⟨key.toNat, (live_iff _).mpr (.inl rfl), covers⟩

/-- The two forms of removal. -/
def removeOp (eager : Bool) (key : UInt64) : Op := if eager then .remove key else .removeNoCleanup key

theorem remove_step (system : Allocator MnBtrieNode) (eager : Bool) (tracks : Tracks s T addr ledger live)
    (member : key ∈ live) :
    ∃ next U ledger', exec system ledger (removeOp eager key) s = .ok (ledger', next) ∧
      Tracks next U addr ledger' (live.erase key) ∧
      (∀ k, U.value k = if k = key.toNat then none else T.value k) ∧
      (eager = true → T.Pruned → U.Pruned) := by
  have here := tracks.node_mem member
  have node := tracks.node member
  have assigned := tracks.holds.assigned here none
  have stored := update_ok (fun n : MnBtrieNode => { n with value := none }) (tracks.holds.cell _ here)
  have cleared : ¬ (T.assign key.toNat none here).Live key.toNat := by
    rw [PrefixTrie.live_assign, if_pos rfl]
    exact not_not.mpr rfl
  have values : ∀ k, (T.assign key.toNat none here).value k = if k = key.toNat then none else T.value k :=
    fun k => Function.update_apply _ _ _ _
  have removed : ∃ next U, exec system ledger (removeOp eager key) s =
        .ok (Function.update ledger key none, next) ∧ Holds next U addr ∧
      U.value = (T.assign key.toNat none here).value ∧
      (∀ x ∈ U.nodes, x ∈ T.nodes ∧ (x = ⟨key.toNat, 0⟩ → key.toNat = 1)) ∧
      (eager = true → T.Pruned → U.Pruned) := by
    cases eager with
    | false =>
        obtain ⟨next, U, run, holds, value, nodes⟩ := btrie_remove_node_no_cleanup_ok assigned here cleared
        refine ⟨next, U, ?_, holds, value, nodes, fun wrong => absurd wrong Bool.false_ne_true⟩
        change (update (ledger key) _ >>= _) s = _
        rw [node, bind_ok stored]
        exact bind_ok run _
    | true =>
        obtain ⟨next, U, run, holds, value, nodes, pruned⟩ := btrie_remove_node_ok assigned here cleared
        refine ⟨next, U, ?_, holds, value, nodes, fun _ before => pruned fun x inside => ?_⟩
        · change (update (ledger key) _ >>= _) s = _
          rw [node, bind_ok stored]
          exact bind_ok run _
        · rcases before x inside with root | ⟨k, live⟩
          · exact .inl root
          · by_cases same : k = key.toNat
            · exact .inr (.inr (same ▸ live.2))
            · refine .inr (.inl ⟨k, ?_, live.2⟩)
              rw [PrefixTrie.live_assign, if_neg same]
              exact live.1
  rcases removed with ⟨next, U, run, holds, value, nodes, pruned⟩
  have live_iff : ∀ k, U.Live k ↔ k ≠ key.toNat ∧ T.Live k := by
    intro k
    rw [PrefixTrie.Live, value, values]
    split
    · simp [*]
    · simp only [ne_eq, *, not_false_eq_true, true_and]
      rfl
  refine ⟨next, U, _, run, ⟨holds, fun k inside => ?_, fun k => ?_, fun k => ?_⟩,
    fun k => (congrFun value k).trans (values k), pruned⟩
  · rcases nodes _ inside with ⟨old, other⟩
    rw [live_iff]
    by_cases same : k = key.toNat
    · exact .inl (same.trans (other (same ▸ rfl)))
    · exact (tracks.settled k old).imp_right fun live => ⟨same, live⟩
  · rw [live_iff, tracks.stored, Finset.mem_erase, ne_eq, UInt64.toNat_inj]
  · rw [Function.update_apply, tracks.entries]
    by_cases same : k = key
    · rw [if_pos same, if_neg fun inside => (Finset.mem_erase.mp inside).1 same]
    · rw [if_neg same]
      simp only [Finset.mem_erase, ne_eq, same, not_false_eq_true, true_and]

theorem cleanup_step (system : Allocator MnBtrieNode) (tracks : Tracks s T addr ledger live) :
    ∃ next U, exec system ledger .cleanup s = .ok (ledger, next) ∧ Tracks next U addr ledger live ∧
      U.value = T.value ∧ U.Pruned := by
  obtain ⟨next, U, run, holds, value, subset, pruned⟩ := btrie_cleanup_ok tracks.holds
  have same : ∀ k, U.Live k ↔ T.Live k := by
    intro k
    rw [PrefixTrie.Live, PrefixTrie.Live, value]
  refine ⟨next, U, bind_ok run _, ⟨holds, fun k inside => ?_, fun k => ?_, tracks.entries⟩, value, pruned⟩
  · rw [same]
    exact tracks.settled k (subset inside)
  · rw [same, tracks.stored]

theorem exec_step (system : Allocator MnBtrieNode) (op : Op) (tracks : Tracks s T addr ledger live)
    (admitted : Admits live op) :
    ∃ next U addr' ledger', exec system ledger op s = .ok (ledger', next) ∧
      Tracks next U addr' ledger' (liveStep live op) ∧ (op.Eager → T.Pruned → U.Pruned) := by
  cases op with
  | add key value =>
      obtain ⟨next, U, addr', ledger', run, tracked, pruned⟩ := add_step system tracks admitted value
      exact ⟨next, U, addr', ledger', run, tracked, fun _ => pruned⟩
  | remove key =>
      obtain ⟨next, U, ledger', run, tracked, -, pruned⟩ := remove_step system true tracks admitted
      exact ⟨next, U, addr, ledger', run, tracked, fun _ => pruned rfl⟩
  | removeNoCleanup key =>
      obtain ⟨next, U, ledger', run, tracked, -, -⟩ := remove_step system false tracks admitted
      exact ⟨next, U, addr, ledger', run, tracked, False.elim⟩
  | cleanup =>
      obtain ⟨next, U, run, tracked, -, pruned⟩ := cleanup_step system tracks
      exact ⟨next, U, addr, ledger, run, tracked, fun _ _ => pruned⟩

theorem exec_all_ok (system : Allocator MnBtrieNode) (ops : List Op) (tracks : Tracks s T addr ledger live)
    (admitted : AdmitsAll live ops) :
    ∃ next U addr' ledger', execAll system ledger ops s = .ok (ledger', next) ∧
      Tracks next U addr' ledger' (ops.foldl liveStep live) ∧
      ((∀ op ∈ ops, op.Eager) → T.Pruned → U.Pruned) := by
  induction ops generalizing s T addr ledger live with
  | nil => exact ⟨s, T, addr, ledger, rfl, tracks, fun _ => id⟩
  | cons op ops ih =>
      obtain ⟨mid, U, addr', ledger', first, between, pruned⟩ := exec_step system op tracks admitted.1
      obtain ⟨next, W, addr'', ledger'', rest, last, pruned'⟩ := ih between admitted.2
      refine ⟨next, W, addr'', ledger'', (bind_ok first _).trans rest, last, fun eager before => ?_⟩
      exact pruned' (fun other inside => eager other (List.mem_cons_of_mem _ inside))
        (pruned (eager op List.mem_cons_self) before)

end Steps

section Start

theorem init_roots_ok (n : Nat) (s : BtrieStore) :
    ∃ heap, initRoots n s = .ok ((), { s with heap := heap }) ∧ ∀ a, heap.lookup a = if a < n then
        some { parent := none, child := fun _ => none, value := none, digit := 0, idx := a }
      else s.heap.lookup a := by
  induction n with
  | zero => exact ⟨s.heap, rfl, fun a => (if_neg (Nat.not_lt_zero a)).symm⟩
  | succ n ih =>
      rcases ih with ⟨heap, run, cells⟩
      refine ⟨_, (bind_ok run _).trans rfl, fun a => ?_⟩
      by_cases same : a = n
      · subst same
        rw [Finmap.lookup_insert, if_pos (Nat.lt_succ_self a)]
      · have range : a < n ↔ a < n + 1 :=
          ⟨Nat.lt_succ_of_lt, fun less => Nat.lt_of_le_of_ne (Nat.le_of_lt_succ less) same⟩
        rw [Finmap.lookup_insert_of_ne _ same, cells]
        simp only [range]

theorem record_empty {i : Nat} :
    record (PrefixTrie.empty treeDepth Addr) Prefix.free ⟨1, i⟩ =
      { parent := none, child := fun _ => none, value := none, digit := 0, idx := i } := by
  have child : (record (PrefixTrie.empty treeDepth Addr) Prefix.free ⟨1, i⟩).child = fun _ => none := by
    funext b
    by_cases deep : 0 < (⟨1, i⟩ : Prefix).free
    · rw [record_child deep]
      refine link_absent fun inside => ?_
      rcases Finset.mem_image.mp inside with ⟨j, -, same⟩
      exact bits_child_ne_one (p := ⟨1, i⟩) Nat.one_ne_zero b (congrArg bits same).symm
    · exact record_child_bottom (by omega) b
  have value : (record (PrefixTrie.empty treeDepth Addr) Prefix.free ⟨1, i⟩).value = none := by
    by_cases bottom : (⟨1, i⟩ : Prefix).free = 0
    · rw [record_value_bottom bottom]
      rfl
    · exact record_value_inner (by omega)
  calc record (PrefixTrie.empty treeDepth Addr) Prefix.free ⟨1, i⟩ =
        { record (PrefixTrie.empty treeDepth Addr) Prefix.free ⟨1, i⟩ with
          child := (record (PrefixTrie.empty treeDepth Addr) Prefix.free ⟨1, i⟩).child,
          value := (record (PrefixTrie.empty treeDepth Addr) Prefix.free ⟨1, i⟩).value } := rfl
    _ = _ := by rw [child, value]; rfl

theorem init_ok (vars : MnBtrie) (tick : Nat) :
    ∃ next, btrieInit ⟨∅, vars, tick⟩ = .ok ((), next) ∧
      Tracks next (PrefixTrie.empty treeDepth Addr) Prefix.free (fun _ => none) ∅ := by
  obtain ⟨heap, run, cells⟩ := init_roots_ok treeDepth ⟨∅, vars, tick⟩
  have roots : ∀ p ∈ (PrefixTrie.empty treeDepth Addr).nodes, ∃ i < treeDepth, p = ⟨1, i⟩ := by
    intro p inside
    rcases Finset.mem_image.mp inside with ⟨i, small, rfl⟩
    exact ⟨i, Finset.mem_range.mp small, rfl⟩
  refine ⟨_, (bind_ok run _).trans rfl, ⟨?_, ?_, ?_, fun _ _ => rfl, ?_⟩, ?_, ?_, ?_⟩
  · intro p inside
    rcases roots p inside with ⟨i, small, rfl⟩
    rw [record_empty, cells, if_pos small]
  · intro a inside
    by_cases small : a < treeDepth
    · exact ⟨⟨1, a⟩, PrefixTrie.root_mem _ a small, rfl⟩
    · rcases Finmap.mem_iff.mp inside with ⟨n, found⟩
      rw [cells, if_neg small] at found
      cases found
  · intro p first q second same
    rcases roots p first with ⟨i, -, rfl⟩
    rcases roots q second with ⟨j, -, rfl⟩
    rw [show i = j from same]
  · rw [Finset.filter_false_of_mem, Finset.card_empty]
    intro p inside
    rcases roots p inside with ⟨i, -, rfl⟩
    exact not_not.mpr rfl
  · intro key inside
    rcases roots _ inside with ⟨i, -, same⟩
    exact .inl (congrArg bits same)
  · intro key
    simp [PrefixTrie.Live, PrefixTrie.empty]
  · intro key
    rw [if_neg (Finset.notMem_empty key)]

theorem empty_pruned : (PrefixTrie.empty treeDepth Addr).Pruned := by
  intro p inside
  rcases Finset.mem_image.mp inside with ⟨i, -, rfl⟩
  exact .inl rfl

/-- No run of a client stops at a fault, and the trie keeps track of it. -/
theorem run_tracks (system : Allocator MnBtrieNode) (ops : List Op) (admitted : AdmitsAll ∅ ops)
    (vars : MnBtrie) (tick : Nat) :
    ∃ ledger next T addr, run system ops ⟨∅, vars, tick⟩ = .ok (ledger, next) ∧
      Tracks next T addr ledger (liveKeys ops) ∧ ((∀ op ∈ ops, op.Eager) → T.Pruned) := by
  obtain ⟨start, first, tracks⟩ := init_ok vars tick
  obtain ⟨next, T, addr, ledger, rest, tracked, pruned⟩ := exec_all_ok system ops tracks admitted
  exact ⟨ledger, next, T, addr, (bind_ok first _).trans rest, tracked, fun eager => pruned eager empty_pruned⟩

end Start

/-- The trie as an exact map, for one key. -/
structure Exact (s : BtrieStore) (ledger : Ledger) (live : Finset UInt64) (key : UInt64) (found : Ptr) :
    Prop where
  present : found ≠ none ↔ key ∈ live
  node : key ∈ live → found = ledger key
  again : key ∈ live → ∀ system, btrieAddNode system key s = .ok (ledger key, s)
  apart : key ∈ live → ∀ other ∈ live, other ≠ key → ledger other ≠ ledger key

theorem Tracks.again {s : BtrieStore} {T : Trie} {addr : Prefix → Addr} {ledger : Ledger}
    {live : Finset UInt64} {key : UInt64} (tracks : Tracks s T addr ledger live) (nonzero : key ≠ 0)
    (member : key ∈ live) (system : Allocator MnBtrieNode) :
    btrieAddNode system key s = .ok (ledger key, s) := by
  have here := tracks.node_mem member
  obtain ⟨next, U, addr', run, -, grows, same⟩ := add_node_ok system nonzero tracks.holds
  rw [run, same here, (grows.kept _ here).2, tracks.node member]

theorem Tracks.apart {s : BtrieStore} {T : Trie} {addr : Prefix → Addr} {ledger : Ledger}
    {live : Finset UInt64} {key other : UInt64} (tracks : Tracks s T addr ledger live)
    (member : key ∈ live) (inside : other ∈ live) (different : other ≠ key) : ledger other ≠ ledger key := by
  rw [tracks.node member, tracks.node inside]
  intro same
  have equal := tracks.holds.distinct _ (tracks.node_mem inside) _ (tracks.node_mem member)
    (Option.some.inj same)
  exact different (UInt64.toNat_inj.mp (congrArg bits equal))

/-- After any run the lookup is exact for a key unless the key is one and not
live: its node is a root, which is never NULL. -/
theorem run_exact_iff (system : Allocator MnBtrieNode) (ops : List Op) (admitted : AdmitsAll ∅ ops)
    (vars : MnBtrie) (tick : Nat) :
    ∃ ledger next, run system ops ⟨∅, vars, tick⟩ = .ok (ledger, next) ∧
      ∀ key, key ≠ 0 → ∃ found, btrieFindExact key next = .ok (found, next) ∧
        (Exact next ledger (liveKeys ops) key found ↔ key ≠ 1 ∨ 1 ∈ liveKeys ops) := by
  obtain ⟨ledger, next, T, addr, ran, tracks, -⟩ := run_tracks system ops admitted vars tick
  refine ⟨ledger, next, ran, fun key nonzero => ⟨_, find_exact_ok tracks.holds nonzero, ?_⟩⟩
  constructor
  · intro exact_map
    by_cases one : key = 1
    · subst one
      have root : ⟨(1 : UInt64).toNat, 0⟩ ∈ T.nodes := T.root_mem 0 (by decide)
      exact .inr (exact_map.present.mp (by rw [link_mem root]; exact Option.some_ne_none _))
    · exact .inl one
  · intro condition
    have live_iff : ⟨key.toNat, 0⟩ ∈ T.nodes ↔ key ∈ liveKeys ops := by
      refine ⟨fun inside => ?_, tracks.node_mem⟩
      rcases tracks.settled _ inside with one | live
      · have one : key = 1 := UInt64.toNat_inj.mp one
        rw [one]
        exact condition.resolve_left (not_not.mpr one)
      · exact (tracks.stored key).mp live
    refine ⟨?_, fun member => ?_, tracks.again nonzero, fun member other inside => tracks.apart member inside⟩
    · rw [ne_eq, link_eq_none, not_not, live_iff]
    · rw [link_mem (tracks.node_mem member), tracks.node member]

def blankNode : MnBtrieNode :=
  { parent := none, child := fun _ => none, value := none, digit := 0, idx := 0 }

def sampleOps : List Op :=
  [.add 1 70, .add 5 71, .add 4 72, .removeNoCleanup 5, .add 9 73, .remove 4, .cleanup]

theorem sampleOps_exact_iff :
    ∃ ledger next, run (.bump blankNode) sampleOps ⟨∅, ⟨0, 0⟩, 0⟩ = .ok (ledger, next) ∧
      ∀ key, key ≠ 0 → ∃ found, btrieFindExact key next = .ok (found, next) ∧
        (Exact next ledger (liveKeys sampleOps) key found ↔ key ≠ 1 ∨ 1 ∈ liveKeys sampleOps) :=
  run_exact_iff _ sampleOps (by decide) _ _

/-- Once key one has been added and removed, it is still found. -/
theorem removed_one_found :
    ∃ ledger next, run (.bump blankNode) [.add 1 70, .remove 1] ⟨∅, ⟨0, 0⟩, 0⟩ = .ok (ledger, next) ∧
      1 ∉ liveKeys [.add 1 70, .remove 1] ∧ btrieFindExact 1 next = .ok (some 0, next) := by
  obtain ⟨ledger, next, -, -, ran, -, -⟩ :=
    run_tracks (.bump blankNode) [.add 1 70, .remove 1] (by decide) ⟨0, 0⟩ 0
  exact ⟨ledger, next, ran, by decide, rfl⟩

end MnCommon.Btrie
