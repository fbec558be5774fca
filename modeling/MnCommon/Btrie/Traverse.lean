import MnCommon.Btrie.Map
import MnCommon.Memory.Visit
import MnCommon.Tries.Preorder

/-! What a callback that looks at the nodes is shown by `btrie_traverse`. -/

namespace MnCommon.Btrie

open Memory Tries Prefix

/-- What a callback sees: a node at its address, or NULL. -/
abbrev Seen := Option (Addr × MnBtrieNode)

variable {A : Type}

/-- A callback that reads the node that it is given. -/
def look (f : A → Seen → Int × A) : Ptr → A → BtrieProg (Int × A)
  | none, udata => pure (f udata none)
  | some a, udata => do return f udata (some (a, ← load (some a)))

def seen (T : Trie) (addr : Prefix → Addr) : Option Prefix → Seen := Option.map fun p => (addr p, record T addr p)

section Visits

variable {s : BtrieStore} {T : Trie} {addr : Prefix → Addr} {p : Prefix} {f : A → Seen → Int × A}

theorem look_ok {a : Addr} {n : MnBtrieNode} (cell : s.heap.lookup a = some n) (udata : A) :
    look f (some a) udata s = .ok (f udata (some (a, n)), s) := bind_ok (load_ok cell) _

/-- A node is shown before what is met below its two children. -/
theorem traverse_parts (parts : Bool → List Seen) (holds : Holds s T addr) (here : p ∈ T.nodes) {fuel : Nat}
    (each : ∀ b udata, traverseChild (btrieNodeTraverse (look f) fuel) (look f) ((record T addr p).child b) udata s =
      .ok (visit f (parts b) udata, s)) (udata : A) :
    btrieNodeTraverse (look f) (fuel + 1) (some (addr p)) udata s =
      .ok (visit f (some (addr p, record T addr p) :: (parts false ++ parts true)) udata, s) := by
  have cell := holds.cell p here
  rw [btrieNodeTraverse, bind_ok (look_ok cell udata)]
  by_cases stop : (f udata (some (addr p, record T addr p))).1 ≠ 0
  · rw [if_pos stop, visit_stop stop]
    rfl
  · rw [if_neg stop, visit_pass stop, visit_append, bind_ok (load_ok cell), bind_ok (each false _)]
    split_ifs
    · rfl
    · rw [bind_ok (load_ok cell)]
      exact each true _

theorem node_traverse_ok (holds : Holds s T addr) {fuel n : Nat} (enough : n < fuel) (here : p ∈ T.nodes)
    (level : p.free = n) (udata : A) :
    btrieNodeTraverse (look f) fuel (some (addr p)) udata s =
      .ok (visit f ((PrefixTrie.walk T n p).map (seen T addr)) udata, s) := by
  induction fuel generalizing p n udata with
  | zero => exact absurd enough (Nat.not_lt_zero n)
  | succ fuel ih =>
      have gap (udata : A) : traverseChild (btrieNodeTraverse (look f) fuel) (look f) none udata s =
          .ok (visit f [none] udata, s) := by
        rw [traverseChild, if_neg (not_not.mpr rfl), visit_single]
        rfl
      cases n with
      | zero =>
          refine traverse_parts (fun _ => [none]) holds here (fun b udata => ?_) udata
          rw [record_child_bottom level]
          exact gap udata
      | succ n =>
          have deep := PrefixTrie.free_succ_pos level
          have each (b : Bool) (udata : A) :
              traverseChild (btrieNodeTraverse (look f) fuel) (look f) ((record T addr p).child b) udata s =
                .ok (visit f ((PrefixTrie.walkIn T n (p.child b)).map (seen T addr)) udata, s) := by
            rw [record_child deep]
            by_cases child : p.child b ∈ T.nodes
            · rw [link_mem child, traverseChild, if_pos (Option.some_ne_none _), PrefixTrie.walkIn_mem child]
              exact ih (Nat.lt_of_succ_lt_succ enough) child (PrefixTrie.free_child_succ level b) udata
            · rw [link_absent child, PrefixTrie.walkIn_absent child]
              exact gap udata
          rw [traverse_parts _ holds here each, PrefixTrie.walk_succ, List.map_cons, List.map_append]
          rfl

theorem traverse_ok (holds : Holds s T addr) (f : A → Seen → Int × A) (udata : A) :
    btrieTraverse (look f) udata s = .ok (visit f ((PrefixTrie.walkAll T).map (seen T addr)) udata, s) := by
  have roots (is : List Nat) (udata : A) (small : ∀ i ∈ is, i < treeDepth) : traverseRoots (look f) is udata s =
      .ok (visit f ((is.flatMap fun i => PrefixTrie.walk T i ⟨1, i⟩).map (seen T addr)) udata, s) := by
    induction is generalizing udata with
    | nil => rfl
    | cons i rest ih =>
        have fits := small i List.mem_cons_self
        have one := node_traverse_ok (f := f) holds (fits.trans holds.bound_gt) (T.root_mem i fits) rfl udata
        rw [holds.root i fits] at one
        rw [traverseRoots, bound_bind, bind_ok one, List.flatMap_cons, List.map_append, visit_append]
        split_ifs
        · rfl
        · exact ih _ fun j member => small j (List.mem_cons_of_mem i member)
  exact roots _ udata fun i member => List.mem_range.mp member

end Visits

/-- Every node that is allocated is shown once, and the nodes with a value are those that the client
was given for its keys, in the order of the keys. -/
structure Shown (s : BtrieStore) (ledger : Ledger) (live : Finset UInt64) (visited : List Seen) : Prop where
  nodes : ∀ a n, (a, n) ∈ visited.reduceOption ↔ s.heap.lookup a = some n
  once : (visited.reduceOption.map Prod.fst).Nodup
  calls : visited.length = 3 * treeDepth + 2 * s.vars.volume
  keys : ∃ keys : List UInt64, keys.Pairwise (· < ·) ∧ (∀ key, key ∈ keys ↔ key ∈ live) ∧
    (visited.reduceOption.filter fun x => x.2.value.isSome).map (fun x => some x.1) = keys.map ledger

section Tracked

variable {s : BtrieStore} {T : Trie} {addr : Prefix → Addr} {ledger : Ledger} {live : Finset UInt64}

theorem Holds.card (holds : Holds s T addr) : T.nodes.card = treeDepth + s.vars.volume := by
  have roots : (T.nodes.filter fun p => ¬ p.bits ≠ 1) = (Finset.range treeDepth).image fun i => ⟨1, i⟩ := by
    ext p
    rw [Finset.mem_filter, Finset.mem_image, not_not]
    constructor
    · intro both
      rcases p with ⟨bits, free⟩
      obtain rfl : bits = 1 := both.2
      exact ⟨free, Finset.mem_range.mpr (PrefixTrie.free_lt_of_root both.1), rfl⟩
    · rintro ⟨i, small, rfl⟩
      exact ⟨T.root_mem i (Finset.mem_range.mp small), rfl⟩
  have count : ((Finset.range treeDepth).image fun i => (⟨1, i⟩ : Prefix)).card = treeDepth := by
    rw [Finset.card_image_of_injective _ fun i j same => congrArg Prefix.free same, Finset.card_range]
  rw [holds.volume, ← Finset.card_filter_add_card_filter_not (fun p : Prefix => p.bits ≠ 1), roots, count, Nat.add_comm]

theorem record_value_isSome (p : Prefix) :
    (record T addr p).value.isSome = (decide (p.free = 0) && (T.value p.bits).isSome) := by
  by_cases bottom : p.free = 0
  · rw [record_value_bottom bottom, decide_eq_true bottom, Bool.true_and]
  · rw [record_value_inner (by omega), decide_eq_false bottom]
    rfl

/-- A node with a value is the one of a live key. -/
theorem Tracks.key_of (tracks : Tracks s T addr ledger live) {p : Prefix}
    (holding : (decide (p.free = 0) && (T.value p.bits).isSome) = true) :
    (UInt64.ofNat p.bits).toNat = p.bits ∧ UInt64.ofNat p.bits ∈ live ∧ ledger (UInt64.ofNat p.bits) = some (addr p) := by
  rcases (Bool.and_eq_true _ _).mp holding with ⟨bottom, some⟩
  have living : T.Live p.bits := Option.isSome_iff_ne_none.mp some
  have size : (UInt64.ofNat p.bits).toNat = p.bits :=
    UInt64.toNat_ofNat_of_lt' (PrefixTrie.key_lt (T.value_mem _ living))
  have member : UInt64.ofNat p.bits ∈ live := (tracks.stored _).mp (by rwa [size])
  have shape : p = ⟨p.bits, 0⟩ := by rw [← of_decide_eq_true bottom]
  refine ⟨size, member, ?_⟩
  rw [tracks.node member, size, ← shape]

theorem Tracks.shown (tracks : Tracks s T addr ledger live) :
    Shown s ledger live ((PrefixTrie.walkAll T).map (seen T addr)) := by
  have list : ((PrefixTrie.walkAll T).map (seen T addr)).reduceOption =
      (PrefixTrie.walkAll T).reduceOption.map fun p => (addr p, record T addr p) := List.reduceOption_map
  have member (p : Prefix) : p ∈ (PrefixTrie.walkAll T).reduceOption ↔ p ∈ T.nodes := PrefixTrie.mem_walkAll
  constructor
  · intro a n
    rw [list, List.mem_map]
    constructor
    · rintro ⟨p, met, same⟩
      cases same
      exact tracks.holds.cell p ((member p).mp met)
    · intro cell
      rcases tracks.holds.owned a (Finmap.mem_of_lookup_eq_some cell) with ⟨p, here, rfl⟩
      rw [tracks.holds.cell p here, Option.some.injEq] at cell
      exact ⟨p, (member p).mpr here, by rw [cell]⟩
  · rw [list, List.map_map]
    refine (PrefixTrie.walkAll_nodup T).map_on fun p first q second same => ?_
    exact tracks.holds.distinct p ((member p).mp first) q ((member q).mp second) same
  · rw [List.length_map, PrefixTrie.walkAll_length, tracks.holds.card]
    omega
  · let holding (p : Prefix) : Bool := decide (p.free = 0) && (T.value p.bits).isSome
    let kept := (PrefixTrie.walkAll T).reduceOption.filter holding
    refine ⟨kept.map fun p => UInt64.ofNat p.bits, ?_, fun key => ?_, ?_⟩
    · rw [List.pairwise_map]
      refine ((PrefixTrie.walkAll_ascending T).filter holding).imp_of_mem fun first second less => ?_
      have left := (List.mem_filter.mp first).2
      have right := (List.mem_filter.mp second).2
      rw [UInt64.lt_iff_toNat_lt, (tracks.key_of left).1, (tracks.key_of right).1]
      exact less (of_decide_eq_true ((Bool.and_eq_true _ _).mp left).1)
        (of_decide_eq_true ((Bool.and_eq_true _ _).mp right).1)
    · rw [List.mem_map]
      constructor
      · rintro ⟨p, inside, rfl⟩
        exact (tracks.key_of (List.mem_filter.mp inside).2).2.1
      · intro inside
        have living := (tracks.stored key).mpr inside
        have some : holding ⟨key.toNat, 0⟩ = true := Option.isSome_iff_ne_none.mpr living
        refine ⟨⟨key.toNat, 0⟩, List.mem_filter.mpr ⟨(member _).mpr (tracks.node_mem inside), some⟩, ?_⟩
        exact UInt64.ofNat_toNat
    · have same : (fun x : Addr × MnBtrieNode => x.2.value.isSome) ∘ (fun p => (addr p, record T addr p)) = holding :=
        funext record_value_isSome
      rw [list, List.filter_map, same, List.map_map, List.map_map]
      refine List.map_congr_left fun p inside => ?_
      exact (tracks.key_of (List.mem_filter.mp inside).2).2.2.symm

end Tracked

/-- Whatever the callback makes of the nodes, after any run. -/
theorem run_shown (system : Allocator MnBtrieNode) (ops : List Op) (admitted : AdmitsAll ∅ ops) (vars : MnBtrie)
    (tick : Nat) :
    ∃ ledger s visited, run system ops ⟨∅, vars, tick⟩ = .ok (ledger, s) ∧ Shown s ledger (liveKeys ops) visited ∧
      ∀ (A : Type) (f : A → Seen → Int × A) (udata : A),
        btrieTraverse (look f) udata s = .ok (visit f visited udata, s) := by
  obtain ⟨ledger, s, T, addr, ran, tracks, -⟩ := run_tracks system ops admitted vars tick
  exact ⟨ledger, s, _, ran, tracks.shown, fun A => traverse_ok tracks.holds⟩

theorem sampleOps_shown :
    ∃ ledger s visited, run (.bump blankNode) sampleOps ⟨∅, ⟨0, 0⟩, 0⟩ = .ok (ledger, s) ∧
      Shown s ledger (liveKeys sampleOps) visited ∧ ∀ (A : Type) (f : A → Seen → Int × A) (udata : A),
        btrieTraverse (look f) udata s = .ok (visit f visited udata, s) :=
  run_shown _ sampleOps (by decide) _ _

end MnCommon.Btrie
