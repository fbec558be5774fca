import Mathlib.Data.Finset.Union
import MnCommon.Btrie.Map

/-! The shape of the trie: which nodes there are, and that the eager removal and
the deferred sweep leave the same ones. -/

namespace MnCommon.Btrie

open Memory Tries Prefix

/-- The node that the child pointers reach from the root of its length along the
digits of a prefix. -/
def nodeAt (h : Heap MnBtrieNode) (p : Prefix) : Ptr :=
  if p.bits ≤ 1 then
    if p.free < treeDepth then some p.free else none
  else
    match nodeAt h p.parent with
    | none => none
    | some a =>
        match h.lookup a with
        | none => none
        | some n => n.child p.side
termination_by p.bits
decreasing_by
  change p.bits / 2 < p.bits
  omega

/-- The prefixes of the live keys, without those that are roots. -/
def canonical (live : Finset UInt64) : Finset Prefix :=
  live.biUnion fun key => (Finset.range key.toNat.log2).image (cut key.toNat)

theorem mem_canonical (live : Finset UInt64) (p : Prefix) :
    p ∈ canonical live ↔ 1 < p.bits ∧ ∃ key ∈ live, p.Covers key.toNat := by
  simp only [canonical, Finset.mem_biUnion, Finset.mem_image, Finset.mem_range]
  constructor
  · rintro ⟨key, member, free, short, rfl⟩
    have nonzero : key.toNat ≠ 0 := by
      intro zero
      rw [zero, Nat.log2_zero] at short
      exact absurd short (Nat.not_lt_zero _)
    have some := bits_cut_ne_zero nonzero short.le
    have proper : (cut key.toNat free).bits ≠ 1 := by
      intro top
      have length := ((covers_one_iff key.toNat free).mp top).2
      omega
    exact ⟨by omega, key, member, cut_covers _ _⟩
  · rintro ⟨proper, key, member, covers⟩
    have shape := covers.eq_cut
    have short := free_le_log2 (by omega) covers
    refine ⟨key, member, p.free, ?_, shape.symm⟩
    by_contra long
    have level : p.free = key.toNat.log2 := by omega
    have nonzero : key.toNat ≠ 0 := by
      intro zero
      rw [Covers, zero, Nat.zero_div] at covers
      omega
    rw [shape, level, cut_log2 nonzero] at proper
    exact absurd proper (Nat.lt_irrefl 1)

/-- The roots and the nodes of all proper prefixes and of the keys themselves are
there, each at an address of its own, nothing else is, and the counter agrees. -/
structure CanonicalShape (s : BtrieStore) (live : Finset UInt64) : Prop where
  reaches : ∀ p : Prefix, p.bits ≠ 0 →
    (nodeAt s.heap p ≠ none ↔ (p.bits = 1 ∧ p.free < treeDepth) ∨ p ∈ canonical live)
  reached : ∀ a ∈ s.heap, ∃ p : Prefix, p.bits ≠ 0 ∧ nodeAt s.heap p = some a
  apart : ∀ p q : Prefix, p.bits ≠ 0 → q.bits ≠ 0 → nodeAt s.heap p ≠ none →
    nodeAt s.heap p = nodeAt s.heap q → p = q
  volume : s.vars.volume = (canonical live).card

section Shapes

variable {s next : BtrieStore} {T U : Trie} {addr : Prefix → Addr} {ledger ledger' : Ledger}
  {live : Finset UInt64}

theorem nodeAt_root (h : Heap MnBtrieNode) (free : Nat) :
    nodeAt h ⟨1, free⟩ = if free < treeDepth then some free else none := by
  rw [nodeAt, if_pos le_rfl]

theorem nodeAt_eq (holds : Holds s T addr) (p : Prefix) (nonzero : p.bits ≠ 0) :
    nodeAt s.heap p = link T addr p := by
  induction digits : p.bits using Nat.strong_induction_on generalizing p with
  | _ bits ih =>
      by_cases top : p.bits = 1
      · rcases p with ⟨fixed, free⟩
        obtain rfl : fixed = 1 := top
        rw [nodeAt_root]
        by_cases small : free < treeDepth
        · rw [if_pos small, link_mem (T.root_mem free small), holds.root free small]
        · rw [if_neg small, link_absent fun here => small (PrefixTrie.free_lt_of_root here)]
      · have half : p.parent.bits = p.bits / 2 := rfl
        have above := ih p.parent.bits (by omega) p.parent (by omega) rfl
        have deep : 0 < p.parent.free := Nat.succ_pos _
        rw [nodeAt, if_neg (by omega), above]
        by_cases here : p.parent ∈ T.nodes
        · rw [link_mem here]
          simp only [holds.cell _ here, record_child deep, child_parent]
        · rw [link_absent here, link_absent fun inside => here (T.parent_mem p inside top)]

theorem Tracks.liveIn_iff (tracks : Tracks s T addr ledger live) (p : Prefix) :
    (∃ key, T.LiveIn p key) ↔ ∃ key ∈ live, p.Covers key.toNat := by
  constructor
  · rintro ⟨key, value, covers⟩
    have small : key < 2 ^ 64 := PrefixTrie.key_lt (T.value_mem key value)
    have size : (UInt64.ofNat key).toNat = key := UInt64.toNat_ofNat_of_lt' small
    rw [← size] at value covers
    exact ⟨_, (tracks.stored _).mp value, covers⟩
  · rintro ⟨key, member, covers⟩
    exact ⟨key.toNat, (tracks.stored key).mpr member, covers⟩

theorem Tracks.canonicalShape (tracks : Tracks s T addr ledger live) (pruned : T.Pruned) :
    CanonicalShape s live := by
  have node := nodeAt_eq tracks.holds
  refine ⟨fun p nonzero => ?_, fun a inside => ?_, fun p q first second some same => ?_, ?_⟩
  · rw [node p nonzero, ne_eq, link_eq_none, not_not, pruned.mem_iff, tracks.liveIn_iff, mem_canonical]
    constructor
    · rintro (root | ⟨-, key, member, covers⟩)
      · exact .inl root
      · by_cases top : p.bits = 1
        · rcases p with ⟨fixed, free⟩
          obtain rfl : fixed = 1 := top
          have length := ((covers_one_iff _ _).mp covers).2
          exact .inl ⟨rfl, length ▸ log2_lt key⟩
        · exact .inr ⟨by omega, key, member, covers⟩
    · rintro (root | ⟨-, covers⟩)
      · exact .inl root
      · exact .inr ⟨nonzero, covers⟩
  · rcases tracks.holds.owned a inside with ⟨p, here, rfl⟩
    exact ⟨p, (T.fits p here).1, by rw [node p (T.fits p here).1, link_mem here]⟩
  · rw [node p first, ne_eq, link_eq_none, not_not] at some
    rw [node p first, node q second, link_mem some] at same
    rcases tracks.holds.link_cell same.symm with ⟨here, equal, -⟩
    exact (tracks.holds.distinct q here p some equal).symm
  · rw [tracks.holds.volume]
    congr 1
    ext p
    rw [Finset.mem_filter, pruned.mem_iff, tracks.liveIn_iff, mem_canonical]
    constructor
    · rintro ⟨root | ⟨nonzero, covers⟩, proper⟩
      · exact absurd root.1 proper
      · exact ⟨by omega, covers⟩
    · rintro ⟨proper, covers⟩
      exact ⟨.inr ⟨by omega, covers⟩, by omega⟩

/-- Heaps with the same nodes at the same addresses are equal. -/
theorem Holds.heap_eq (first : Holds s T addr) (second : Holds next U addr) (nodes : T.nodes = U.nodes)
    (values : T.value = U.value) : s.heap = next.heap := by
  have records : ∀ p, record T addr p = record U addr p := by
    intro p
    refine record_congr (fun _ => rfl) (fun _ b => ?_) fun _ => by rw [values]
    rw [link, link, nodes]
  apply Finmap.ext_lookup
  intro a
  by_cases inside : a ∈ s.heap
  · rcases first.owned a inside with ⟨p, here, rfl⟩
    rw [first.cell p here, second.cell p (nodes ▸ here), records]
  · have outside : a ∉ next.heap := by
      intro found
      rcases second.owned a found with ⟨p, here, rfl⟩
      exact inside (first.mem_heap (nodes ▸ here))
    rw [Finmap.lookup_eq_none.mpr inside, Finmap.lookup_eq_none.mpr outside]

/-- Removals of several keys, all in the same form. -/
theorem removals_ok (system : Allocator MnBtrieNode) (eager : Bool) {removed : List UInt64}
    (distinct : removed.Nodup) (tracks : Tracks s T addr ledger live) (inside : ∀ key ∈ removed, key ∈ live) :
    ∃ next U ledger', execAll system ledger (removed.map (removeOp eager)) s = .ok (ledger', next) ∧
      Tracks next U addr ledger' (live \ removed.toFinset) ∧
      (∀ k, U.value k = if k ∈ removed.map UInt64.toNat then none else T.value k) ∧
      (eager = true → T.Pruned → U.Pruned) := by
  induction removed generalizing s T ledger live with
  | nil =>
      refine ⟨s, T, ledger, rfl, ?_, fun k => ?_, fun _ => id⟩
      · rwa [List.toFinset_nil, Finset.sdiff_empty]
      · rw [List.map_nil, if_neg List.not_mem_nil]
  | cons key rest ih =>
      rcases List.nodup_cons.mp distinct with ⟨new, later⟩
      obtain ⟨mid, U, ledger', first, between, value, pruned⟩ :=
        remove_step system eager tracks (inside key List.mem_cons_self)
      have left : ∀ other ∈ rest, other ∈ live.erase key := fun other member =>
        Finset.mem_erase.mpr ⟨fun same => new (same ▸ member), inside other (List.mem_cons_of_mem _ member)⟩
      obtain ⟨next, W, ledger'', second, last, value', pruned'⟩ := ih later between left
      refine ⟨next, W, ledger'', (bind_ok first _).trans second, ?_, fun k => ?_,
        fun quick before => pruned' quick (pruned quick before)⟩
      · rwa [List.toFinset_cons, Finset.sdiff_insert, ← Finset.erase_sdiff_comm]
      · rw [value', value, List.map_cons]
        by_cases gone : k ∈ rest.map UInt64.toNat
        · rw [if_pos gone, if_pos (List.mem_cons_of_mem _ gone)]
        · rw [if_neg gone]
          by_cases here : k = key.toNat
          · rw [if_pos here, if_pos (here ▸ List.mem_cons_self)]
          · rw [if_neg here, if_neg (by simp [here, gone])]

theorem execAll_append (system : Allocator MnBtrieNode) (ops rest : List Op) {mid : BtrieStore}
    (first : execAll system ledger ops s = .ok (ledger', mid)) :
    execAll system ledger (ops ++ rest) s = execAll system ledger' rest mid := by
  induction ops generalizing s ledger with
  | nil =>
      cases first
      rfl
  | cons op ops ih =>
      rw [execAll, run_bind] at first
      rw [List.cons_append, execAll, run_bind]
      cases step : exec system ledger op s with
      | error kind =>
          rw [step] at first
          cases first
      | ok result =>
          rw [step] at first
          exact ih first

/-- One sweep after several deferred removals. -/
theorem deferred_ok (system : Allocator MnBtrieNode) {removed : List UInt64} (distinct : removed.Nodup)
    (tracks : Tracks s T addr ledger live) (inside : ∀ key ∈ removed, key ∈ live) :
    ∃ next U ledger',
      execAll system ledger (removed.map .removeNoCleanup ++ [.cleanup]) s = .ok (ledger', next) ∧
      Tracks next U addr ledger' (live \ removed.toFinset) ∧
      (∀ k, U.value k = if k ∈ removed.map UInt64.toNat then none else T.value k) ∧ U.Pruned := by
  obtain ⟨mid, U, ledger', first, between, value, -⟩ := removals_ok system false distinct tracks inside
  obtain ⟨next, W, last, tracked, kept, pruned⟩ := cleanup_step system between
  refine ⟨next, W, ledger', ?_, tracked, fun k => (congrFun kept k).trans (value k), pruned⟩
  exact (execAll_append system _ _ first).trans (bind_ok last _)

end Shapes

/-- The shape after a run without deferred removals; and several keys removed in
any order, with one sweep at the end or eagerly one by one. -/
theorem run_canonical (system : Allocator MnBtrieNode) (ops : List Op) (admitted : AdmitsAll ∅ ops)
    (eager : ∀ op ∈ ops, op.Eager) (vars : MnBtrie) (tick : Nat) :
    ∃ ledger next, run system ops ⟨∅, vars, tick⟩ = .ok (ledger, next) ∧
      CanonicalShape next (liveKeys ops) ∧
      ∀ removed order : List UInt64, removed.Nodup → (∀ key ∈ removed, key ∈ liveKeys ops) →
        removed.Perm order → ∃ ledger' swept pruned,
          execAll system ledger (removed.map .removeNoCleanup ++ [.cleanup]) next = .ok (ledger', swept) ∧
          execAll system ledger (order.map .remove) next = .ok (ledger', pruned) ∧
          swept.heap = pruned.heap ∧ swept.vars.volume = pruned.vars.volume ∧
          CanonicalShape swept (liveKeys ops \ removed.toFinset) := by
  obtain ⟨ledger, next, T, addr, ran, tracks, pruned⟩ := run_tracks system ops admitted vars tick
  have start := pruned eager
  refine ⟨ledger, next, ran, tracks.canonicalShape start, fun removed order distinct inside same => ?_⟩
  obtain ⟨swept, U, deferred, first, between, value, clean⟩ := deferred_ok system distinct tracks inside
  obtain ⟨last, W, stepwise, second, after, value', clean'⟩ := removals_ok system true
    (same.nodup_iff.mp distinct) tracks fun key member => inside key (same.mem_iff.mpr member)
  have rest : liveKeys ops \ removed.toFinset = liveKeys ops \ order.toFinset := by
    rw [List.toFinset_eq_of_perm _ _ same]
  have values : U.value = W.value := by
    funext k
    rw [value, value']
    simp only [(same.map UInt64.toNat).mem_iff]
  have nodes : U.nodes = W.nodes := by
    refine clean.nodes_eq (clean' rfl start) fun key => ?_
    rw [PrefixTrie.Live, PrefixTrie.Live, values]
  have entries : deferred = stepwise := by
    funext key
    rw [between.entries, after.entries, rest]
  refine ⟨deferred, swept, last, first, ?_, between.holds.heap_eq after.holds nodes values, ?_,
    between.canonicalShape clean⟩
  · rw [entries]
    exact second
  · rw [between.holds.volume, after.holds.volume, nodes]

theorem eagerOps_canonical :
    ∃ ledger next, run (.bump blankNode) [.add 1 70, .add 5 71, .add 4 72, .remove 5] ⟨∅, ⟨0, 0⟩, 0⟩ =
        .ok (ledger, next) ∧
      CanonicalShape next (liveKeys [.add 1 70, .add 5 71, .add 4 72, .remove 5]) ∧
      ∀ removed order : List UInt64, removed.Nodup →
        (∀ key ∈ removed, key ∈ liveKeys [.add 1 70, .add 5 71, .add 4 72, .remove 5]) →
        removed.Perm order → ∃ ledger' swept pruned,
          execAll (.bump blankNode) ledger (removed.map .removeNoCleanup ++ [.cleanup]) next =
            .ok (ledger', swept) ∧
          execAll (.bump blankNode) ledger (order.map .remove) next = .ok (ledger', pruned) ∧
          swept.heap = pruned.heap ∧ swept.vars.volume = pruned.vars.volume ∧
          CanonicalShape swept (liveKeys [.add 1 70, .add 5 71, .add 4 72, .remove 5] \ removed.toFinset) :=
  run_canonical _ _ (by decide) (by simp [Op.Eager]) _ _

end MnCommon.Btrie
