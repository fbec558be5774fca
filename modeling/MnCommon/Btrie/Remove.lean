import MnCommon.Btrie.Layout

/-! Removal: the node of a key, the eager climb that prunes above it, and the
deferred sweep over all the roots. -/

namespace MnCommon.Btrie

open Memory Tries Prefix

variable {s : BtrieStore} {T : Trie} {addr : Prefix → Addr} {p : Prefix}

section Cells

theorem Holds.parent_ne (holds : Holds s T addr) (here : p ∈ T.nodes) (proper : p.bits ≠ 1) :
    addr p.parent ≠ addr p := by
  intro same
  have level := congrArg Prefix.free (holds.distinct _ (T.parent_mem p here proper) _ here same)
  rw [free_parent] at level
  omega

/-- A parent knows its child, whichever side it is on. -/
theorem unlink_child_ok (other : BtrieProg Unit) (holds : Holds s T addr) (here : p ∈ T.nodes)
    (proper : p.bits ≠ 1) :
    unlinkChild other (some (addr p.parent)) (some (addr p)) s =
      .ok ((), { s with heap := s.heap.insert (addr p.parent) ((record T addr p.parent).setChild p.side none) }) := by
  have deep : 0 < p.parent.free := Nat.succ_pos _
  have cell := holds.cell _ (T.parent_mem p here proper)
  have mine : (record T addr p.parent).child p.side = some (addr p) := by
    rw [record_child deep, child_parent, link_mem here]
  have sibling : (record T addr p.parent).child (!p.side) ≠ some (addr p) := by
    intro found
    rw [record_child deep] at found
    rcases holds.link_cell found with ⟨inside, same, -⟩
    have apart := child_ne p.parent p.side
    rw [child_parent] at apart
    exact apart (holds.distinct _ inside _ here same)
  rw [unlinkChild, bind_ok (load_ok cell)]
  cases side : p.side with
  | false =>
      rw [side] at mine
      rw [if_pos mine]
      exact update_ok _ cell
  | true =>
      rw [side] at mine sibling
      have left : (record T addr p.parent).child false ≠ some (addr p) := sibling
      rw [if_neg left, if_pos mine]
      exact update_ok _ cell

/-- Unhooked, released and no longer counted. -/
theorem Holds.unlinked (holds : Holds s T addr) (here : p ∈ T.nodes) (proper : p.bits ≠ 1)
    (orphan : T.Orphan p) (heap : Heap MnBtrieNode) (vars : MnBtrie)
    (volume : vars.volume = s.vars.volume - 1)
    (same : ∀ c, c ≠ addr p → heap.lookup c =
      (s.heap.insert (addr p.parent) ((record T addr p.parent).setChild p.side none)).lookup c) :
    Holds { s with heap := heap.erase (addr p), vars := vars } (T.prune p proper orphan) addr := by
  have apart := holds.parent_ne here proper
  refine holds.pruned here proper orphan (Finmap.lookup_erase _ _) ?_ ?_ volume
  · rw [Finmap.lookup_erase_ne apart, same _ apart, Finmap.lookup_insert]
  · intro c other above
    rw [Finmap.lookup_erase_ne other, same _ other, Finmap.lookup_insert_of_ne _ above]

/-- The other order of the same steps: released, then unhooked. -/
theorem drop_child_ok (holds : Holds s T addr) (here : p ∈ T.nodes) (proper : p.bits ≠ 1)
    (orphan : T.Orphan p) :
    ∃ next, dropChild (some (addr p.parent)) (some (addr p)) p.side s = .ok ((), next) ∧
      Holds next (T.prune p proper orphan) addr := by
  have apart := holds.parent_ne here proper
  have cell := holds.cell _ (T.parent_mem p here proper)
  have above : (s.heap.erase (addr p)).lookup (addr p.parent) = some (record T addr p.parent) := by
    rw [Finmap.lookup_erase_ne apart, cell]
  have updated := update_ok (s := { s with heap := s.heap.erase (addr p) })
    (fun x => x.setChild p.side none) above
  let next : BtrieStore :=
    ⟨(s.heap.erase (addr p)).insert (addr p.parent) ((record T addr p.parent).setChild p.side none),
      { s.vars with volume := s.vars.volume - 1 }, s.tick⟩
  refine ⟨next, ?_, holds.pruned here proper orphan ?_ (Finmap.lookup_insert _) ?_ rfl⟩
  · rw [dropChild, bind_ok (free_ok (holds.cell p here)), bind_ok updated]
    rfl
  · rw [Finmap.lookup_insert_of_ne _ apart.symm, Finmap.lookup_erase]
  · intro c other higher
    rw [Finmap.lookup_insert_of_ne _ higher, Finmap.lookup_erase_ne other]

theorem fini_ok (fuel : Nat) {a : Addr} {n : MnBtrieNode} (cell : s.heap.lookup a = some n)
    (childless : ∀ b, n.child b = none) :
    btrieNodeFini (fuel + 1) (some a) s =
      .ok ((), { s with heap := s.heap.insert a { n with parent := none } }) := by
  have skip : ∀ fini b, finiChild fini (some a) b s = .ok ((), s) := by
    intro fini b
    rw [finiChild, bind_ok (load_ok cell), childless b]
    rfl
  rw [btrieNodeFini, Option.isSome_some, check_bind, bind_ok (skip _ false), bind_ok (skip _ true)]
  exact update_ok _ cell

theorem insert_same {heap : Heap MnBtrieNode} {a : Addr} {n : MnBtrieNode}
    (cell : heap.lookup a = some n) : heap.insert a n = heap := by
  apply Finmap.ext_lookup
  intro c
  by_cases same : c = a
  · rw [same, Finmap.lookup_insert, cell]
  · rw [Finmap.lookup_insert_of_ne _ same]

end Cells

section Climb

theorem cleanup_orphans_ok {fuel : Nat} (holds : Holds s T addr) (here : p ∈ T.nodes)
    (enough : treeDepth < fuel + p.free) :
    ∃ next U, cleanupOrphans fuel (some (addr p)) s = .ok ((), next) ∧ Holds next U addr ∧
      U.value = T.value ∧ U.nodes ⊆ T.nodes ∧
      ((∀ x ∈ T.nodes, x.bits = 1 ∨ (∃ key, T.LiveIn x key) ∨ Below p x) → U.Pruned) := by
  induction fuel generalizing s T p with
  | zero =>
      have level := Holds.free_lt here
      omega
  | succ fuel ih =>
      have loaded := load_ok (holds.cell p here)
      by_cases top : p.bits = 1
      · refine ⟨s, T, ?_, holds, rfl, subset_rfl, fun others x inside => ?_⟩
        · rw [cleanupOrphans, bind_ok loaded, if_pos (record_parent_root top)]
          rfl
        · rcases others x inside with root | found | below
          · exact .inl root
          · exact .inr found
          · exact .inl (below.bits_eq_one top (T.fits x inside).1)
      · have parent : (record T addr p).parent = some (addr p.parent) := record_parent top
        by_cases orphan : T.Orphan p
        · have unlinked := unlink_child_ok (fault .assertion) holds here top
          have cut := holds.unlinked here top orphan _ { s.vars with volume := s.vars.volume - 1 } rfl
            fun c _ => rfl
          have above : p.parent ∈ (T.prune p top orphan).nodes := by
            refine Finset.mem_erase.mpr ⟨fun same => ?_, T.parent_mem p here top⟩
            have level := congrArg Prefix.free same
            rw [free_parent] at level
            omega
          obtain ⟨next, U, run, result, value, subset, pruned⟩ := ih cut above (by rw [free_parent]; omega)
          refine ⟨next, U, ?_, result, value, subset.trans (Finset.erase_subset _ _), fun others => ?_⟩
          · have cell : (s.heap.insert (addr p.parent) ((record T addr p.parent).setChild p.side none)).lookup
                (addr p) = some (record T addr p) := by
              rw [Finmap.lookup_insert_of_ne _ (holds.parent_ne here top).symm, holds.cell p here]
            rw [cleanupOrphans, bind_ok loaded, parent, if_neg (Option.some_ne_none _),
              if_pos ((record_isOrphan T addr p).mpr orphan), bind_ok unlinked, bind_ok (free_ok cell)]
            exact run
          · refine pruned fun x inside => ?_
            rcases Finset.mem_erase.mp inside with ⟨other, member⟩
            rcases others x member with root | found | below
            · exact .inl root
            · exact .inr (.inl found)
            · exact .inr (.inr (below.parent (Ne.symm other)))
        · refine ⟨s, T, ?_, holds, rfl, subset_rfl, PrefixTrie.pruned_of_not_orphan here orphan⟩
          rw [cleanupOrphans, bind_ok loaded, parent, if_neg (Option.some_ne_none _),
            if_neg (mt (record_isOrphan T addr p).mp orphan)]
          rfl

end Climb

section Sweep

/-- The specification that a sweep below a child meets. -/
def Sweeps (cleanup : Ptr → BtrieProg Unit) (p : Prefix) : Prop :=
  ∀ (s : BtrieStore) (T : Trie) (addr : Prefix → Addr), Holds s T addr → p ∈ T.nodes →
    ∃ next U, cleanup (some (addr p)) s = .ok ((), next) ∧ Holds next U addr ∧ PrefixTrie.Swept p T U

/-- What one of the two blocks of the sweep leaves: below the child nothing
without a purpose, and the child only if it has one itself. -/
structure SweptChild (p : Prefix) (b : Bool) (T U : Trie) : Prop where
  value : U.value = T.value
  subset : U.nodes ⊆ T.nodes
  high : ∀ x ∈ T.nodes, p.free ≤ x.free → x ∈ U.nodes
  clean : 0 < p.free → ∀ x ∈ U.nodes, Below x (p.child b) → ∃ key, T.LiveIn x key

theorem SweptChild.none {b : Bool} (here : p ∈ T.nodes) (absent : 0 < p.free → p.child b ∉ T.nodes) :
    SweptChild p b T T := by
  refine ⟨rfl, subset_rfl, fun x inside _ => inside, fun deep x inside below => ?_⟩
  have nonzero := bits_child_ne_zero (T.fits p here).1 b
  exact absurd (PrefixTrie.mem_of_below inside below nonzero) (absent deep)

theorem cleanup_child_ok {cleanup : Ptr → BtrieProg Unit} {b : Bool} (holds : Holds s T addr)
    (here : p ∈ T.nodes) (sweeps : 0 < p.free → Sweeps cleanup (p.child b)) :
    ∃ next U, cleanupChild cleanup (some (addr p)) b s = .ok ((), next) ∧ Holds next U addr ∧
      SweptChild p b T U := by
  have loaded := load_ok (holds.cell p here)
  rw [cleanupChild, bind_ok loaded]
  by_cases deep : 0 < p.free
  · rw [record_child deep]
    by_cases present : p.child b ∈ T.nodes
    · have nonzero := (T.fits _ present).1
      have proper := bits_child_ne_one (T.fits p here).1 b
      have child_loaded := load_ok (holds.cell _ present)
      rw [link_mem present, if_pos (Option.some_ne_none _), bind_ok child_loaded]
      -- Both branches come to the same test; a child that is an orphan at once has nothing to sweep.
      have middle : ∃ mid U, Holds mid U addr ∧ PrefixTrie.Swept (p.child b) T U ∧
          (if (!(record T addr (p.child b)).isOrphan) = true then do
            cleanup (some (addr (p.child b)))
            if (← load (some (addr (p.child b)))).isOrphan = true then
              dropChild (some (addr p)) (some (addr (p.child b))) b
          else dropChild (some (addr p)) (some (addr (p.child b))) b) s =
          (if (record U addr (p.child b)).isOrphan = true then
            dropChild (some (addr p)) (some (addr (p.child b))) b
          else pure ()) mid := by
        by_cases orphan : T.Orphan (p.child b)
        · have test := (record_isOrphan T addr _).mpr orphan
          refine ⟨s, T, holds, orphan.swept nonzero, ?_⟩
          rw [test]
          rfl
        · have test := mt (record_isOrphan T addr _).mp orphan
          obtain ⟨mid, U, run, result, swept⟩ := sweeps deep s T addr holds present
          have kept := swept.high _ present le_rfl
          refine ⟨mid, U, result, swept, ?_⟩
          rw [Bool.not_eq_true] at test
          rw [test, Bool.not_false, if_pos rfl, bind_ok run, bind_ok (load_ok (result.cell _ kept))]
      obtain ⟨mid, U, result, swept, run⟩ := middle
      have kept := swept.high _ present le_rfl
      rw [run]
      by_cases orphan : U.Orphan (p.child b)
      · obtain ⟨next, dropped, last⟩ := drop_child_ok result kept proper orphan
        rw [parent_child deep, side_child] at dropped
        rw [if_pos ((record_isOrphan U addr _).mpr orphan)]
        refine ⟨next, _, dropped, last, swept.value, (Finset.erase_subset _ _).trans swept.subset,
          fun x inside level => ?_, fun _ x inside below => ?_⟩
        · refine Finset.mem_erase.mpr ⟨?_, swept.high x inside (by rw [free_child]; omega)⟩
          rintro rfl
          rw [free_child] at level
          omega
        · rcases Finset.mem_erase.mp inside with ⟨other, member⟩
          refine swept.clean x member ?_ below
          by_contra level
          exact other (below.eq_of_free_le (by omega))
      · rw [if_neg (mt (record_isOrphan U addr _).mp orphan)]
        refine ⟨mid, U, rfl, result, swept.value, swept.subset, fun x inside level => ?_,
          fun _ x inside below => swept.keep orphan inside below⟩
        exact swept.high x inside (by rw [free_child]; omega)
    · rw [link_absent present]
      exact ⟨s, T, rfl, holds, .none here fun _ => present⟩
  · rw [record_child_bottom (by omega)]
    exact ⟨s, T, rfl, holds, .none here fun level => absurd level deep⟩

theorem cleanup_ok (fuel : Nat) (enough : p.free < fuel) : Sweeps (btrieNodeCleanup fuel) p := by
  induction fuel generalizing p with
  | zero => exact absurd enough (Nat.not_lt_zero _)
  | succ fuel ih =>
      intro s T addr holds here
      have loaded := load_ok (holds.cell p here)
      rw [btrieNodeCleanup, Option.isSome_some, check_bind, bind_ok loaded]
      by_cases orphan : T.Orphan p
      · rw [if_pos ((record_isOrphan T addr p).mpr orphan)]
        exact ⟨s, T, rfl, holds, orphan.swept (T.fits p here).1⟩
      · rw [if_neg (mt (record_isOrphan T addr p).mp orphan)]
        have lower : 0 < p.free → ∀ b, Sweeps (btrieNodeCleanup fuel) (p.child b) := by
          intro deep b
          refine ih ?_
          rw [free_child]
          omega
        obtain ⟨mid, U, left, between, first⟩ := cleanup_child_ok holds here fun deep => lower deep false
        have kept := first.high p here le_rfl
        obtain ⟨next, W, right, result, second⟩ := cleanup_child_ok between kept fun deep => lower deep true
        refine ⟨next, W, (bind_ok left _).trans right, result, second.value.trans first.value,
          second.subset.trans first.subset,
          fun x inside level => second.high x (first.high x inside level) level, fun x inside level below => ?_⟩
        rcases below.child level with ⟨b, lower⟩
        cases b with
        | false => exact first.clean (by omega) x (second.subset inside) lower
        | true =>
            rcases second.clean (by omega) x inside lower with ⟨key, live⟩
            exact ⟨key, by rwa [PrefixTrie.LiveIn, PrefixTrie.Live, first.value] at live⟩

theorem cleanup_roots_ok (holds : Holds s T addr) {n : Nat} (small : n ≤ treeDepth) :
    ∃ next U, cleanupRoots n s = .ok ((), next) ∧ Holds next U addr ∧ U.value = T.value ∧
      U.nodes ⊆ T.nodes ∧
      ∀ i < n, ∀ x ∈ U.nodes, x.free < i → Below x ⟨1, i⟩ → ∃ key, T.LiveIn x key := by
  induction n with
  | zero => exact ⟨s, T, rfl, holds, rfl, subset_rfl, fun i none => absurd none (Nat.not_lt_zero _)⟩
  | succ n ih =>
      obtain ⟨mid, U, first, between, value, subset, clean⟩ := ih (by omega)
      have sweep := cleanup_ok mid.bound (p := ⟨1, n⟩) (Nat.lt_of_succ_le (small.trans between.bound_gt.le))
      obtain ⟨next, W, second, result, swept⟩ := sweep mid U addr between (U.root_mem n small)
      rw [between.root n small] at second
      refine ⟨next, W, ?_, result, swept.value.trans value, swept.subset.trans subset,
        fun i inside x member level below => ?_⟩
      · rw [cleanupRoots, bind_ok first]
        exact second
      · rcases Nat.lt_succ_iff_lt_or_eq.mp inside with lower | rfl
        · exact clean i lower x (swept.subset member) level below
        · rcases swept.clean x member level below with ⟨key, live⟩
          exact ⟨key, by rwa [PrefixTrie.LiveIn, PrefixTrie.Live, value] at live⟩

theorem btrie_cleanup_ok (holds : Holds s T addr) :
    ∃ next U, btrieCleanup s = .ok ((), next) ∧ Holds next U addr ∧ U.value = T.value ∧
      U.nodes ⊆ T.nodes ∧ U.Pruned := by
  obtain ⟨next, U, run, result, value, subset, clean⟩ := cleanup_roots_ok holds le_rfl
  refine ⟨next, U, run, result, value, subset, fun x inside => ?_⟩
  have nonzero := (U.fits x inside).1
  have below := below_root nonzero
  have small := PrefixTrie.free_lt_of_root (PrefixTrie.mem_of_below inside below Nat.one_ne_zero)
  by_cases top : x.bits = 1
  · exact .inl top
  · have depth : 0 < x.bits.log2 := Nat.lt_of_lt_of_le Nat.one_pos ((Nat.le_log2 nonzero).mpr (by omega))
    rcases clean _ small x inside (by omega) below with ⟨key, live⟩
    exact .inr ⟨key, by rwa [PrefixTrie.LiveIn, PrefixTrie.Live, value]⟩

end Sweep

section Node

variable {key : Nat}

/-- The node of a key without value goes; the root of length one stays. -/
theorem remove_body_ok (finish : Ptr → BtrieProg Unit) (holds : Holds s T addr)
    (here : ⟨key, 0⟩ ∈ T.nodes) (cleared : ¬ T.Live key) :
    ∃ next U, removeNodeBody (some (addr ⟨key, 0⟩)) finish s =
        (do finish (record T addr ⟨key, 0⟩).parent; return 0 : BtrieProg Int) next ∧
      Holds next U addr ∧ U.value = T.value ∧
      ∀ x, x ∈ U.nodes ↔ x ∈ T.nodes ∧ (x = ⟨key, 0⟩ → key = 1) := by
  have loaded := load_ok (holds.cell _ here)
  have value : (record T addr ⟨key, 0⟩).value = none := not_not.mp cleared
  have childless : ∀ b, (record T addr ⟨key, 0⟩).child b = none := record_child_bottom rfl
  have orphan : T.Orphan ⟨key, 0⟩ := ⟨fun deep => absurd deep (Nat.lt_irrefl _), fun _ => cleared⟩
  rw [removeNodeBody, bind_ok loaded, value]
  change ∃ next U, (check true >>= _) s = _ ∧ _
  rw [check_bind]
  by_cases top : key = 1
  · have parent : (record T addr ⟨key, 0⟩).parent = none := record_parent_root top
    have fini := fini_ok s.heap.keys.card (holds.cell _ here) childless
    have same : { record T addr ⟨key, 0⟩ with parent := none } = record T addr ⟨key, 0⟩ := by rw [← parent]
    rw [same, insert_same (holds.cell _ here)] at fini
    refine ⟨s, T, ?_, holds, rfl, fun x => ⟨fun inside => ⟨inside, fun _ => top⟩, And.left⟩⟩
    rw [parent, if_neg (not_not.mpr rfl), bound_bind]
    exact bind_ok fini _
  · have proper : (⟨key, 0⟩ : Prefix).bits ≠ 1 := top
    have parent : (record T addr ⟨key, 0⟩).parent = some (addr (Prefix.parent ⟨key, 0⟩)) :=
      record_parent proper
    have unlinked := unlink_child_ok (fault .abort) holds here proper
    have apart := holds.parent_ne here proper
    let mid : BtrieStore := ⟨s.heap.insert (addr (Prefix.parent ⟨key, 0⟩))
      ((record T addr (Prefix.parent ⟨key, 0⟩)).setChild (side ⟨key, 0⟩) none), s.vars, s.tick⟩
    have cell : mid.heap.lookup (addr ⟨key, 0⟩) = some (record T addr ⟨key, 0⟩) := by
      rw [Finmap.lookup_insert_of_ne _ apart.symm, holds.cell _ here]
    have fini := fini_ok mid.heap.keys.card cell childless
    have freed := free_ok (s := { mid with heap := mid.heap.insert (addr ⟨key, 0⟩) _ })
      (Finmap.lookup_insert (b := { record T addr ⟨key, 0⟩ with parent := none }) _)
    refine ⟨_, _, ?_, holds.unlinked here proper orphan
      (mid.heap.insert (addr ⟨key, 0⟩) { record T addr ⟨key, 0⟩ with parent := none })
      { s.vars with volume := s.vars.volume - 1 } rfl fun c other => Finmap.lookup_insert_of_ne _ other, rfl,
        fun x => ?_⟩
    · rw [parent, if_pos (Option.some_ne_none _), bind_ok unlinked, bound_bind]
      exact (bind_ok fini _).trans (bind_ok freed _)
    · rw [PrefixTrie.prune, Finset.mem_erase, and_comm]
      exact and_congr_right fun _ => ⟨fun other same => absurd same other, fun same equal => top (same equal)⟩

theorem btrie_remove_node_no_cleanup_ok (holds : Holds s T addr) (here : ⟨key, 0⟩ ∈ T.nodes)
    (cleared : ¬ T.Live key) :
    ∃ next U, btrieRemoveNodeNoCleanup (some (addr ⟨key, 0⟩)) s = .ok (0, next) ∧ Holds next U addr ∧
      U.value = T.value ∧ ∀ x ∈ U.nodes, x ∈ T.nodes ∧ (x = ⟨key, 0⟩ → key = 1) := by
  obtain ⟨next, U, run, result, value, nodes⟩ := remove_body_ok (fun _ => pure ()) holds here cleared
  exact ⟨next, U, run, result, value, fun x => (nodes x).mp⟩

/-- The eager removal leaves a pruned trie when only the prefixes of the removed
key may have lost their purpose. -/
theorem btrie_remove_node_ok (holds : Holds s T addr) (here : ⟨key, 0⟩ ∈ T.nodes)
    (cleared : ¬ T.Live key) :
    ∃ next U, btrieRemoveNode (some (addr ⟨key, 0⟩)) s = .ok (0, next) ∧ Holds next U addr ∧
      U.value = T.value ∧ (∀ x ∈ U.nodes, x ∈ T.nodes ∧ (x = ⟨key, 0⟩ → key = 1)) ∧
      ((∀ x ∈ T.nodes, x.bits = 1 ∨ (∃ k, T.LiveIn x k) ∨ x.Covers key) → U.Pruned) := by
  obtain ⟨mid, U, run, between, value, nodes⟩ :=
    remove_body_ok (fun parent => do cleanupOrphans (← bound) parent) holds here cleared
  have same : ∀ x k, U.LiveIn x k ↔ T.LiveIn x k := by
    intro x k
    rw [PrefixTrie.LiveIn, PrefixTrie.LiveIn, PrefixTrie.Live, PrefixTrie.Live, value]
  by_cases top : key = 1
  · refine ⟨mid, U, ?_, between, value, fun x => (nodes x).mp, fun others x inside => ?_⟩
    · rw [btrieRemoveNode, run, record_parent_root top]
      rfl
    · rcases others x ((nodes x).mp inside).1 with root | ⟨k, live⟩ | covers
      · exact .inl root
      · exact .inr ⟨k, (same x k).mpr live⟩
      · exact .inl ((below_of_covers covers).bits_eq_one top (U.fits x inside).1)
  · have proper : (⟨key, 0⟩ : Prefix).bits ≠ 1 := top
    have level : ∀ x : Prefix, x = ⟨key, 0⟩ → x.free = 0 := fun x equal => equal ▸ rfl
    have above : Prefix.parent ⟨key, 0⟩ ∈ U.nodes :=
      (nodes _).mpr ⟨T.parent_mem _ here proper, fun equal => absurd (level _ equal) (Nat.succ_ne_zero 0)⟩
    obtain ⟨next, W, climbed, result, kept, subset, pruned⟩ := cleanup_orphans_ok between above
      (Nat.lt_add_right _ between.bound_gt)
    refine ⟨next, W, ?_, result, kept.trans value, fun x inside => (nodes x).mp (subset inside), fun others =>
      pruned fun x inside => ?_⟩
    · have climbing : (do cleanupOrphans (← bound) (some (addr (Prefix.parent ⟨key, 0⟩))) : BtrieProg Unit) mid =
          .ok ((), next) := climbed
      rw [btrieRemoveNode, run, record_parent proper]
      exact bind_ok climbing _
    · rcases (nodes x).mp inside with ⟨member, other⟩
      rcases others x member with root | ⟨k, live⟩ | covers
      · exact .inl root
      · exact .inr (.inl ⟨k, (same x k).mpr live⟩)
      · exact .inr (.inr ((below_of_covers covers).parent fun equal => top (other equal.symm)))

end Node

end MnCommon.Btrie
