import MnCommon.Btrie.Layout

/-! Walks along the digits of one key: the lookup of a node and its addition. -/

namespace MnCommon.Btrie

open Memory Tries Prefix

variable {s : BtrieStore} {T U : Trie} {addr : Prefix → Addr} {key : UInt64}

theorem Holds.root_link (holds : Holds s T addr) (nonzero : key ≠ 0) :
    link T addr (cut key.toNat key.toNat.log2) = some key.toNat.log2 := by
  rw [cut_log2 (toNat_ne_zero nonzero), link_mem (T.root_mem _ (log2_lt key)), holds.root _ (log2_lt key)]

/-- The child that the next digit of the key selects. -/
theorem record_cut (key : UInt64) (idx : Nat) :
    (record T addr (cut key.toNat (idx + 1))).child (cut key.toNat idx).side =
      link T addr (cut key.toNat idx) := by
  rw [record_child (Nat.succ_pos idx), (cut_child key.toNat idx _).mpr rfl]

theorem find_exact_from_ok (holds : Holds s T addr) {idx : Nat} (short : idx ≤ key.toNat.log2) :
    findExactFrom key idx (link T addr (cut key.toNat idx)) s =
      .ok (link T addr ⟨key.toNat, 0⟩, s) := by
  induction idx with
  | zero =>
      rw [cut_zero]
      rfl
  | succ idx ih =>
      by_cases here : cut key.toNat (idx + 1) ∈ T.nodes
      · have small : idx < treeDepth := (Nat.lt_of_succ_le short).trans (log2_lt key)
        rw [link_mem here, findExactFrom, if_neg (Option.some_ne_none _), keySel_eq key small, selBit_check,
          selBit_eq_one, check_bind]
        have loaded := load_ok (holds.cell _ here)
        calc _ = findExactFrom key idx
              ((record T addr (cut key.toNat (idx + 1))).child (cut key.toNat idx).side) s :=
              bind_ok loaded _
          _ = _ := by rw [record_cut, ih (by omega)]
      · have bottom : ⟨key.toNat, 0⟩ ∉ T.nodes := by
          intro inside
          rw [← cut_zero] at inside
          exact here (PrefixTrie.cut_mem 0 inside (Nat.zero_le _) short)
        rw [link_absent here, link_absent bottom, findExactFrom]
        rfl

theorem find_exact_ok (holds : Holds s T addr) (nonzero : key ≠ 0) :
    btrieFindExact key s = .ok (link T addr ⟨key.toNat, 0⟩, s) := by
  rw [btrieFindExact, flsl_eq nonzero, if_neg (Nat.succ_ne_zero _), Nat.add_sub_cancel,
    ← holds.root_link nonzero]
  exact find_exact_from_ok holds le_rfl

/-- The trie after the addition of a key: only nodes of its prefixes are new. -/
structure Extends (key : Nat) (T U : Trie) (addr next : Prefix → Addr) : Prop where
  value : U.value = T.value
  kept : ∀ p ∈ T.nodes, p ∈ U.nodes ∧ next p = addr p
  new : ∀ p ∈ U.nodes, p ∈ T.nodes ∨ p.Covers key
  here : ⟨key, 0⟩ ∈ U.nodes

theorem depth_cut (nonzero : key ≠ 0) {idx : Nat} (short : idx ≤ key.toNat.log2) :
    (cut key.toNat idx).bits.log2 = key.toNat.log2 - idx := by
  have root := below_root (x := cut key.toNat idx) (bits_cut_ne_zero (toNat_ne_zero nonzero) short)
  have length := ((covers_one_iff _ _).mp (root.covers (cut_covers key.toNat idx))).2
  simp only [cut] at length ⊢
  omega

/-- One turn of the loop: a missing node is made before the walk goes on. -/
theorem add_from_succ (system : Allocator MnBtrieNode) (holds : Holds s T addr) {idx : Nat}
    (short : idx + 1 ≤ key.toNat.log2) (here : cut key.toNat (idx + 1) ∈ T.nodes) (digit : UInt16) :
    addFrom system key (idx + 1) digit (some (addr (cut key.toNat (idx + 1)))) s =
      (if link T addr (cut key.toNat idx) = none then do
        addFrom system key idx (digit + 1)
          (← addChild system (some (addr (cut key.toNat (idx + 1)))) idx digit
            (selBit (cut key.toNat idx).side))
      else addFrom system key idx (digit + 1) (link T addr (cut key.toNat idx))) s := by
  have small : idx < treeDepth := (Nat.lt_of_succ_le short).trans (log2_lt key)
  have loaded := load_ok (holds.cell _ here)
  rw [addFrom, addSel_eq key small, selBit_check, check_bind, selBit_eq_one, bind_ok loaded, record_cut]

theorem add_from_ok (system : Allocator MnBtrieNode) (nonzero : key ≠ 0) {idx : Nat}
    (short : idx ≤ key.toNat.log2) (holds : Holds s T addr) (here : cut key.toNat idx ∈ T.nodes) :
    ∃ next U addr', addFrom system key idx (key.toNat.log2 - idx + 1).toUInt16
          (some (addr (cut key.toNat idx))) s = .ok (some (addr' ⟨key.toNat, 0⟩), next) ∧
      Holds next U addr' ∧ Extends key.toNat T U addr addr' ∧ (⟨key.toNat, 0⟩ ∈ T.nodes → next = s) := by
  induction idx generalizing s T addr with
  | zero =>
      rw [cut_zero] at here ⊢
      exact ⟨s, T, addr, rfl, holds, ⟨rfl, fun p inside => ⟨inside, rfl⟩, fun p inside => .inl inside, here⟩,
        fun _ => rfl⟩
  | succ idx ih =>
      have step := add_from_succ system holds short here (key.toNat.log2 - (idx + 1) + 1).toUInt16
      have level : key.toNat.log2 - (idx + 1) + 1 = key.toNat.log2 - idx := by omega
      have digit : (key.toNat.log2 - idx).toUInt16 + 1 = (key.toNat.log2 - idx + 1).toUInt16 := by
        simp [Nat.toUInt16]
      rw [level, digit] at step
      rw [level]
      by_cases present : cut key.toNat idx ∈ T.nodes
      · rw [link_mem present, if_neg (Option.some_ne_none _)] at step
        rw [step]
        exact ih (by omega) holds present
      · rw [link_absent present, if_pos rfl] at step
        have down := (cut_child key.toNat idx _).mpr rfl
        have absent : (cut key.toNat (idx + 1)).child (cut key.toNat idx).side ∉ T.nodes := by
          rwa [down]
        obtain ⟨middle, a, made, grown⟩ := addChild_ok system holds here (Nat.succ_pos idx) absent
        rw [down, depth_cut nonzero (by omega)] at made
        have member : cut key.toNat idx ∈ (T.grow _ _ here (Nat.succ_pos idx)).nodes :=
          Finset.mem_insert.mpr (.inl down.symm)
        obtain ⟨next, U, addr', run, result, grows, same⟩ := ih (by omega) grown member
        have linked : Function.update addr ((cut key.toNat (idx + 1)).child (cut key.toNat idx).side) a
            (cut key.toNat idx) = a := by
          rw [down, Function.update_self]
        rw [linked] at run
        refine ⟨next, U, addr', ?_, result, ⟨grows.value, fun p inside => ?_, fun p inside => ?_,
          grows.here⟩, fun bottom => ?_⟩
        · rw [step]
          exact (bind_ok made _).trans run
        · obtain ⟨kept, same⟩ := grows.kept p (Finset.mem_insert_of_mem inside)
          refine ⟨kept, same.trans (Function.update_of_ne ?_ _ _)⟩
          rintro rfl
          exact absent inside
        · rcases grows.new p inside with old | covers
          · rcases Finset.mem_insert.mp old with rfl | old
            · rw [down]
              exact .inr (cut_covers _ _)
            · exact .inl old
          · exact .inr covers
        · rw [← cut_zero] at bottom
          exact absurd (PrefixTrie.cut_mem 0 bottom (Nat.zero_le _) (by omega)) present

theorem add_node_ok (system : Allocator MnBtrieNode) (nonzero : key ≠ 0) (holds : Holds s T addr) :
    ∃ next U addr', btrieAddNode system key s = .ok (some (addr' ⟨key.toNat, 0⟩), next) ∧
      Holds next U addr' ∧ Extends key.toNat T U addr addr' ∧ (⟨key.toNat, 0⟩ ∈ T.nodes → next = s) := by
  have top := cut_log2 (toNat_ne_zero nonzero)
  have here : cut key.toNat key.toNat.log2 ∈ T.nodes := top ▸ T.root_mem _ (log2_lt key)
  have start := add_from_ok system nonzero le_rfl holds here
  rw [Nat.sub_self, top, holds.root _ (log2_lt key)] at start
  rw [btrieAddNode, flsl_eq nonzero, if_neg (Nat.succ_ne_zero _), Nat.add_sub_cancel]
  exact start

end MnCommon.Btrie
