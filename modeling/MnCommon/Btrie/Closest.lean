import MnCommon.Btrie.Layout

/-! The search for the nearest key in one of two directions. `side` is true for
the search upwards, in which the children on the side of one lie further on. -/

namespace MnCommon.Btrie

open Memory Tries Prefix

variable {s : BtrieStore} {T : Trie} {addr : Prefix → Addr} {p : Prefix} {side : Bool}

/-- The pointer to the node of a key that was found. -/
def keyNode (addr : Prefix → Addr) (found : Option Nat) : Ptr := found.map fun key => addr ⟨key, 0⟩

theorem keyNode_or (found other : Option Nat) :
    keyNode addr (found.or other) = if keyNode addr found ≠ none then keyNode addr found
      else keyNode addr other := by
  cases found with
  | none => rfl
  | some key => rfl

/-- A search that answers for the keys in `live`. -/
def Finds (search : BtrieProg Ptr) (s : BtrieStore) (addr : Prefix → Addr) (side : Bool)
    (live : Nat → Prop) : Prop :=
  ∃ found, Nearest side live found ∧ search s = .ok (keyNode addr found, s)

theorem Finds.congr {search : BtrieProg Ptr} {near far : Nat → Prop} (finds : Finds search s addr side near)
    (same : ∀ key, near key ↔ far key) : Finds search s addr side far := by
  rcases finds with ⟨found, nearest, run⟩
  exact ⟨found, nearest.congr same, run⟩

theorem Finds.none {search : BtrieProg Ptr} {live : Nat → Prop} (empty : ∀ key, ¬ live key)
    (run : search s = .ok (Option.none, s)) : Finds search s addr side live :=
  ⟨Option.none, .absent empty, run⟩

/-- Two searches one after the other, the second only when the first is in vain. -/
theorem Finds.orElse {search second : BtrieProg Ptr} {near far : Nat → Prop}
    (apart : ∀ x y, near x → far y → Nearer side x y) (first : Finds search s addr side near)
    (next : Finds second s addr side far) :
    Finds (do let res ← search; if res ≠ Option.none then return res else second) s addr side
      fun key => near key ∨ far key := by
  rcases first with ⟨found, nearest, run⟩
  rcases next with ⟨other, further, rest⟩
  refine ⟨found.or other, nearest.orElse apart fun _ => further, ?_⟩
  rw [bind_ok run, keyNode_or, run_ite, rest]
  split <;> rfl

theorem liveIn_bottom {key : Nat} (bottom : p.free = 0) (live : T.LiveIn p key) : key = p.bits :=
  ((covers_zero bottom key).mp live.2).symm

/-- At the bottom there is one key, and the node is the answer. -/
theorem Finds.bottom {search : BtrieProg Ptr} (bottom : p.free = 0) (value : T.value p.bits ≠ Option.none)
    (run : search s = .ok (some (addr p), s)) : Finds search s addr side (T.LiveIn p) := by
  have shape : p = ⟨p.bits, 0⟩ := by rw [← bottom]
  have live : T.LiveIn p p.bits := ⟨value, (covers_zero bottom _).mpr rfl⟩
  refine ⟨some p.bits, Nearest.single live fun key => liveIn_bottom bottom, ?_⟩
  rw [run, keyNode, Option.map_some, ← shape]

theorem find_value_in_ok {find : Ptr → BtrieProg Ptr} (holds : Holds s T addr)
    (finds : p ∈ T.nodes → Finds (find (some (addr p))) s addr side (T.LiveIn p))
    (nonzero : p.bits ≠ 0) :
    Finds (findValueIn find (link T addr p)) s addr side (T.LiveIn p) := by
  by_cases here : p ∈ T.nodes
  · have loaded := load_ok (holds.cell p here)
    rw [link_mem here, findValueIn, if_neg (Option.some_ne_none _)]
    by_cases value : (record T addr p).value ≠ none
    · have bottom : p.free = 0 := by
        by_contra deep
        exact value (record_value_inner (Nat.pos_of_ne_zero deep))
      rw [record_value_bottom bottom] at value
      refine .bottom bottom value ?_
      rw [bind_ok loaded, record_value_bottom bottom, if_pos value]
      rfl
    · rcases finds here with ⟨found, nearest, run⟩
      refine ⟨found, nearest, ?_⟩
      rw [bind_ok loaded, if_neg value, run]
  · rw [link_absent here]
    exact .none (fun key live => here (PrefixTrie.mem_of_liveIn nonzero live)) rfl

theorem find_value_ok (side : Bool) {fuel : Nat} (holds : Holds s T addr) (here : p ∈ T.nodes)
    (enough : p.free < fuel) :
    Finds (findValue (!side) fuel (some (addr p))) s addr side (T.LiveIn p) := by
  induction fuel generalizing p with
  | zero => exact absurd enough (Nat.not_lt_zero _)
  | succ fuel ih =>
      have loaded := load_ok (holds.cell p here)
      by_cases deep : 0 < p.free
      · have nonzero := bits_child_ne_zero (T.fits p here).1
        have below : ∀ b, Finds (findValueIn (findValue (!side) fuel) (link T addr (p.child b))) s addr side
            (T.LiveIn (p.child b)) := fun b =>
          find_value_in_ok holds (fun inside => ih inside (by rw [free_child]; omega)) (nonzero b)
        have split : ∀ key, T.LiveIn (p.child (!side)) key ∨ T.LiveIn (p.child side) key ↔ T.LiveIn p key := by
          intro key
          rw [PrefixTrie.liveIn_child_iff deep]
          cases side <;> simp [or_comm]
        have both := (below (!side)).orElse (fun x y near far => child_apart side p near.2 far.2) (below side)
        rcases both.congr split with ⟨found, nearest, run⟩
        refine ⟨found, nearest, ?_⟩
        rw [findValue, bind_ok loaded, record_value_inner deep, if_neg (not_not.mpr rfl), record_child deep,
          record_child deep, Bool.not_not]
        exact run
      · have bottom : p.free = 0 := by omega
        have childless : ∀ b, (record T addr p).child b = none := record_child_bottom bottom
        by_cases value : T.value p.bits ≠ none
        · refine .bottom bottom value ?_
          rw [findValue, bind_ok loaded, record_value_bottom bottom, if_pos value]
          rfl
        · refine .none (fun key live => value (liveIn_bottom bottom live ▸ live.1)) ?_
          rw [findValue, bind_ok loaded, record_value_bottom bottom, if_neg value, childless, childless]
          rfl

theorem is_selected_ok (here : p ∈ T.nodes) (proper : p.bits ≠ 1) :
    isSelected (record T addr p) side s = .ok (p.side == side, s) := by
  rw [isSelected, nodeSel0_record here proper]
  cases p.side <;> rfl

/-- Where the climb ends, everything past the start lies beyond. -/
theorem climb_ok (side : Bool) {fuel i : Nat} (holds : Holds s T addr) (here : p ∈ T.nodes) (root : Below p ⟨1, i⟩)
    (enough : treeDepth < fuel + p.free) :
    (climb side fuel (some (addr p)) s = .ok (none, s) ∧
        ∀ key, (⟨1, i⟩ : Prefix).Covers key → ¬ Past side p key) ∨
      ∃ q ∈ T.nodes, climb side fuel (some (addr p)) s = .ok (some (addr q), s) ∧ p.free < q.free ∧
        Below q ⟨1, i⟩ ∧ ∀ key, Past side p key ↔ Beyond side q key := by
  induction fuel generalizing p with
  | zero =>
      have level := Holds.free_lt here
      omega
  | succ fuel ih =>
      have loaded := load_ok (holds.cell p here)
      rw [climb, bind_ok loaded]
      by_cases top : p.bits = 1
      · have unselected : isSelected (record T addr p) side s = .ok (false == side, s) := by
          rw [isSelected, nodeSel0_root top]
          cases side <;> rfl
        refine .inl ⟨?_, fun key covers => ?_⟩
        · rw [bind_ok unselected, record_parent_root top, if_neg fun both => both.1 rfl]
          rfl
        · rw [root.eq_root top]
          exact not_past_root covers
      · have parent : (record T addr p).parent = some (addr p.parent) := record_parent top
        have above := T.parent_mem p here top
        have higher : Below p.parent ⟨1, i⟩ := root.parent fun same => top (same ▸ rfl)
        rw [bind_ok (is_selected_ok here top), parent]
        by_cases same : p.side = side
        · rw [if_pos ⟨Option.some_ne_none _, beq_iff_eq.mpr same⟩]
          rcases ih above higher (by rw [free_parent]; omega) with ⟨run, none⟩ | ⟨q, inside, run, level, below, far⟩
          · exact .inl ⟨run, fun key covers past => none key covers ((past_far same).mp past)⟩
          · rw [free_parent] at level
            exact .inr ⟨q, inside, run, by omega, below, fun key => (past_far same).trans (far key)⟩
        · rw [if_neg fun both => same (beq_iff_eq.mp both.2)]
          exact .inr ⟨p.parent, above, rfl, Nat.lt_succ_self _, higher, fun key => past_near same⟩

theorem lean_into_ok (side : Bool) (holds : Holds s T addr) (here : p ∈ T.nodes) (deep : 0 < p.free) :
    Finds (leanInto side ((record T addr p).child side)) s addr side (T.LiveIn (p.child side)) := by
  have nonzero := bits_child_ne_zero (T.fits p here).1 side
  rw [record_child deep, leanInto]
  by_cases present : p.child side ∈ T.nodes
  · rw [link_mem present, if_pos (Option.some_ne_none _)]
    have level := Holds.free_lt present
    exact find_value_ok side holds present (level.trans holds.bound_gt)
  · rw [link_absent present]
    exact .none (fun key live => present (PrefixTrie.mem_of_liveIn nonzero live)) rfl

/-- What lies beyond a node is in its far child or past the node. -/
theorem live_beyond {i key : Nat} (deep : 0 < p.free) (root : Below p ⟨1, i⟩) :
    T.LiveIn (p.child side) key ∨ T.LiveIn ⟨1, i⟩ key ∧ Past side p key ↔
      T.LiveIn ⟨1, i⟩ key ∧ Beyond side p key := by
  constructor
  · rintro (near | far)
    · exact ⟨⟨near.1, root.covers (near.2.of_child deep)⟩, .inl near.2⟩
    · exact ⟨far.1, .inr far.2⟩
  · rintro ⟨live, near | far⟩
    · exact .inl ⟨live.1, near⟩
    · exact .inr ⟨live, far⟩

/-- The search in the order of the keys from a node whose far child is next. -/
theorem find_value_lean_ok (side : Bool) {fuel i : Nat} (holds : Holds s T addr) (here : p ∈ T.nodes)
    (deep : 0 < p.free)
    (root : Below p ⟨1, i⟩) (enough : treeDepth < fuel + p.free) :
    Finds (findValueLeaning side fuel (some (addr p))) s addr side
      fun key => T.LiveIn ⟨1, i⟩ key ∧ Beyond side p key := by
  induction fuel generalizing p with
  | zero =>
      have level := Holds.free_lt here
      omega
  | succ fuel ih =>
      have loaded := load_ok (holds.cell p here)
      have positive : 0 < fuel := by
        have level := Holds.free_lt here
        omega
      -- What the search finds once the far child is done.
      have rest : Finds (if (record T addr p).parent = none then return none
          else do
            if !(← isSelected (record T addr p) side) then
              findValueLeaning side fuel (record T addr p).parent
            else findValueLeaning side fuel (← climb side (← bound) (some (addr p)))) s addr side
          fun key => T.LiveIn ⟨1, i⟩ key ∧ Past side p key := by
        by_cases top : p.bits = 1
        · rw [if_pos (record_parent_root top), root.eq_root top]
          exact .none (fun key both => not_past_root both.1.2 both.2) rfl
        · have above := T.parent_mem p here top
          have higher : Below p.parent ⟨1, i⟩ := root.parent fun same => top (same ▸ rfl)
          rw [record_parent top, if_neg (Option.some_ne_none _)]
          by_cases same : p.side = side
          · have selected : (!(p.side == side)) = false := by rw [same, beq_self_eq_true]; rfl
            rcases climb_ok side holds here root (Nat.lt_add_right p.free holds.bound_gt) with
              ⟨run, none⟩ | ⟨q, inside, run, level, below, far⟩
            · refine .none (fun key both => none key both.1.2 both.2) ?_
              rw [bind_ok (is_selected_ok here top), selected, if_neg Bool.false_ne_true, bound_bind,
                bind_ok run]
              obtain ⟨less, rfl⟩ := Nat.exists_eq_succ_of_ne_zero positive.ne'
              rfl
            · rcases (ih inside (by omega) below (by omega)).congr fun key => and_congr_right fun _ =>
                (far key).symm with ⟨found, nearest, last⟩
              refine ⟨found, nearest, ?_⟩
              rw [bind_ok (is_selected_ok here top), selected, if_neg Bool.false_ne_true, bound_bind,
                bind_ok run, last]
          · have selected : (!(p.side == side)) = true := by
              rw [Bool.not_eq_true', beq_eq_false_iff_ne]
              exact same
            have up := ih above (Nat.succ_pos _) higher (by rw [free_parent]; omega)
            rcases up.congr fun key => and_congr_right fun _ => (past_near same).symm with ⟨found, nearest, last⟩
            refine ⟨found, nearest, ?_⟩
            rw [bind_ok (is_selected_ok here top), selected, if_pos rfl, last]
      have apart : ∀ x y, T.LiveIn (p.child side) x → T.LiveIn ⟨1, i⟩ y ∧ Past side p y → Nearer side x y :=
        fun x y near far => far.2.nearer (near.2.of_child deep)
      have both := (lean_into_ok side holds here deep).orElse apart rest
      rcases both.congr fun key => live_beyond deep root with ⟨found, nearest, run⟩
      refine ⟨found, nearest, ?_⟩
      rw [findValueLeaning, bind_ok loaded]
      exact run

/-- Every node of a key belongs to a key with a value; only the root of length
one is there without. -/
def Settled (T : Trie) : Prop := ∀ key, ⟨key, 0⟩ ∈ T.nodes → key = 1 ∨ T.Live key

variable {key : UInt64}

/-- The keys a search in one direction starts from. -/
def From (side : Bool) (key other : Nat) : Prop := other = key ∨ Nearer side key other

theorem find_partial_from_ok (side : Bool) {fuel r : Nat} (holds : Holds s T addr) (settled : Settled T)
    (nonzero : key ≠ 0) (long : key.toNat ≠ 1) (short : r ≤ key.toNat.log2) (here : cut key.toNat r ∈ T.nodes)
    (enough : r < fuel) :
    Finds (findPartialFrom (findValueLeaning side) key fuel (some (addr (cut key.toNat r)))) s addr side
      fun other => T.LiveIn ⟨1, key.toNat.log2⟩ other ∧ From side key.toNat other := by
  induction fuel generalizing r with
  | zero => exact absurd enough (Nat.not_lt_zero _)
  | succ fuel ih =>
      have loaded := load_ok (holds.cell _ here)
      have length := (covers_one_iff key.toNat _).mpr ⟨toNat_ne_zero nonzero, rfl⟩
      cases r with
      | zero =>
          have run : findPartialFrom (findValueLeaning side) key (fuel + 1) (some (addr (cut key.toNat 0))) s =
              .ok (some (addr (cut key.toNat 0)), s) := by
            rw [findPartialFrom, bind_ok loaded]
            rfl
          rw [cut_zero] at here run ⊢
          have live := (settled _ here).resolve_left long
          exact ⟨some key.toNat, .present ⟨⟨live, length⟩, .inl rfl⟩ fun other both => both.2, run⟩
      | succ r =>
          have small : r < treeDepth := (Nat.lt_of_succ_le short).trans (log2_lt key)
          have sel : childSel (record T addr (cut key.toNat (r + 1))) key = selBit (cut key.toNat r).side :=
            keySel_eq key small
          have run : findPartialFrom (findValueLeaning side) key (fuel + 1) (some (addr (cut key.toNat (r + 1)))) s =
              (if link T addr (cut key.toNat r) ≠ none then
                findPartialFrom (findValueLeaning side) key fuel (link T addr (cut key.toNat r))
              else do findValueLeaning side (← bound) (some (addr (cut key.toNat (r + 1))))) s := by
            have deep : (cut key.toNat (r + 1)).free > 0 := Nat.succ_pos r
            rw [findPartialFrom, bind_ok loaded, record_idx, if_pos deep, sel, selBit_check,
              check_bind, selBit_eq_one, record_child (Nat.succ_pos r), (cut_child key.toNat r _).mpr rfl]
          by_cases present : cut key.toNat r ∈ T.nodes
          · rw [link_mem present, if_pos (Option.some_ne_none _)] at run
            rcases ih (by omega) present (by omega) with ⟨found, nearest, last⟩
            exact ⟨found, nearest, run.trans last⟩
          · rw [link_absent present, if_neg (not_not.mpr rfl), bound_bind] at run
            have absent : ∀ other, T.LiveIn ⟨1, key.toNat.log2⟩ other → ¬ (cut key.toNat r).Covers other :=
              fun other live covers => present (PrefixTrie.mem_of_liveIn
                (bits_cut_ne_zero (toNat_ne_zero nonzero) (by omega)) ⟨live.1, covers⟩)
            have root : Below (cut key.toNat (r + 1)) ⟨1, key.toNat.log2⟩ := by
              have below := below_root (bits_cut_ne_zero (toNat_ne_zero nonzero) short)
              have level : (cut key.toNat (r + 1)).bits.log2 + (r + 1) = key.toNat.log2 :=
                ((covers_one_iff _ _).mp (below.covers (cut_covers _ _))).2.symm
              rwa [← level]
            have lean := find_value_lean_ok side holds here (Nat.succ_pos r) root
              (Nat.lt_add_right _ holds.bound_gt)
            have same : ∀ other, T.LiveIn ⟨1, key.toNat.log2⟩ other ∧ Beyond side (cut key.toNat (r + 1)) other ↔
                T.LiveIn ⟨1, key.toNat.log2⟩ other ∧ From side key.toNat other := by
              intro other
              refine and_congr_right fun live => ?_
              rw [From, ← past_cut r (absent other live), ← parent_cut key.toNat r]
              by_cases further : (cut key.toNat r).side = side
              · have outside : ¬ ((cut key.toNat r).parent.child side).Covers other := by
                  rw [← further, child_parent]
                  exact absent other live
                rw [past_far further, Beyond, or_iff_right outside]
              · exact (past_near further).symm
            rcases lean.congr same with ⟨found, nearest, last⟩
            exact ⟨found, nearest, run.trans last⟩

/-- The search among the keys of the same length. -/
theorem find_closest_partial_ok (side : Bool) (holds : Holds s T addr) (settled : Settled T) (nonzero : key ≠ 0) :
    Finds (findClosestPartial (findValueLeaning side) (some key.toNat.log2) key) s addr side
      fun other => T.LiveIn ⟨1, key.toNat.log2⟩ other ∧ From side key.toNat other := by
  have start := holds.root _ (log2_lt key)
  have top := T.root_mem _ (log2_lt key)
  have loaded := load_ok (holds.cell _ top)
  have shape := cut_log2 (toNat_ne_zero nonzero)
  rw [start] at loaded
  by_cases short : key.toNat.log2 = 0
  · have one : key.toNat = 1 := by
      have size := (Nat.log2_eq_iff (toNat_ne_zero nonzero)).mp short
      omega
    have run : findClosestPartial (findValueLeaning side) (some key.toNat.log2) key s =
        .ok (if T.value 1 = none then none else some key.toNat.log2, s) := by
      rw [findClosestPartial, bind_ok loaded, record_idx, if_pos short, record_value_bottom short]
      rfl
    have only : ∀ other, T.LiveIn ⟨1, key.toNat.log2⟩ other → other = 1 :=
      fun other live => ((covers_zero short other).mp live.2).symm
    by_cases value : T.value 1 = none
    · rw [if_pos value] at run
      exact .none (fun other both => absurd value (only other both.1 ▸ both.1.1)) run
    · have covers : (⟨1, key.toNat.log2⟩ : Prefix).Covers 1 := (covers_zero short 1).mpr rfl
      refine ⟨some 1, Nearest.single ⟨⟨value, covers⟩, .inl one.symm⟩ fun other both => only other both.1, ?_⟩
      rw [run, if_neg value, keyNode, Option.map_some, ← start, short]
  · have long : key.toNat ≠ 1 := by
      intro one
      rw [one] at short
      exact short rfl
    have walk := find_partial_from_ok side holds settled nonzero long le_rfl (shape ▸ top)
      ((log2_lt key).trans holds.bound_gt)
    rw [shape, start] at walk
    rcases walk with ⟨found, nearest, run⟩
    refine ⟨found, nearest, ?_⟩
    rw [findClosestPartial, bind_ok loaded, record_idx, if_neg short, bound_bind]
    exact run

/-- The search through the roots of other lengths, in their order. -/
theorem search_roots_ok (holds : Holds s T addr) {lengths : List Nat} (small : ∀ i ∈ lengths, i < treeDepth)
    (ordered : lengths.Pairwise (Nearer side)) :
    Finds (searchRoots (findValue (!side)) lengths) s addr side
      fun key => ∃ i ∈ lengths, T.LiveIn ⟨1, i⟩ key := by
  induction lengths with
  | nil => exact .none (by simp) rfl
  | cons i rest ih =>
      have less := small i List.mem_cons_self
      have here := T.root_mem i less
      have later := ih (fun j inside => small j (List.mem_cons_of_mem _ inside)) ordered.tail
      have first := find_value_ok side holds here (less.trans holds.bound_gt)
      rw [holds.root i less] at first
      have apart : ∀ x y, T.LiveIn ⟨1, i⟩ x → (∃ j ∈ rest, T.LiveIn ⟨1, j⟩ y) → Nearer side x y := by
        rintro x y near ⟨j, inside, far⟩
        exact root_apart (List.rel_of_pairwise_cons ordered inside) near.2 far.2
      have split : ∀ key, (T.LiveIn ⟨1, i⟩ key ∨ ∃ j ∈ rest, T.LiveIn ⟨1, j⟩ key) ↔
          ∃ j ∈ i :: rest, T.LiveIn ⟨1, j⟩ key := by simp
      rcases (first.orElse apart later).congr split with ⟨found, nearest, run⟩
      exact ⟨found, nearest, run⟩

/-- The lengths that are left after that of the key, in the order of the search. -/
def otherLengths (side : Bool) (length : Nat) : List Nat :=
  if side then List.range' (length + 1) (treeDepth - (length + 1)) else (List.range length).reverse

theorem mem_otherLengths {length i : Nat} (small : length < treeDepth) :
    i ∈ otherLengths side length ↔ i < treeDepth ∧ Nearer side length i := by
  rw [treeDepth] at small
  cases side
  · simp only [otherLengths, Nearer, Bool.false_eq_true, if_false, List.mem_reverse, List.mem_range, treeDepth]
    omega
  · simp only [otherLengths, Nearer, if_true, List.mem_range'_1, treeDepth]
    omega

theorem pairwise_otherLengths (side : Bool) (length : Nat) :
    (otherLengths side length).Pairwise (Nearer side) := by
  cases side
  · exact List.pairwise_reverse.mpr List.pairwise_lt_range
  · exact List.pairwise_lt_range'

theorem find_closest_eq (nonzero : key ≠ 0) (side : Bool) :
    btrieFindClosest key side = (do
      let res ← findClosestPartial (findValueLeaning side) (some key.toNat.log2) key
      if res ≠ none then return res
      else searchRoots (findValue (!side)) (otherLengths side key.toNat.log2)) := by
  rw [btrieFindClosest, flsl_eq nonzero, if_neg (Nat.succ_ne_zero _), Nat.add_sub_cancel]
  cases side <;> rfl

/-- `side` is the direction of the search; the answer is the nearest key in it. -/
theorem find_closest_ok (side : Bool) (holds : Holds s T addr) (settled : Settled T) (nonzero : key ≠ 0) :
    Finds (btrieFindClosest key side) s addr side fun other => T.Live other ∧ From side key.toNat other := by
  have small := log2_lt key
  have length := (covers_one_iff key.toNat _).mpr ⟨toNat_ne_zero nonzero, rfl⟩
  have first := find_closest_partial_ok side holds settled nonzero
  have later := search_roots_ok holds (fun i inside => ((mem_otherLengths small).mp inside).1)
    (pairwise_otherLengths side key.toNat.log2)
  have apart : ∀ x y, T.LiveIn ⟨1, key.toNat.log2⟩ x ∧ From side key.toNat x →
      (∃ i ∈ otherLengths side key.toNat.log2, T.LiveIn ⟨1, i⟩ y) → Nearer side x y := by
    rintro x y ⟨near, -⟩ ⟨i, inside, far⟩
    exact root_apart ((mem_otherLengths small).mp inside).2 near.2 far.2
  have split : ∀ other, (T.LiveIn ⟨1, key.toNat.log2⟩ other ∧ From side key.toNat other ∨
      ∃ i ∈ otherLengths side key.toNat.log2, T.LiveIn ⟨1, i⟩ other) ↔
      T.Live other ∧ From side key.toNat other := by
    intro other
    constructor
    · rintro (⟨near, start⟩ | ⟨i, inside, far⟩)
      · exact ⟨near.1, start⟩
      · exact ⟨far.1, .inr (root_apart ((mem_otherLengths small).mp inside).2 length far.2)⟩
    · rintro ⟨live, start⟩
      have covers := (covers_one_iff other _).mpr ⟨live.ne_zero, rfl⟩
      have less := PrefixTrie.free_lt_of_root
        (PrefixTrie.mem_of_liveIn (p := ⟨1, other.log2⟩) Nat.one_ne_zero ⟨live, covers⟩)
      rcases Nearer.total side key.toNat.log2 other.log2 with after | same | before
      · exact .inr ⟨_, (mem_otherLengths small).mpr ⟨less, after⟩, live, covers⟩
      · exact .inl ⟨⟨live, same ▸ covers⟩, start⟩
      · have nearer := root_apart before covers length
        rcases start with rfl | further
        · exact absurd nearer (Nearer.irrefl side _)
        · exact absurd (nearer.trans further) (Nearer.irrefl side _)
  rcases (first.orElse apart later).congr split with ⟨found, nearest, run⟩
  exact ⟨found, nearest, by rw [find_closest_eq nonzero]; exact run⟩

end MnCommon.Btrie
