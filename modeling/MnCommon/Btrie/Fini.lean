import MnCommon.Btrie.Traverse

/-! The end of a trie: `btrie_fini` gives back every node but the roots, which belong to the client. -/

namespace MnCommon.Btrie

open Memory Tries Prefix

/-- What `btrie_node_fini` leaves of the node itself: its value stays. -/
def MnBtrieNode.bare (n : MnBtrieNode) : MnBtrieNode := { n with parent := none, child := fun _ => none }

/-- Where the nodes at a prefix and below it lie. -/
def cells (T : Trie) (addr : Prefix → Addr) (p : Prefix) : Finset Addr := (T.nodes.filter (Below · p)).image addr

/-- Where those lie that are below one of the children. -/
def part (T : Trie) (addr : Prefix → Addr) (p : Prefix) (b : Bool) : Finset Addr :=
  if 0 < p.free then cells T addr (p.child b) else ∅

section Cells

variable {s : BtrieStore} {T : Trie} {addr : Prefix → Addr} {p q : Prefix} {b : Bool} {a : Addr}

theorem mem_cells : a ∈ cells T addr p ↔ ∃ q ∈ T.nodes, Below q p ∧ addr q = a := by
  simp only [cells, Finset.mem_image, Finset.mem_filter, and_assoc]

theorem mem_part : a ∈ part T addr p b ↔ 0 < p.free ∧ ∃ q ∈ T.nodes, Below q (p.child b) ∧ addr q = a := by
  rw [part]
  split_ifs with deep
  · rw [mem_cells, and_iff_right deep]
  · simp [deep]

theorem cells_split (here : p ∈ T.nodes) :
    cells T addr p = insert (addr p) (part T addr p false ∪ part T addr p true) := by
  ext a
  rw [Finset.mem_insert, Finset.mem_union, mem_cells, mem_part, mem_part]
  constructor
  · rintro ⟨q, member, below, rfl⟩
    by_cases same : q = p
    · exact .inl (by rw [same])
    · have strict : q.free < p.free := by
        by_contra level
        exact same (below.eq_of_free_le (not_lt.mp level))
      rcases below.child strict with ⟨b, under⟩
      cases b with
      | false => exact .inr (.inl ⟨by omega, q, member, under, rfl⟩)
      | true => exact .inr (.inr ⟨by omega, q, member, under, rfl⟩)
  · rintro (rfl | ⟨deep, q, member, below, rfl⟩ | ⟨deep, q, member, below, rfl⟩)
    · exact ⟨p, here, .refl p, rfl⟩
    · exact ⟨q, member, PrefixTrie.below_of_child deep below, rfl⟩
    · exact ⟨q, member, PrefixTrie.below_of_child deep below, rfl⟩

/-- The nodes lie at different addresses. -/
def Apart (T : Trie) (addr : Prefix → Addr) : Prop := ∀ p ∈ T.nodes, ∀ q ∈ T.nodes, addr p = addr q → p = q

theorem top_notMem_part (apart : Apart T addr) (here : p ∈ T.nodes) : addr p ∉ part T addr p b := by
  rw [mem_part]
  rintro ⟨deep, q, member, below, same⟩
  have strict := PrefixTrie.free_lt_of_child deep below
  rw [apart q member p here same] at strict
  exact Nat.lt_irrefl _ strict

theorem parts_disjoint (apart : Apart T addr) : Disjoint (part T addr p false) (part T addr p true) := by
  rw [Finset.disjoint_left]
  intro a left right
  rw [mem_part] at left right
  rcases left with ⟨-, x, first, under, rfl⟩
  rcases right with ⟨-, y, second, above, same⟩
  obtain rfl := apart y second x first same
  exact PrefixTrie.not_before_self y (PrefixTrie.children_before under above)

theorem cells_card (apart : Apart T addr) (here : p ∈ T.nodes) :
    (cells T addr p).card = (part T addr p false).card + (part T addr p true).card + 1 := by
  have outside : addr p ∉ part T addr p false ∪ part T addr p true := by
    rw [Finset.mem_union, not_or]
    exact ⟨top_notMem_part apart here, top_notMem_part apart here⟩
  rw [cells_split here, Finset.card_insert_of_notMem outside, Finset.card_union_of_disjoint (parts_disjoint apart)]

end Cells

section Nodes

variable {s : BtrieStore} {T : Trie} {addr : Prefix → Addr} {p q : Prefix} {b : Bool} {a : Addr}

/-- The nodes at a prefix and below it are still there as the trie has them. -/
def Intact (s : BtrieStore) (T : Trie) (addr : Prefix → Addr) (p : Prefix) : Prop :=
  ∀ q ∈ T.nodes, Below q p → s.heap.lookup (addr q) = some (record T addr q)

/-- Of the addresses other than one, those of a set have been freed and counted off. -/
structure Released (s next : BtrieStore) (top : Addr) (gone : Finset Addr) : Prop where
  others : ∀ c, c ≠ top → next.heap.lookup c = if c ∈ gone then none else s.heap.lookup c
  volume : next.vars.volume = s.vars.volume - gone.card

/-- What `btrie_node_fini` does to a node. -/
def Finishes (fini : Ptr → BtrieProg Unit) (T : Trie) (addr : Prefix → Addr) (p : Prefix) : Prop :=
  ∀ s, Intact s T addr p → ∃ next, fini (some (addr p)) s = .ok ((), next) ∧
    next.heap.lookup (addr p) = some (record T addr p).bare ∧
    Released s next (addr p) (part T addr p false ∪ part T addr p true)

theorem part_empty (absent : (record T addr p).child b = none) (here : p ∈ T.nodes) : part T addr p b = ∅ := by
  rw [Finset.eq_empty_iff_forall_notMem]
  intro a inside
  rcases mem_part.mp inside with ⟨deep, q, member, below, -⟩
  rw [record_child deep, link_eq_none] at absent
  exact absent (PrefixTrie.mem_of_below member below (bits_child_ne_zero (T.fits p here).1 b))

theorem setChild_none {n : MnBtrieNode} (absent : n.child b = none) : n.setChild b none = n := by
  rw [MnBtrieNode.setChild, ← absent, Function.update_eq_self]

theorem setChild_other (n : MnBtrieNode) : (n.setChild false none).child true = n.child true := rfl

theorem bare_eq (n : MnBtrieNode) : { (n.setChild false none).setChild true none with parent := none } = n.bare := by
  have child : ((n.setChild false none).setChild true none).child = fun _ => none := by
    funext b
    cases b <;> rfl
  calc { (n.setChild false none).setChild true none with parent := none } =
        { n with parent := none, child := ((n.setChild false none).setChild true none).child } := rfl
    _ = n.bare := by rw [child, MnBtrieNode.bare]

theorem fini_child_ok {fini : Ptr → BtrieProg Unit} (apart : Apart T addr) (here : p ∈ T.nodes) {n : MnBtrieNode}
    (cell : s.heap.lookup (addr p) = some n) (child : n.child b = (record T addr p).child b)
    (intact : 0 < p.free → Intact s T addr (p.child b))
    (lower : 0 < p.free → p.child b ∈ T.nodes → Finishes fini T addr (p.child b)) :
    ∃ next, finiChild fini (some (addr p)) b s = .ok ((), next) ∧
      next.heap.lookup (addr p) = some (n.setChild b none) ∧ Released s next (addr p) (part T addr p b) := by
  rw [finiChild, bind_ok (load_ok cell), child]
  by_cases absent : (record T addr p).child b = none
  · rw [absent, if_neg (not_not.mpr rfl), part_empty absent here, setChild_none (child.trans absent)]
    exact ⟨s, rfl, cell, fun c _ => (if_neg (Finset.notMem_empty c)).symm, rfl⟩
  · have deep : 0 < p.free := by
      by_contra bottom
      exact absent (record_child_bottom (by omega) b)
    have member : p.child b ∈ T.nodes := by
      by_contra outside
      exact absent (by rw [record_child deep, link_absent outside])
    have whole : part T addr p b = cells T addr (p.child b) := if_pos deep
    have inside : addr (p.child b) ∈ part T addr p b := mem_part.mpr ⟨deep, _, member, .refl _, rfl⟩
    have other : addr p ≠ addr (p.child b) := fun same => top_notMem_part apart here (same ▸ inside)
    have outside : addr p ∉ part T addr p b := top_notMem_part apart here
    rcases lower deep member s (intact deep) with ⟨mid, run, top, released⟩
    rw [whole, cells_split member, Finset.mem_insert, not_or] at outside
    have above : (mid.heap.erase (addr (p.child b))).lookup (addr p) = some n := by
      rw [Finmap.lookup_erase_ne other, released.others _ other, if_neg outside.2, cell]
    have updated := update_ok (s := { mid with heap := mid.heap.erase (addr (p.child b)) })
      (fun x => x.setChild b none) above
    let next : BtrieStore :=
      ⟨(mid.heap.erase (addr (p.child b))).insert (addr p) (n.setChild b none),
        { mid.vars with volume := mid.vars.volume - 1 }, mid.tick⟩
    refine ⟨next, ?_, Finmap.lookup_insert _, fun c distinct => ?_, ?_⟩
    · rw [record_child deep, link_mem member, if_pos (Option.some_ne_none _), bind_ok run, bind_ok (free_ok top),
        bind_ok updated]
      rfl
    · rw [Finmap.lookup_insert_of_ne _ distinct, whole, cells_split member]
      by_cases same : c = addr (p.child b)
      · rw [same, Finmap.lookup_erase, if_pos (Finset.mem_insert_self _ _)]
      · rw [Finmap.lookup_erase_ne same, released.others c same]
        simp only [Finset.mem_insert, same, false_or]
    · change mid.vars.volume - 1 = _
      rw [released.volume, whole, cells_card apart member, Finset.card_union_of_disjoint (parts_disjoint apart)]
      omega

theorem node_fini_ok (apart : Apart T addr) (fuel : Nat) (enough : p.free < fuel) (here : p ∈ T.nodes) :
    Finishes (btrieNodeFini fuel) T addr p := by
  induction fuel generalizing p with
  | zero => exact absurd enough (Nat.not_lt_zero _)
  | succ fuel ih =>
      intro s intact
      have lower (b : Bool) (deep : 0 < p.free) (member : p.child b ∈ T.nodes) :
          Finishes (btrieNodeFini fuel) T addr (p.child b) := ih (by rw [free_child]; omega) member
      have below (b : Bool) (deep : 0 < p.free) : Intact s T addr (p.child b) := fun q member under =>
        intact q member (PrefixTrie.below_of_child deep under)
      have cell := intact p here (.refl p)
      obtain ⟨mid, left, first, released⟩ := fini_child_ok apart here cell rfl (below false) (lower false)
      have kept (deep : 0 < p.free) : Intact mid T addr (p.child true) := by
        intro q member under
        have strict : q ≠ p := fun same => Nat.lt_irrefl _ (same ▸ PrefixTrie.free_lt_of_child deep under)
        have other : addr q ≠ addr p := fun same => strict (apart q member p here same)
        have inside : addr q ∈ part T addr p true := mem_part.mpr ⟨deep, q, member, under, rfl⟩
        rw [released.others _ other, if_neg (Finset.disjoint_right.mp (parts_disjoint apart) inside)]
        exact below true deep q member under
      obtain ⟨last, right, second, rest⟩ := fini_child_ok apart here first (setChild_other (record T addr p)) kept (lower true)
      let next : BtrieStore := ⟨last.heap.insert (addr p) (record T addr p).bare, last.vars, last.tick⟩
      refine ⟨next, ?_, Finmap.lookup_insert _, fun c other => ?_, ?_⟩
      · rw [btrieNodeFini, Option.isSome_some, check_bind, bind_ok left, bind_ok right, update_ok _ second, bare_eq]
      · rw [Finmap.lookup_insert_of_ne _ other, rest.others c other, released.others c other]
        simp only [Finset.mem_union]
        split_ifs <;> tauto
      · change last.vars.volume = _
        rw [rest.volume, released.volume, Finset.card_union_of_disjoint (parts_disjoint apart), Nat.sub_sub]

end Nodes

section Roots

variable {s : BtrieStore} {T : Trie} {addr : Prefix → Addr} {ledger : Ledger} {live : Finset UInt64}

/-- The nodes below the first roots. -/
def gone (T : Trie) (addr : Prefix → Addr) (n : Nat) : Finset Addr :=
  (Finset.range n).biUnion fun i => part T addr ⟨1, i⟩ false ∪ part T addr ⟨1, i⟩ true

theorem gone_succ (T : Trie) (addr : Prefix → Addr) (n : Nat) :
    gone T addr (n + 1) = (part T addr ⟨1, n⟩ false ∪ part T addr ⟨1, n⟩ true) ∪ gone T addr n := by
  rw [gone, Finset.range_add_one, Finset.biUnion_insert, gone]

theorem mem_parts {p : Prefix} {a : Addr} : a ∈ part T addr p false ∪ part T addr p true ↔
    ∃ q ∈ T.nodes, q.free < p.free ∧ Below q p ∧ addr q = a := by
  rw [Finset.mem_union, mem_part, mem_part]
  constructor
  · rintro (⟨deep, q, member, below, same⟩ | ⟨deep, q, member, below, same⟩)
    · exact ⟨q, member, PrefixTrie.free_lt_of_child deep below, PrefixTrie.below_of_child deep below, same⟩
    · exact ⟨q, member, PrefixTrie.free_lt_of_child deep below, PrefixTrie.below_of_child deep below, same⟩
  · rintro ⟨q, member, strict, below, same⟩
    rcases below.child strict with ⟨b, under⟩
    cases b with
    | false => exact .inl ⟨by omega, q, member, under, same⟩
    | true => exact .inr ⟨by omega, q, member, under, same⟩

theorem mem_gone {n : Nat} {a : Addr} :
    a ∈ gone T addr n ↔ ∃ i < n, ∃ q ∈ T.nodes, q.free < i ∧ Below q ⟨1, i⟩ ∧ addr q = a := by
  simp only [gone, Finset.mem_biUnion, Finset.mem_range, mem_parts]

/-- A node that lies among the roots is one. -/
theorem Holds.root_of_lt (holds : Holds s T addr) {q : Prefix} (member : q ∈ T.nodes) (low : addr q < treeDepth) :
    q = ⟨1, addr q⟩ :=
  holds.distinct q member _ (T.root_mem _ low) (holds.root _ low).symm

theorem Holds.gone_ge (holds : Holds s T addr) {n : Nat} {a : Addr} (inside : a ∈ gone T addr n) : treeDepth ≤ a := by
  rcases mem_gone.mp inside with ⟨i, -, q, member, strict, below, rfl⟩
  by_contra low
  have shape := holds.root_of_lt member (not_le.mp low)
  have top : q.bits = 1 := congrArg Prefix.bits shape
  rw [below.eq_root top] at strict
  exact Nat.lt_irrefl _ strict

/-- What is below one root is not below an earlier one. -/
theorem Holds.notMem_gone (holds : Holds s T addr) {n : Nat} {q : Prefix} (member : q ∈ T.nodes)
    (below : Below q ⟨1, n⟩) : addr q ∉ gone T addr n := by
  intro inside
  rcases mem_gone.mp inside with ⟨i, earlier, x, there, -, under, same⟩
  obtain rfl := holds.distinct x there q member same
  exact PrefixTrie.not_before_self x (PrefixTrie.roots_before earlier under below)

/-- The trie after the first rounds of the loop. -/
structure Ended (s next : BtrieStore) (T : Trie) (addr : Prefix → Addr) (n : Nat) : Prop where
  roots : ∀ i < n, next.heap.lookup i = (s.heap.lookup i).map MnBtrieNode.bare
  others : ∀ c, n ≤ c → next.heap.lookup c = if c ∈ gone T addr n then none else s.heap.lookup c
  volume : next.vars.volume = s.vars.volume - (gone T addr n).card

/-- The roots alone make the bound large enough. -/
theorem Ended.bound_gt {next : BtrieStore} {n : Nat} (ended : Ended s next T addr n) (holds : Holds s T addr) :
    treeDepth < next.bound := by
  have inside : Finset.range treeDepth ⊆ next.heap.keys := by
    intro i small
    have small := Finset.mem_range.mp small
    have cell := holds.cell _ (T.root_mem i small)
    rw [holds.root i small] at cell
    rw [Finmap.mem_keys, Finmap.mem_iff]
    by_cases early : i < n
    · exact ⟨_, by rw [ended.roots i early, cell]; rfl⟩
    · have outside : i ∉ gone T addr n := fun inside => absurd small (not_lt.mpr (holds.gone_ge inside))
      exact ⟨_, by rw [ended.others i (not_lt.mp early), if_neg outside, cell]⟩
  have count := Finset.card_le_card inside
  rw [Finset.card_range] at count
  exact Nat.lt_succ_of_le count

theorem fini_roots_ok (holds : Holds s T addr) {n : Nat} (small : n ≤ treeDepth) :
    ∃ next, finiRoots n s = .ok ((), next) ∧ Ended s next T addr n := by
  induction n with
  | zero =>
      have empty : gone T addr 0 = ∅ := rfl
      refine ⟨s, rfl, fun i none => absurd none (Nat.not_lt_zero i), fun c _ => ?_, ?_⟩
      · rw [empty, if_neg (Finset.notMem_empty c)]
      · rw [empty, Finset.card_empty, Nat.sub_zero]
  | succ n ih =>
      obtain ⟨mid, first, ended⟩ := ih (by omega)
      have fits : n < treeDepth := small
      have here := T.root_mem n fits
      have intact : Intact mid T addr ⟨1, n⟩ := by
        intro q member below
        have above : n ≤ addr q := by
          by_contra low
          have shape := holds.root_of_lt member ((not_le.mp low).trans fits)
          have top : q.bits = 1 := congrArg Prefix.bits shape
          rw [below.eq_root top, holds.root n fits] at low
          exact low le_rfl
        rw [ended.others _ above, if_neg (holds.notMem_gone member below), holds.cell q member]
      obtain ⟨next, second, top, released⟩ :=
        node_fini_ok holds.distinct mid.bound (fits.trans (ended.bound_gt holds)) here mid intact
      rw [holds.root n fits] at second top released
      have cell := holds.cell _ here
      rw [holds.root n fits] at cell
      refine ⟨next, ?_, fun i early => ?_, fun c late => ?_, ?_⟩
      · rw [finiRoots, bind_ok first, bound_bind]
        exact second
      · rcases Nat.lt_succ_iff_lt_or_eq.mp early with earlier | rfl
        · have outside : i ∉ part T addr ⟨1, n⟩ false ∪ part T addr ⟨1, n⟩ true := by
            intro inside
            have later : i ∈ gone T addr (n + 1) := by
              rw [gone_succ]
              exact Finset.mem_union_left _ inside
            exact absurd (holds.gone_ge later) (by omega)
          rw [released.others i earlier.ne, if_neg outside, ended.roots i earlier]
        · rw [top, cell]
          rfl
      · rw [released.others c (Nat.ne_of_gt late), ended.others c (Nat.le_of_succ_le late), gone_succ]
        simp only [Finset.mem_union]
        split_ifs <;> tauto
      · have apart : Disjoint (part T addr ⟨1, n⟩ false ∪ part T addr ⟨1, n⟩ true) (gone T addr n) := by
          rw [Finset.disjoint_left]
          intro a inside
          rcases mem_parts.mp inside with ⟨q, member, -, below, rfl⟩
          exact holds.notMem_gone member below
        rw [released.volume, ended.volume, gone_succ, Finset.card_union_of_disjoint apart]
        omega

/-- Those below all the roots are the nodes that are no roots. -/
theorem gone_all : gone T addr treeDepth = (T.nodes.filter fun q => q.bits ≠ 1).image addr := by
  ext a
  rw [mem_gone, Finset.mem_image]
  constructor
  · rintro ⟨i, -, q, member, strict, below, rfl⟩
    refine ⟨q, Finset.mem_filter.mpr ⟨member, fun top => ?_⟩, rfl⟩
    rw [below.eq_root top] at strict
    exact Nat.lt_irrefl _ strict
  · rintro ⟨q, inside, rfl⟩
    rcases Finset.mem_filter.mp inside with ⟨member, proper⟩
    have nonzero := (T.fits q member).1
    have below := below_root nonzero
    have low := PrefixTrie.free_lt_of_root (PrefixTrie.mem_of_below member below Nat.one_ne_zero)
    have depth : 0 < q.bits.log2 := Nat.lt_of_lt_of_le Nat.one_pos ((Nat.le_log2 nonzero).mpr (by omega))
    exact ⟨_, low, q, member, Nat.lt_add_of_pos_left depth, below, rfl⟩

/-- Nothing but the roots is left. -/
theorem Holds.fini (holds : Holds s T addr) :
    ∃ next, btrieFini s = .ok ((), next) ∧ next.vars.volume = 0 ∧
      ∀ a, next.heap.lookup a = if a < treeDepth then (s.heap.lookup a).map MnBtrieNode.bare else none := by
  obtain ⟨next, run, ended⟩ := fini_roots_ok holds le_rfl
  refine ⟨next, run, ?_, fun a => ?_⟩
  · have distinct : Set.InjOn addr (T.nodes.filter fun q => q.bits ≠ 1) := fun p first q second same =>
      holds.distinct p (Finset.mem_filter.mp first).1 q (Finset.mem_filter.mp second).1 same
    rw [ended.volume, gone_all, Finset.card_image_of_injOn distinct, ← holds.volume, Nat.sub_self]
  · by_cases low : a < treeDepth
    · rw [if_pos low, ended.roots a low]
    · rw [if_neg low, ended.others a (not_lt.mp low), gone_all]
      split_ifs with inside
      · rfl
      · rw [Finmap.lookup_eq_none]
        intro there
        rcases holds.owned a there with ⟨q, member, rfl⟩
        by_cases top : q.bits = 1
        · rcases q with ⟨bits, free⟩
          obtain rfl : bits = 1 := top
          have fits := PrefixTrie.free_lt_of_root member
          exact low (by rwa [holds.root free fits])
        · exact inside (Finset.mem_image_of_mem addr (Finset.mem_filter.mpr ⟨member, top⟩))

theorem Holds.keys_card (holds : Holds s T addr) : s.heap.keys.card = treeDepth + s.vars.volume := by
  have keys : s.heap.keys = T.nodes.image addr := by
    ext a
    rw [Finmap.mem_keys, Finset.mem_image]
    constructor
    · intro there
      exact holds.owned a there
    · rintro ⟨q, member, rfl⟩
      exact holds.mem_heap member
  rw [keys, Finset.card_image_of_injOn fun p first q second same => holds.distinct p first q second same, holds.card]

end Roots

/-- After any run `volume` counts what is allocated, and `btrie_fini` gives all of it back. -/
theorem run_released (system : Allocator MnBtrieNode) (ops : List Op) (admitted : AdmitsAll ∅ ops) (vars : MnBtrie)
    (tick : Nat) :
    ∃ ledger s next, run system ops ⟨∅, vars, tick⟩ = .ok (ledger, s) ∧
      s.heap.keys.card = treeDepth + s.vars.volume ∧ btrieFini s = .ok ((), next) ∧ next.vars.volume = 0 ∧
      ∀ a, next.heap.lookup a = if a < treeDepth then (s.heap.lookup a).map MnBtrieNode.bare else none := by
  obtain ⟨ledger, s, T, addr, ran, tracks, -⟩ := run_tracks system ops admitted vars tick
  obtain ⟨next, ended, volume, cells⟩ := tracks.holds.fini
  exact ⟨ledger, s, next, ran, tracks.holds.keys_card, ended, volume, cells⟩

theorem sampleOps_released :
    ∃ ledger s next, run (.bump blankNode) sampleOps ⟨∅, ⟨0, 0⟩, 0⟩ = .ok (ledger, s) ∧
      s.heap.keys.card = treeDepth + s.vars.volume ∧ btrieFini s = .ok ((), next) ∧ next.vars.volume = 0 ∧
      ∀ a, next.heap.lookup a = if a < treeDepth then (s.heap.lookup a).map MnBtrieNode.bare else none :=
  run_released _ sampleOps (by decide) _ _

end MnCommon.Btrie
