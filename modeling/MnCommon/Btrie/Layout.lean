import MnCommon.Btrie.Model
import MnCommon.Tries.PrefixTrie

/-! How a prefix trie lies in the heap, and the elementary steps that keep it
there: a new node, the removal of an orphan, a new value. -/

namespace MnCommon.Btrie

open Memory Tries Prefix

abbrev Trie := PrefixTrie treeDepth Addr

/-- The selector of a side. -/
def selBit (b : Bool) : UInt64 := if b then 1 else 0

@[simp] theorem selBit_eq_one (b : Bool) : (selBit b == 1) = b := by cases b <;> rfl

@[simp] theorem selBit_check (b : Bool) : (selBit b == 0 || selBit b == 1) = true := by
  cases b <;> rfl

theorem toNat_selBit (b : Bool) : (selBit b).toNat = b.toNat := by cases b <;> rfl

theorem toNat_side_cut (key free : Nat) : (cut key free).side.toNat = key >>> free % 2 := by
  rw [toNat_side, cut, Nat.shiftRight_eq_div_pow]

theorem toNat_shift {idx : Nat} (small : idx < treeDepth) : idx.toUInt64.toNat % 64 = idx := by
  rw [treeDepth] at small
  simp only [Nat.toUInt64_eq, UInt64.toNat_ofNat']
  omega

theorem keySel_eq (key : UInt64) {idx : Nat} (small : idx < treeDepth) :
    keySel key idx = selBit (cut key.toNat idx).side := by
  apply UInt64.toNat_inj.mp
  rw [toNat_selBit, toNat_side_cut, keySel, UInt64.toNat_and, UInt64.toNat_shiftRight, toNat_shift small]
  exact Nat.and_one_is_mod _

theorem addSel_eq (key : UInt64) {idx : Nat} (small : idx < treeDepth) :
    (key &&& (1 <<< idx.toUInt64)) >>> idx.toUInt64 = selBit (cut key.toNat idx).side := by
  apply UInt64.toNat_inj.mp
  have power : 2 ^ idx < 2 ^ 64 := Nat.pow_lt_pow_right Nat.one_lt_two small
  have bit : ((1 : UInt64) <<< idx.toUInt64).toNat = 1 <<< idx := by
    rw [UInt64.toNat_shiftLeft, toNat_shift small, UInt64.toNat_one, Nat.one_shiftLeft]
    exact Nat.mod_eq_of_lt power
  calc _ = (key.toNat &&& 1 <<< idx) >>> idx := by
        rw [UInt64.toNat_shiftRight, UInt64.toNat_and, toNat_shift small, bit]
    _ = key.toNat >>> idx &&& 1 := by
        rw [Nat.shiftRight_and_distrib, Nat.shiftLeft_shiftRight]
    _ = (selBit (cut key.toNat idx).side).toNat := by
        rw [Nat.and_one_is_mod, toNat_selBit, toNat_side_cut]

theorem flsl_eq {key : UInt64} (nonzero : key ≠ 0) : flsl key = key.toNat.log2 + 1 := if_neg nonzero

theorem toNat_ne_zero {key : UInt64} (nonzero : key ≠ 0) : key.toNat ≠ 0 :=
  fun same => nonzero (UInt64.toNat_inj.mp same)

theorem log2_lt (key : UInt64) : key.toNat.log2 < treeDepth := by
  by_cases zero : key.toNat = 0
  · rw [zero, Nat.log2_zero]
    decide
  · exact (Nat.log2_lt zero).mpr key.toNat_lt

/-- The field `digit` of a node at a given depth. -/
def digitAt (depth : Nat) (b : Bool) : UInt16 :=
  depth.toUInt16 ||| ((selBit b).toUInt16 <<< childSelectorShift)

theorem digitAt_shift {depth : Nat} (small : depth < treeDepth) (b : Bool) :
    digitAt depth b >>> childSelectorShift = (selBit b).toUInt16 := by
  rw [treeDepth] at small
  apply UInt16.toNat_inj.mp
  have level : depth.toUInt16.toNat = depth := by
    simp only [Nat.toUInt16_eq, UInt16.toNat_ofNat']
    omega
  have low : depth >>> 15 = 0 := by
    rw [Nat.shiftRight_eq_div_pow]
    omega
  rw [digitAt, UInt16.toNat_shiftRight, UInt16.toNat_or, level]
  change (depth ||| _) >>> 15 = _
  rw [Nat.shiftRight_or_distrib, low, Nat.zero_or]
  cases b <;> rfl

def nodeDigit (p : Prefix) : UInt16 := if p.bits = 1 then 0 else digitAt p.bits.log2 p.side

def link (T : Trie) (addr : Prefix → Addr) (p : Prefix) : Ptr :=
  if p ∈ T.nodes then some (addr p) else none

/-- The record of the node at a prefix. -/
def record (T : Trie) (addr : Prefix → Addr) (p : Prefix) : MnBtrieNode where
  parent := if p.bits = 1 then none else some (addr p.parent)
  child b := if 0 < p.free then link T addr (p.child b) else none
  value := if p.free = 0 then T.value p.bits else none
  digit := nodeDigit p
  idx := p.free

structure Holds (s : BtrieStore) (T : Trie) (addr : Prefix → Addr) : Prop where
  cell : ∀ p ∈ T.nodes, s.heap.lookup (addr p) = some (record T addr p)
  owned : ∀ a ∈ s.heap, ∃ p ∈ T.nodes, addr p = a
  distinct : ∀ p ∈ T.nodes, ∀ q ∈ T.nodes, addr p = addr q → p = q
  root : ∀ i < treeDepth, addr ⟨1, i⟩ = i
  volume : s.vars.volume = (T.nodes.filter fun p => p.bits ≠ 1).card

section Records

variable {T U : Trie} {addr next : Prefix → Addr} {p q : Prefix} {b : Bool}

theorem link_mem (here : p ∈ T.nodes) : link T addr p = some (addr p) := if_pos here

theorem link_absent (outside : p ∉ T.nodes) : link T addr p = none := if_neg outside

theorem link_eq_none : link T addr p = none ↔ p ∉ T.nodes := by
  rw [link]
  split <;> simp_all

theorem record_parent (proper : p.bits ≠ 1) : (record T addr p).parent = some (addr p.parent) :=
  if_neg proper

theorem record_parent_root (top : p.bits = 1) : (record T addr p).parent = none := if_pos top

theorem record_child (deep : 0 < p.free) (b : Bool) :
    (record T addr p).child b = link T addr (p.child b) := if_pos deep

theorem record_child_bottom (bottom : p.free = 0) (b : Bool) : (record T addr p).child b = none := by
  rw [record, bottom]
  rfl

theorem record_value_bottom (bottom : p.free = 0) : (record T addr p).value = T.value p.bits :=
  if_pos bottom

theorem record_value_inner (deep : 0 < p.free) : (record T addr p).value = none := if_neg deep.ne'

theorem record_idx : (record T addr p).idx = p.free := rfl

theorem record_congr (parents : p.bits ≠ 1 → next p.parent = addr p.parent)
    (children : 0 < p.free → ∀ b, link U next (p.child b) = link T addr (p.child b))
    (values : p.free = 0 → U.value p.bits = T.value p.bits) : record U next p = record T addr p := by
  have parent : (record U next p).parent = (record T addr p).parent := by
    by_cases top : p.bits = 1
    · rw [record_parent_root top, record_parent_root top]
    · rw [record_parent top, record_parent top, parents top]
  have child : (record U next p).child = (record T addr p).child := by
    funext b
    by_cases deep : 0 < p.free
    · rw [record_child deep, record_child deep, children deep]
    · rw [record_child_bottom (by omega), record_child_bottom (by omega)]
  have value : (record U next p).value = (record T addr p).value := by
    by_cases bottom : p.free = 0
    · rw [record_value_bottom bottom, record_value_bottom bottom, values bottom]
    · rw [record_value_inner (by omega), record_value_inner (by omega)]
  calc record U next p = { record T addr p with
        parent := (record U next p).parent, child := (record U next p).child,
        value := (record U next p).value } := rfl
    _ = record T addr p := by rw [parent, child, value]

/-- The record of a node of which one child has changed. -/
theorem record_setChild (deep : 0 < p.free) (parents : p.bits ≠ 1 → next p.parent = addr p.parent)
    (other : link U next (p.child (!b)) = link T addr (p.child (!b))) :
    record U next p = (record T addr p).setChild b (link U next (p.child b)) := by
  have parent : (record U next p).parent = (record T addr p).parent := by
    by_cases top : p.bits = 1
    · rw [record_parent_root top, record_parent_root top]
    · rw [record_parent top, record_parent top, parents top]
  have child : (record U next p).child =
      Function.update (record T addr p).child b (link U next (p.child b)) := by
    funext c
    rw [record_child deep]
    by_cases same : c = b
    · rw [same, Function.update_self]
    · have opposite : c = !b := Bool.eq_not_of_ne same
      rw [Function.update_of_ne same, record_child deep, opposite, other]
  have value : (record U next p).value = (record T addr p).value := by
    rw [record_value_inner deep, record_value_inner deep]
  calc record U next p = { record T addr p with
        parent := (record U next p).parent, child := (record U next p).child,
        value := (record U next p).value } := rfl
    _ = _ := by rw [parent, child, value]; rfl

/-- Whether a record is an orphan can be seen from the trie. -/
theorem record_isOrphan (T : Trie) (addr : Prefix → Addr) (p : Prefix) :
    (record T addr p).isOrphan = true ↔ T.Orphan p := by
  rw [MnBtrieNode.isOrphan, PrefixTrie.Orphan]
  by_cases deep : 0 < p.free
  · simp [record_child deep, record_value_inner deep, link_eq_none, deep, deep.ne']
  · have bottom : p.free = 0 := by omega
    simp [record_child_bottom bottom, record_value_bottom bottom, bottom, PrefixTrie.Live]

theorem record_leaf (proper : p.bits ≠ 1) (orphan : T.Orphan p) :
    record T addr p =
      { parent := some (addr p.parent), child := fun _ => none, value := none,
        digit := nodeDigit p, idx := p.free } := by
  have child : (record T addr p).child = fun _ => none := by
    funext c
    by_cases deep : 0 < p.free
    · rw [record_child deep, link_absent (orphan.1 deep c)]
    · exact record_child_bottom (by omega) c
  have value : (record T addr p).value = none := by
    by_cases bottom : p.free = 0
    · rw [record_value_bottom bottom]
      exact not_not.mp (orphan.2 bottom)
    · exact record_value_inner (by omega)
  calc record T addr p = { record T addr p with
        parent := (record T addr p).parent, child := (record T addr p).child,
        value := (record T addr p).value } := rfl
    _ = _ := by rw [record_parent proper, child, value]; rfl

theorem nodeSel0_root (top : p.bits = 1) : nodeSel0 (record T addr p) = 0 := by
  change nodeDigit p >>> childSelectorShift = 0
  rw [nodeDigit, if_pos top]
  rfl

/-- The selector that a node keeps of itself. -/
theorem nodeSel0_record (here : p ∈ T.nodes) (proper : p.bits ≠ 1) :
    nodeSel0 (record T addr p) = (selBit p.side).toUInt16 := by
  have small := T.fits p here
  have bits_lt : p.bits < 2 ^ treeDepth := by
    calc p.bits < p.bits + 1 := Nat.lt_succ_self _
      _ ≤ (p.bits + 1) * 2 ^ p.free := Nat.le_mul_of_pos_right _ (Nat.two_pow_pos _)
      _ ≤ 2 ^ treeDepth := small.2
  have depth := (Nat.log2_lt small.1).mpr bits_lt
  change nodeDigit p >>> childSelectorShift = _
  rw [nodeDigit, if_neg proper, digitAt_shift depth]

end Records

section Steps

variable {s next : BtrieStore} {T : Trie} {addr : Prefix → Addr} {p q : Prefix} {b : Bool}

theorem Holds.link_cell (holds : Holds s T addr) {a : Addr} (found : link T addr p = some a) :
    p ∈ T.nodes ∧ addr p = a ∧ s.heap.lookup a = some (record T addr p) := by
  by_cases here : p ∈ T.nodes
  · rw [link_mem here, Option.some.injEq] at found
    exact ⟨here, found, found ▸ holds.cell p here⟩
  · rw [link_absent here] at found
    cases found

theorem Holds.mem_heap (holds : Holds s T addr) (here : p ∈ T.nodes) : addr p ∈ s.heap :=
  Finmap.mem_iff.mpr ⟨_, holds.cell p here⟩

/-- The roots alone make every bound large enough for a walk along one key. -/
theorem Holds.bound_gt (holds : Holds s T addr) : treeDepth < s.bound := by
  have inside : Finset.range treeDepth ⊆ s.heap.keys := by
    intro i small
    have small := Finset.mem_range.mp small
    rw [Finmap.mem_keys, ← holds.root i small]
    exact holds.mem_heap (T.root_mem i small)
  have count := Finset.card_le_card inside
  rw [Finset.card_range] at count
  exact Nat.lt_succ_of_le count

theorem Holds.free_lt (here : p ∈ T.nodes) : p.free < treeDepth := by
  have small := T.fits p here
  have power : 2 ^ (p.free + 1) ≤ 2 ^ treeDepth := by
    calc 2 ^ (p.free + 1) = 2 * 2 ^ p.free := by rw [pow_succ, Nat.mul_comm]
      _ ≤ (p.bits + 1) * 2 ^ p.free := Nat.mul_le_mul_right _ (by omega)
      _ ≤ 2 ^ treeDepth := small.2
  exact (Nat.pow_le_pow_iff_right Nat.one_lt_two).mp power

theorem Holds.grown (holds : Holds s T addr) (here : p ∈ T.nodes) (deep : 0 < p.free)
    (absent : p.child b ∉ T.nodes) {a : Addr} (fresh : a ∉ s.heap)
    (new : next.heap.lookup a = some
      { parent := some (addr p), child := fun _ => none, value := none,
        digit := nodeDigit (p.child b), idx := p.free - 1 })
    (above : next.heap.lookup (addr p) = some ((record T addr p).setChild b (some a)))
    (others : ∀ c, c ≠ a → c ≠ addr p → next.heap.lookup c = s.heap.lookup c)
    (volume : next.vars.volume = s.vars.volume + 1) :
    Holds next (T.grow p b here deep) (Function.update addr (p.child b) a) := by
  have nonzero := (T.fits p here).1
  have proper := bits_child_ne_one nonzero b
  have apart : ∀ q ∈ T.nodes, addr q ≠ a := fun q inside same => fresh (same ▸ holds.mem_heap inside)
  have kept : ∀ q ∈ T.nodes, Function.update addr (p.child b) a q = addr q := by
    intro q inside
    apply Function.update_of_ne
    rintro rfl
    exact absent inside
  have linked : ∀ q, q ≠ p.child b → link (T.grow p b here deep) (Function.update addr (p.child b) a) q =
      link T addr q := by
    intro q other
    rw [link, link, Function.update_of_ne other]
    simp only [PrefixTrie.grow, Finset.mem_insert, other, false_or]
  have top : link (T.grow p b here deep) (Function.update addr (p.child b) a) (p.child b) = some a := by
    rw [link_mem (Finset.mem_insert_self _ _), Function.update_self]
  refine ⟨?_, ?_, ?_, ?_, ?_⟩
  · intro q inside
    rcases Finset.mem_insert.mp inside with rfl | inside
    · rw [Function.update_self, new]
      rw [record_leaf proper (PrefixTrie.grow_orphan here deep absent), parent_child deep, kept p here]
      rfl
    · have parents : q.bits ≠ 1 → Function.update addr (p.child b) a q.parent = addr q.parent :=
        fun other => kept _ (T.parent_mem q inside other)
      rw [kept q inside]
      by_cases same : q = p
      · subst same
        rw [above, record_setChild deep parents (linked _ (child_ne _ b)), top]
      · rw [others _ (apart q inside) (fun equal => same (holds.distinct _ inside _ here equal)),
          holds.cell q inside]
        congr 1
        symm
        refine record_congr parents (fun level c => linked _ ?_) fun _ => rfl
        intro equal
        have parents := congrArg Prefix.parent equal
        rw [parent_child level, parent_child deep] at parents
        exact same parents
  · intro c inside
    by_cases equal : c = a
    · exact ⟨p.child b, Finset.mem_insert_self _ _, by rw [Function.update_self, equal]⟩
    · have old : c ∈ s.heap := by
        by_cases same : c = addr p
        · exact same ▸ holds.mem_heap here
        · rw [Finmap.mem_iff] at inside ⊢
          rwa [others c equal same] at inside
      rcases holds.owned c old with ⟨q, member, rfl⟩
      exact ⟨q, Finset.mem_insert_of_mem member, kept q member⟩
  · intro q first r second same
    rcases Finset.mem_insert.mp first with rfl | first <;>
      rcases Finset.mem_insert.mp second with rfl | second
    · rfl
    · rw [Function.update_self, kept r second] at same
      exact absurd same.symm (apart r second)
    · rw [Function.update_self, kept q first] at same
      exact absurd same (apart q first)
    · rw [kept q first, kept r second] at same
      exact holds.distinct q first r second same
  · intro i small
    rw [kept _ (T.root_mem i small), holds.root i small]
  · rw [volume, holds.volume, PrefixTrie.grow, Finset.filter_insert, if_pos proper,
      Finset.card_insert_of_notMem]
    exact fun inside => absent (Finset.mem_filter.mp inside).1

theorem Holds.pruned (holds : Holds s T addr) (here : p ∈ T.nodes) (proper : p.bits ≠ 1)
    (orphan : T.Orphan p) (gone : next.heap.lookup (addr p) = none)
    (above : next.heap.lookup (addr p.parent) = some ((record T addr p.parent).setChild p.side none))
    (others : ∀ c, c ≠ addr p → c ≠ addr p.parent → next.heap.lookup c = s.heap.lookup c)
    (volume : next.vars.volume = s.vars.volume - 1) :
    Holds next (T.prune p proper orphan) addr := by
  have deep : 0 < p.parent.free := Nat.succ_pos _
  have linked : ∀ q, q ≠ p → link (T.prune p proper orphan) addr q = link T addr q := by
    intro q other
    rw [link, link]
    simp only [PrefixTrie.prune, Finset.mem_erase, ne_eq, other, not_false_eq_true, true_and]
  have cut : link (T.prune p proper orphan) addr (p.parent.child p.side) = none := by
    rw [child_parent]
    exact link_absent (Finset.notMem_erase _ _)
  refine ⟨?_, ?_, ?_, holds.root, ?_⟩
  · intro q inside
    rcases Finset.mem_erase.mp inside with ⟨other, member⟩
    by_cases same : q = p.parent
    · subst same
      have sibling : p.parent.child (!p.side) ≠ p := by
        have apart := child_ne p.parent p.side
        rwa [child_parent] at apart
      rw [above, record_setChild deep (fun _ => rfl) (linked _ sibling), cut]
    · rw [others _ (fun equal => other (holds.distinct _ member _ here equal))
        (fun equal => same (holds.distinct _ member _ (T.parent_mem p here proper) equal)),
        holds.cell q member]
      congr 1
      symm
      refine record_congr (fun _ => rfl) (fun level c => linked _ ?_) fun _ => rfl
      rintro rfl
      exact same (parent_child level c).symm
  · intro c inside
    have other : c ≠ addr p := by
      rintro rfl
      rcases Finmap.mem_iff.mp inside with ⟨n, found⟩
      rw [gone] at found
      cases found
    have old : c ∈ s.heap := by
      by_cases same : c = addr p.parent
      · exact same ▸ holds.mem_heap (T.parent_mem p here proper)
      · rw [Finmap.mem_iff] at inside ⊢
        rwa [others c other same] at inside
    rcases holds.owned c old with ⟨q, member, rfl⟩
    exact ⟨q, Finset.mem_erase.mpr ⟨fun same => other (same ▸ rfl), member⟩, rfl⟩
  · intro q first r second
    exact holds.distinct q (Finset.mem_erase.mp first).2 r (Finset.mem_erase.mp second).2
  · rw [volume, holds.volume, PrefixTrie.prune, Finset.filter_erase, Finset.card_erase_of_mem]
    exact Finset.mem_filter.mpr ⟨here, proper⟩

theorem Holds.assigned (holds : Holds s T addr) {key : Nat} (here : ⟨key, 0⟩ ∈ T.nodes) (v : Ptr) :
    Holds { s with heap := s.heap.insert (addr ⟨key, 0⟩) { record T addr ⟨key, 0⟩ with value := v } }
      (T.assign key v here) addr := by
  refine ⟨?_, ?_, holds.distinct, holds.root, holds.volume⟩
  · intro q inside
    by_cases same : q = ⟨key, 0⟩
    · subst same
      rw [Finmap.lookup_insert]
      simp [record, PrefixTrie.assign]
    · rw [Finmap.lookup_insert_of_ne _ (fun equal => same (holds.distinct _ inside _ here equal)),
        holds.cell q inside]
      congr 1
      symm
      refine record_congr (fun _ => rfl) (fun _ _ => rfl) fun bottom => ?_
      apply Function.update_of_ne
      rintro rfl
      exact same (by rw [← bottom])
  · intro c inside
    apply holds.owned
    rcases Finmap.mem_insert.mp inside with rfl | old
    · exact holds.mem_heap here
    · exact old

theorem addChild_ok (system : Allocator MnBtrieNode) (holds : Holds s T addr) (here : p ∈ T.nodes)
    (deep : 0 < p.free) (absent : p.child b ∉ T.nodes) :
    ∃ next a, addChild system (some (addr p)) (p.free - 1) (p.child b).bits.log2.toUInt16 (selBit b) s =
        .ok (some a, next) ∧
      Holds next (T.grow p b here deep) (Function.update addr (p.child b) a) := by
  let a := system.pick s.tick s.heap.keys
  have fresh : a ∉ s.heap := by
    rw [← Finmap.mem_keys]
    exact system.pick_fresh s.tick s.heap.keys
  have apart : addr p ≠ a := fun same => fresh (same ▸ holds.mem_heap here)
  have digit : nodeDigit (p.child b) = digitAt (p.child b).bits.log2 b := by
    rw [nodeDigit, if_neg (bits_child_ne_one (T.fits p here).1 b), side_child]
  have cell : (s.heap.insert a (system.junk s.tick)).lookup (addr p) = some (record T addr p) := by
    rw [Finmap.lookup_insert_of_ne _ apart, holds.cell p here]
  let first : BtrieStore := ⟨s.heap.insert a (system.junk s.tick), s.vars, s.tick + 1⟩
  let second : BtrieStore := ⟨first.heap.insert (addr p) ((record T addr p).setChild b (some a)), s.vars, s.tick + 1⟩
  have junk : second.heap.lookup a = some (system.junk s.tick) := by
    rw [Finmap.lookup_insert_of_ne _ apart.symm, Finmap.lookup_insert]
  have step : update (some (addr p)) (fun x => x.setChild (selBit b == 1) (some a)) first =
      .ok ((), second) := by
    rw [selBit_eq_one, update_ok (s := first) _ cell]
  let last : BtrieStore :=
    ⟨second.heap.insert a
        { parent := some (addr p), child := fun _ => none, value := none,
          digit := nodeDigit (p.child b), idx := p.free - 1 },
      { s.vars with volume := s.vars.volume + 1 }, s.tick + 1⟩
  have init : btrieNodeInit (some a) (some (addr p)) (p.free - 1)
      (digitAt (p.child b).bits.log2 b) none second = .ok ((), { last with vars := s.vars }) := by
    rw [← digit]
    exact update_ok _ junk
  refine ⟨last, a, ?_, holds.grown here deep absent fresh (Finmap.lookup_insert _) ?_ ?_ rfl⟩
  · have made : alloc system s = .ok (some a, first) := rfl
    rw [addChild, bind_ok made, bind_ok step]
    exact bind_ok init _
  · rw [Finmap.lookup_insert_of_ne _ apart, Finmap.lookup_insert]
  · intro c other distinct
    rw [Finmap.lookup_insert_of_ne _ other, Finmap.lookup_insert_of_ne _ distinct,
      Finmap.lookup_insert_of_ne _ other]

end Steps

end MnCommon.Btrie
