import Mathlib.Data.Finset.Image
import Mathlib.Tactic.Ring
import MnCommon.Tries.Prefix

/-! Binary tries as sets of prefixes. A trie of a given width has one root for
each length of a key, contains with every prefix its parent, and stores values
at prefixes without free digits. -/

namespace MnCommon.Tries

structure PrefixTrie (width : Nat) (V : Type) where
  nodes : Finset Prefix
  value : Nat → Option V
  root_mem : ∀ i < width, ⟨1, i⟩ ∈ nodes
  parent_mem : ∀ p ∈ nodes, p.bits ≠ 1 → p.parent ∈ nodes
  fits : ∀ p ∈ nodes, p.bits ≠ 0 ∧ (p.bits + 1) * 2 ^ p.free ≤ 2 ^ width
  value_mem : ∀ key, value key ≠ none → ⟨key, 0⟩ ∈ nodes

namespace PrefixTrie

open Prefix

variable {width : Nat} {V : Type}

def Live (T : PrefixTrie width V) (key : Nat) : Prop := T.value key ≠ none

/-- The keys below a prefix that have a value. -/
def LiveIn (T : PrefixTrie width V) (p : Prefix) (key : Nat) : Prop := T.Live key ∧ p.Covers key

def Orphan (T : PrefixTrie width V) (p : Prefix) : Prop :=
  (0 < p.free → ∀ b, p.child b ∉ T.nodes) ∧ (p.free = 0 → ¬ T.Live p.bits)

/-- There is no node without a purpose. -/
def Pruned (T : PrefixTrie width V) : Prop :=
  ∀ p ∈ T.nodes, p.bits = 1 ∨ ∃ key, T.LiveIn p key

def empty (width : Nat) (V : Type) : PrefixTrie width V where
  nodes := (Finset.range width).image fun i => ⟨1, i⟩
  value _ := none
  root_mem i small := Finset.mem_image_of_mem _ (Finset.mem_range.mpr small)
  parent_mem p member other := by
    rcases Finset.mem_image.mp member with ⟨i, -, rfl⟩
    exact absurd rfl other
  fits p member := by
    rcases Finset.mem_image.mp member with ⟨i, small, rfl⟩
    refine ⟨Nat.one_ne_zero, ?_⟩
    calc (1 + 1) * 2 ^ i = 2 ^ (i + 1) := by rw [pow_succ, Nat.mul_comm]
      _ ≤ 2 ^ width := Nat.pow_le_pow_right Nat.two_pos (Finset.mem_range.mp small)
  value_mem key some := absurd rfl some

theorem child_fits {p : Prefix} (deep : 0 < p.free) (fits : p.bits ≠ 0 ∧ (p.bits + 1) * 2 ^ p.free ≤ 2 ^ width)
    (b : Bool) : (p.child b).bits ≠ 0 ∧ ((p.child b).bits + 1) * 2 ^ (p.child b).free ≤ 2 ^ width := by
  rcases fits with ⟨nonzero, small⟩
  refine ⟨bits_child_ne_zero nonzero b, ?_⟩
  have last := Bool.toNat_le b
  calc (2 * p.bits + b.toNat + 1) * 2 ^ (p.free - 1)
      ≤ (2 * p.bits + 2) * 2 ^ (p.free - 1) := Nat.mul_le_mul_right _ (by omega)
    _ = (p.bits + 1) * (2 ^ (p.free - 1) * 2) := by ring
    _ = (p.bits + 1) * 2 ^ p.free := by rw [← pow_succ, Nat.sub_add_cancel deep]
    _ ≤ 2 ^ width := small

def grow (T : PrefixTrie width V) (p : Prefix) (b : Bool) (here : p ∈ T.nodes) (deep : 0 < p.free) :
    PrefixTrie width V where
  nodes := insert (p.child b) T.nodes
  value := T.value
  root_mem i small := Finset.mem_insert_of_mem (T.root_mem i small)
  parent_mem q member other := by
    refine Finset.mem_insert_of_mem ?_
    rcases Finset.mem_insert.mp member with rfl | member
    · rwa [parent_child deep]
    · exact T.parent_mem q member other
  fits q member := by
    rcases Finset.mem_insert.mp member with rfl | member
    · exact child_fits deep (T.fits p here) b
    · exact T.fits q member
  value_mem key some := Finset.mem_insert_of_mem (T.value_mem key some)

def prune (T : PrefixTrie width V) (p : Prefix) (proper : p.bits ≠ 1) (orphan : T.Orphan p) :
    PrefixTrie width V where
  nodes := T.nodes.erase p
  value := T.value
  root_mem i small := by
    refine Finset.mem_erase.mpr ⟨?_, T.root_mem i small⟩
    rintro rfl
    exact proper rfl
  parent_mem q member other := by
    rcases Finset.mem_erase.mp member with ⟨-, inside⟩
    refine Finset.mem_erase.mpr ⟨?_, T.parent_mem q inside other⟩
    rintro rfl
    refine orphan.1 (Nat.succ_pos _) q.side ?_
    rwa [child_parent]
  fits q member := T.fits q (Finset.mem_erase.mp member).2
  value_mem key some := by
    refine Finset.mem_erase.mpr ⟨?_, T.value_mem key some⟩
    rintro rfl
    exact orphan.2 rfl some

def assign (T : PrefixTrie width V) (key : Nat) (v : Option V)
    (here : ⟨key, 0⟩ ∈ T.nodes) : PrefixTrie width V where
  nodes := T.nodes
  value := Function.update T.value key v
  root_mem := T.root_mem
  parent_mem := T.parent_mem
  fits := T.fits
  value_mem other some := by
    by_cases same : other = key
    · rwa [same]
    · rw [Function.update_of_ne same] at some
      exact T.value_mem other some

variable {T U : PrefixTrie width V} {p : Prefix} {key : Nat}

theorem live_assign (here : ⟨key, 0⟩ ∈ T.nodes) (v : Option V) (other : Nat) :
    (T.assign key v here).Live other ↔ if other = key then v ≠ none else T.Live other := by
  change Function.update T.value key v other ≠ none ↔ _
  by_cases same : other = key
  · subst same
    rw [Function.update_self, if_pos rfl]
  · rw [Function.update_of_ne same, if_neg same]
    rfl

/-- A trie reaches from a node of a key up to the root of its length. -/
theorem cut_mem (low : Nat) {high : Nat} (here : cut key low ∈ T.nodes) (above : low ≤ high)
    (short : high ≤ key.log2) : cut key high ∈ T.nodes := by
  induction high, above using Nat.le_induction with
  | base => exact here
  | succ high above ih =>
      rw [← parent_cut]
      refine T.parent_mem _ (ih (by omega)) fun top => ?_
      have length := ((covers_one_iff key high).mp top).2
      omega

theorem mem_of_liveIn (nonzero : p.bits ≠ 0) (live : T.LiveIn p key) : p ∈ T.nodes := by
  rw [live.2.eq_cut]
  refine cut_mem 0 ?_ (Nat.zero_le _) (free_le_log2 nonzero live.2)
  rw [cut_zero]
  exact T.value_mem key live.1

theorem free_lt_of_root {i : Nat} (here : ⟨1, i⟩ ∈ T.nodes) : i < width := by
  have small := (T.fits _ here).2
  have pow : (1 + 1) * 2 ^ i = 2 ^ (i + 1) := by rw [pow_succ, Nat.mul_comm]
  rw [pow] at small
  exact (Nat.pow_le_pow_iff_right Nat.one_lt_two).mp small

theorem key_lt (here : ⟨key, 0⟩ ∈ T.nodes) : key < 2 ^ width := by
  have small := (T.fits _ here).2
  rw [pow_zero, Nat.mul_one] at small
  exact small

theorem Live.ne_zero (live : T.Live key) : key ≠ 0 := (T.fits _ (T.value_mem key live)).1

theorem grow_orphan {b : Bool} (here : p ∈ T.nodes) (deep : 0 < p.free) (absent : p.child b ∉ T.nodes) :
    (T.grow p b here deep).Orphan (p.child b) := by
  refine ⟨fun level c inside => ?_, fun bottom live => absent ?_⟩
  · rcases Finset.mem_insert.mp inside with same | inside
    · have lower := congrArg free same
      rw [free_child] at lower
      omega
    · have proper : ((p.child b).child c).bits ≠ 1 := by
        have nonzero := (T.fits p here).1
        exact bits_child_ne_one (bits_child_ne_zero nonzero b) c
      have above := T.parent_mem _ inside proper
      rw [parent_child level] at above
      exact absent above
  · have shape : p.child b = ⟨(p.child b).bits, 0⟩ := by rw [← bottom]
    rw [shape]
    exact T.value_mem _ live

theorem liveIn_child_iff (deep : 0 < p.free) :
    T.LiveIn p key ↔ ∃ b, T.LiveIn (p.child b) key := by
  constructor
  · intro live
    rcases exists_child deep live.2 with ⟨b, covers⟩
    exact ⟨b, live.1, covers⟩
  · rintro ⟨b, live⟩
    exact ⟨live.1, live.2.of_child deep⟩

/-- The nodes of a pruned trie are the roots and the prefixes of its keys. -/
theorem Pruned.mem_iff (pruned : T.Pruned) (p : Prefix) :
    p ∈ T.nodes ↔ (p.bits = 1 ∧ p.free < width) ∨ (p.bits ≠ 0 ∧ ∃ key, T.LiveIn p key) := by
  constructor
  · intro here
    rcases pruned p here with top | live
    · rcases p with ⟨bits, free⟩
      obtain rfl : bits = 1 := top
      exact .inl ⟨rfl, free_lt_of_root here⟩
    · exact .inr ⟨(T.fits p here).1, live⟩
  · rintro (⟨top, small⟩ | ⟨nonzero, key, live⟩)
    · rcases p with ⟨bits, free⟩
      obtain rfl : bits = 1 := top
      exact T.root_mem free small
    · exact mem_of_liveIn nonzero live

theorem Pruned.nodes_eq (first : T.Pruned) (second : U.Pruned) (same : ∀ key, T.Live key ↔ U.Live key) :
    T.nodes = U.nodes := by
  ext p
  rw [first.mem_iff, second.mem_iff]
  simp only [LiveIn, same]

theorem mem_of_below {x : Prefix} (inside : x ∈ T.nodes) (below : Below x p) (nonzero : p.bits ≠ 0) :
    p ∈ T.nodes := by
  rcases below with ⟨-, same⟩
  generalize p.free - x.free = n at same
  induction n generalizing p with
  | zero => exact same ▸ inside
  | succ n ih =>
      rw [Function.iterate_succ_apply'] at same
      have lower : (Prefix.parent^[n] x).bits / 2 = p.bits := congrArg bits same
      rw [← same]
      refine T.parent_mem _ (ih (by omega) rfl) (by omega)

theorem Orphan.eq_of_below {x : Prefix} (orphan : T.Orphan p) (nonzero : p.bits ≠ 0)
    (inside : x ∈ T.nodes) (below : Below x p) : x = p := by
  by_contra apart
  have level : x.free < p.free := by
    by_contra high
    exact apart (below.eq_of_free_le (Nat.le_of_not_lt high))
  rcases below.child level with ⟨b, lower⟩
  exact orphan.1 (by omega) b (mem_of_below inside lower (bits_child_ne_zero nonzero b))

/-- A node that is no orphan has a key below it, if its children do. -/
theorem live_of_not_orphan (used : ¬ T.Orphan p)
    (children : 0 < p.free → ∀ b, p.child b ∈ T.nodes → ∃ key, T.LiveIn (p.child b) key) :
    ∃ key, T.LiveIn p key := by
  by_contra none
  refine used ⟨fun deep b inside => ?_, fun bottom some => ?_⟩
  · rcases children deep b inside with ⟨key, live⟩
    exact none ⟨key, live.1, live.2.of_child deep⟩
  · exact none ⟨p.bits, some, (covers_zero bottom _).mpr rfl⟩

/-- The end of a climb that prunes: when the nodes without a key below them are
all at or above a node that is no orphan, there are none. -/
theorem pruned_of_not_orphan (here : p ∈ T.nodes) (used : ¬ T.Orphan p)
    (others : ∀ x ∈ T.nodes, x.bits = 1 ∨ (∃ key, T.LiveIn x key) ∨ Below p x) : T.Pruned := by
  have live : ∃ key, T.LiveIn p key := by
    refine live_of_not_orphan used fun deep b inside => ?_
    rcases others _ inside with top | found | below
    · exact absurd top (bits_child_ne_one (T.fits p here).1 b)
    · exact found
    · have level := below.1
      rw [free_child] at level
      omega
  intro x inside
  rcases others x inside with top | found | below
  · exact .inl top
  · exact .inr found
  · rcases live with ⟨key, live⟩
    exact .inr ⟨key, live.1, below.covers live.2⟩

/-- What a sweep of the nodes below `p` leaves of a trie. -/
structure Swept (p : Prefix) (T U : PrefixTrie width V) : Prop where
  value : U.value = T.value
  subset : U.nodes ⊆ T.nodes
  high : ∀ x ∈ T.nodes, p.free ≤ x.free → x ∈ U.nodes
  clean : ∀ x ∈ U.nodes, x.free < p.free → Below x p → ∃ key, T.LiveIn x key

theorem Orphan.swept (orphan : T.Orphan p) (nonzero : p.bits ≠ 0) : Swept p T T where
  value := rfl
  subset := subset_rfl
  high _ inside _ := inside
  clean x inside level below := by
    rw [orphan.eq_of_below nonzero inside below] at level
    exact absurd level (Nat.lt_irrefl _)

/-- Of a child whose lower part has been swept, the test for orphans tells
whether it has a purpose. -/
theorem Swept.keep {x : Prefix} (swept : Swept p T U) (used : ¬ U.Orphan p)
    (inside : x ∈ U.nodes) (below : Below x p) : ∃ key, T.LiveIn x key := by
  have same : ∀ x key, U.LiveIn x key ↔ T.LiveIn x key := by
    intro x key
    rw [LiveIn, LiveIn, Live, Live, swept.value]
  by_cases level : x.free < p.free
  · exact swept.clean x inside level below
  · obtain rfl := below.eq_of_free_le (by omega)
    have children : 0 < x.free → ∀ b, x.child b ∈ U.nodes → ∃ key, U.LiveIn (x.child b) key := by
      intro deep b member
      have above : Below (x.child b) x := by
        apply Below.of_parent
        rw [parent_child deep]
        exact Below.refl x
      have lower : (x.child b).free < x.free := Nat.sub_lt deep Nat.one_pos
      rcases swept.clean _ member lower above with ⟨key, live⟩
      exact ⟨key, (same _ _).mpr live⟩
    rcases live_of_not_orphan used children with ⟨key, live⟩
    exact ⟨key, (same _ _).mp live⟩

end PrefixTrie

end MnCommon.Tries
