import Mathlib.Data.Finset.Card
import Mathlib.Data.List.Pairwise
import Mathlib.Data.List.ReduceOption
import MnCommon.Tries.PrefixTrie

/-! The nodes of a binary trie, each before those below it, with a gap for every
child that is not there. -/

namespace MnCommon.Tries.PrefixTrie

open Prefix

variable {width : Nat} {V : Type} {T : PrefixTrie width V} {p q : Prefix} {n : Nat}

/-- What is met at a prefix with `n` free digits and below it. -/
def walk (T : PrefixTrie width V) : Nat → Prefix → List (Option Prefix)
  | 0, p => [some p, none, none]
  | n + 1, p =>
      some p :: ((if p.child false ∈ T.nodes then walk T n (p.child false) else [none]) ++
        if p.child true ∈ T.nodes then walk T n (p.child true) else [none])

/-- The part that belongs to a child. -/
def walkIn (T : PrefixTrie width V) (n : Nat) (q : Prefix) : List (Option Prefix) :=
  if q ∈ T.nodes then walk T n q else [none]

/-- Root by root. -/
def walkAll (T : PrefixTrie width V) : List (Option Prefix) := (List.range width).flatMap fun i => walk T i ⟨1, i⟩

theorem walk_succ (T : PrefixTrie width V) (n : Nat) (p : Prefix) :
    walk T (n + 1) p = some p :: (walkIn T n (p.child false) ++ walkIn T n (p.child true)) := rfl

theorem walkIn_mem (here : q ∈ T.nodes) : walkIn T n q = walk T n q := if_pos here

theorem walkIn_absent (absent : q ∉ T.nodes) : walkIn T n q = [none] := if_neg absent

theorem free_succ_pos (level : p.free = n + 1) : 0 < p.free := by
  rw [level]
  exact Nat.succ_pos n

theorem free_child_succ (level : p.free = n + 1) (b : Bool) : (p.child b).free = n := by
  rw [free_child, level]
  rfl

instance (x p : Prefix) : Decidable (Below x p) :=
  inferInstanceAs (Decidable (x.free ≤ p.free ∧ Prefix.parent^[p.free - x.free] x = p))

theorem below_of_child (deep : 0 < p.free) {b : Bool} (below : Below q (p.child b)) : Below q p := by
  refine below.trans (.of_parent ?_)
  rw [parent_child deep]
  exact .refl p

theorem free_lt_of_child (deep : 0 < p.free) {b : Bool} (below : Below q (p.child b)) : q.free < p.free := by
  have level := below.1
  rw [free_child] at level
  omega

theorem mem_walk (nonzero : p.bits ≠ 0) (here : p ∈ T.nodes) (level : p.free = n) :
    some q ∈ walk T n p ↔ q ∈ T.nodes ∧ Below q p := by
  induction n generalizing p with
  | zero =>
      have only : some q ∈ walk T 0 p ↔ q = p := by simp [walk]
      rw [only]
      constructor
      · rintro rfl
        exact ⟨here, .refl q⟩
      · exact fun both => both.2.eq_of_free_le (by omega)
  | succ n ih =>
      have deep := free_succ_pos level
      have inside (b : Bool) : some q ∈ walkIn T n (p.child b) ↔ q ∈ T.nodes ∧ Below q (p.child b) := by
        by_cases child : p.child b ∈ T.nodes
        · rw [walkIn_mem child]
          exact ih (bits_child_ne_zero nonzero b) child (free_child_succ level b)
        · rw [walkIn_absent child]
          constructor
          · intro gap
            cases List.mem_singleton.mp gap
          · exact fun both => absurd (mem_of_below both.1 both.2 (bits_child_ne_zero nonzero b)) child
      rw [walk_succ, List.mem_cons, List.mem_append, inside, inside, Option.some.injEq]
      constructor
      · rintro (rfl | ⟨member, below⟩ | ⟨member, below⟩)
        · exact ⟨here, .refl q⟩
        · exact ⟨member, below_of_child deep below⟩
        · exact ⟨member, below_of_child deep below⟩
      · intro both
        rcases both with ⟨member, below⟩
        by_cases same : q = p
        · exact .inl same
        · have strict : q.free < p.free := by
            by_contra level
            exact same (below.eq_of_free_le (not_lt.mp level))
          rcases below.child strict with ⟨b, under⟩
          cases b with
          | false => exact .inr (.inl ⟨member, under⟩)
          | true => exact .inr (.inr ⟨member, under⟩)

theorem reduceOption_flatMap {A B : Type} (xs : List A) (f : A → List (Option B)) :
    (xs.flatMap f).reduceOption = xs.flatMap fun x => (f x).reduceOption := List.filterMap_flatMap

theorem mem_walkIn (nonzero : q.bits ≠ 0) (level : q.free = n) {x : Prefix} (met : x ∈ (walkIn T n q).reduceOption) :
    Below x q := by
  rw [List.reduceOption_mem_iff] at met
  by_cases here : q ∈ T.nodes
  · rw [walkIn_mem here] at met
    exact ((mem_walk nonzero here level).mp met).2
  · rw [walkIn_absent here] at met
    cases List.mem_singleton.mp met

/-- The keys of one prefix are all smaller than those of another. -/
def Before (x y : Prefix) : Prop := ∀ a b, x.Covers a → y.Covers b → a < b

theorem children_before {x y : Prefix} (left : Below x (p.child false)) (right : Below y (p.child true)) :
    Before x y := fun _ _ first second =>
  child_apart true p (left.covers first) (right.covers second)

theorem roots_before {i j : Nat} {x y : Prefix} (shorter : i < j) (left : Below x ⟨1, i⟩) (right : Below y ⟨1, j⟩) :
    Before x y := by
  intro a b first second
  have apart : Nearer true i j := shorter
  exact root_apart apart (left.covers first) (right.covers second)

theorem not_before_self (x : Prefix) : ¬ Before x x := by
  intro before
  have lowest : x.Covers (x.bits * 2 ^ x.free) := Nat.mul_div_cancel _ (Nat.two_pow_pos x.free)
  exact Nat.lt_irrefl _ (before _ _ lowest lowest)

section Pairs

variable {R : Prefix → Prefix → Prop} (down : ∀ p x, Below x p → x.free < p.free → R p x)
  (before : ∀ x y, Before x y → R x y)
include down before

/-- What holds between a node and those below it, and between nodes of which one comes before the
other, holds between any two that are met one after the other. -/
theorem walk_pairwise (nonzero : p.bits ≠ 0) (level : p.free = n) : (walk T n p).reduceOption.Pairwise R := by
  induction n generalizing p with
  | zero => exact List.pairwise_singleton R p
  | succ n ih =>
      have deep := free_succ_pos level
      have part (b : Bool) : (walkIn T n (p.child b)).reduceOption.Pairwise R := by
        by_cases here : p.child b ∈ T.nodes
        · rw [walkIn_mem here]
          exact ih (bits_child_ne_zero nonzero b) (free_child_succ level b)
        · rw [walkIn_absent here]
          exact List.Pairwise.nil
      have under (b : Bool) {x : Prefix} (met : x ∈ (walkIn T n (p.child b)).reduceOption) : Below x (p.child b) :=
        mem_walkIn (bits_child_ne_zero nonzero b) (free_child_succ level b) met
      have below (b : Bool) {x : Prefix} (met : x ∈ (walkIn T n (p.child b)).reduceOption) : R p x :=
        down p x (below_of_child deep (under b met)) (free_lt_of_child deep (under b met))
      rw [walk_succ, List.reduceOption_cons_of_some, List.reduceOption_append, List.pairwise_cons]
      refine ⟨fun x met => ?_, List.pairwise_append.mpr ⟨part false, part true, fun x first y second => ?_⟩⟩
      · rcases List.mem_append.mp met with met | met
        · exact below false met
        · exact below true met
      · exact before x y (children_before (under false first) (under true second))

theorem walkAll_pairwise : (walkAll T).reduceOption.Pairwise R := by
  have under {i : Nat} (small : i ∈ List.range width) {x : Prefix} (met : x ∈ (walk T i ⟨1, i⟩).reduceOption) :
      Below x ⟨1, i⟩ := by
    have here := T.root_mem i (List.mem_range.mp small)
    exact ((mem_walk Nat.one_ne_zero here rfl).mp (List.reduceOption_mem_iff.mp met)).2
  rw [walkAll, reduceOption_flatMap, List.pairwise_flatMap]
  refine ⟨fun i _ => walk_pairwise down before Nat.one_ne_zero rfl, ?_⟩
  refine List.pairwise_lt_range.imp_of_mem fun first second less x met y later => ?_
  exact before x y (roots_before less (under first met) (under second later))

end Pairs

/-- No node is met twice. -/
theorem walkAll_nodup (T : PrefixTrie width V) : (walkAll T).reduceOption.Nodup := by
  refine walkAll_pairwise ?_ ?_
  · rintro p x - strict rfl
    exact Nat.lt_irrefl _ strict
  · rintro x y before rfl
    exact not_before_self x before

/-- The keys are met in their order. -/
theorem walkAll_ascending (T : PrefixTrie width V) :
    (walkAll T).reduceOption.Pairwise fun x y => x.free = 0 → y.free = 0 → x.bits < y.bits := by
  refine walkAll_pairwise ?_ ?_
  · intro p x _ strict bottom
    exact absurd strict (by omega)
  · intro x y before first second
    exact before _ _ ((covers_zero first _).mpr rfl) ((covers_zero second _).mpr rfl)

/-- Everything is met. -/
theorem mem_walkAll : q ∈ (walkAll T).reduceOption ↔ q ∈ T.nodes := by
  rw [List.reduceOption_mem_iff, walkAll, List.mem_flatMap]
  constructor
  · rintro ⟨i, small, met⟩
    exact ((mem_walk Nat.one_ne_zero (T.root_mem i (List.mem_range.mp small)) rfl).mp met).1
  · intro member
    have below := below_root (T.fits q member).1
    have small := free_lt_of_root (mem_of_below member below Nat.one_ne_zero)
    refine ⟨_, List.mem_range.mpr small, ?_⟩
    exact (mem_walk Nat.one_ne_zero (T.root_mem _ small) rfl).mpr ⟨member, below⟩

/-- The gaps below a node are one more than the nodes. -/
theorem walk_length (T : PrefixTrie width V) (n : Nat) (p : Prefix) :
    (walk T n p).length = 2 * (walk T n p).reduceOption.length + 1 := by
  induction n generalizing p with
  | zero => rfl
  | succ n ih =>
      have part (q : Prefix) : (walkIn T n q).length = 2 * (walkIn T n q).reduceOption.length + 1 := by
        by_cases here : q ∈ T.nodes
        · rw [walkIn_mem here, ih]
        · rw [walkIn_absent here]
          rfl
      rw [walk_succ, List.reduceOption_cons_of_some, List.reduceOption_append, List.length_cons, List.length_cons,
        List.length_append, List.length_append, part, part]
      omega

theorem walkAll_length (T : PrefixTrie width V) : (walkAll T).length = 2 * T.nodes.card + width := by
  have met : (walkAll T).reduceOption.toFinset = T.nodes := by
    ext q
    rw [List.mem_toFinset, mem_walkAll]
  have sums (is : List Nat) : (is.map fun i => (walk T i ⟨1, i⟩).length).sum =
      2 * (is.map fun i => (walk T i ⟨1, i⟩).reduceOption.length).sum + is.length := by
    induction is with
    | nil => rfl
    | cons i rest ih =>
        rw [List.map_cons, List.sum_cons, List.map_cons, List.sum_cons, walk_length, ih, List.length_cons]
        omega
  rw [← met, List.toFinset_card_of_nodup (walkAll_nodup T), walkAll, reduceOption_flatMap, List.length_flatMap,
    List.length_flatMap, sums, List.length_range]

end MnCommon.Tries.PrefixTrie
