import Mathlib.Data.List.Perm.Basic
import Mathlib.Logic.Relation

/-! Binary heaps in lists: the order from a node on, and what moving an element
down does to it. -/

namespace MnCommon.Trees.HeapOrder

variable {α : Type} {le : α → α → Prop} {xs ys : List α} {a b : α} {base hole p c i j : Nat}

def Child (p c : Nat) : Prop := c = 2 * p + 1 ∨ c = 2 * p + 2

variable (le) in
/-- The elements at the two indices are in order, if there are any. -/
def Edge (xs : List α) (p c : Nat) : Prop := ∀ a b, xs[p]? = some a → xs[c]? = some b → le a b

variable (le) in
/-- No node from `base` on is behind its children. -/
def HeapFrom (base : Nat) (xs : List α) : Prop := ∀ p c, base ≤ p → Child p c → Edge le xs p c

variable (le) in
/-- The same but for the children of one node, which are not in front of its parent. -/
structure HeapBut (base hole : Nat) (xs : List α) : Prop where
  edges : ∀ p c, base ≤ p → p ≠ hole → Child p c → Edge le xs p c
  bridge : ∀ p c, base ≤ p → Child p hole → Child hole c → Edge le xs p c

theorem Child.lt (child : Child p c) : p < c := by
  rcases child with rfl | rfl
  · omega
  · omega

theorem Child.parent (child : Child p c) (other : Child i c) : p = i := by
  unfold Child at child other
  omega

theorem exists_child (positive : 0 < c) : ∃ p, Child p c := by
  refine ⟨(c - 1) / 2, ?_⟩
  unfold Child
  omega

/-- The nodes of the second half have no children. -/
theorem HeapFrom.leaves (short : xs.length ≤ 2 * base + 1) : HeapFrom le base xs := by
  intro p c from_base child a b _ there
  have inside := (List.getElem?_eq_some_iff.mp there).1
  unfold Child at child
  omega

/-- A heap keeps its order where elements go away. -/
theorem HeapFrom.shrink (heap : HeapFrom le base xs)
    (kept : ∀ k, base ≤ k → ∀ a, ys[k]? = some a → xs[k]? = some a) : HeapFrom le base ys := by
  intro p c low child a b here there
  have below := child.lt
  exact heap p c low child a b (kept p low a here) (kept c (by omega) b there)

theorem HeapFrom.but (heap : HeapFrom le (base + 1) xs) : HeapBut le base base xs := by
  constructor
  · intro p c low other child
    exact heap p c (by omega) child
  · intro p c low child
    have below := child.lt
    omega

theorem HeapBut.done (heap : HeapBut le base hole xs) (ordered : ∀ c, Child hole c → Edge le xs hole c) :
    HeapFrom le base xs := by
  intro p c low child
  by_cases here : p = hole
  · subst here
    exact ordered c child
  · exact heap.edges p c low here child

/-- The element of the hole changes places with the least of the children: the hole
moves down. -/
theorem HeapBut.descend (heap : HeapBut le base hole xs) (low : base ≤ hole) (child : Child hole j)
    (least : xs[j]? = some b) (before : le b a) (others : ∀ c d, Child hole c → xs[c]? = some d → le b d)
    (inside : j < xs.length) : HeapBut le base j ((xs.set hole b).set j a) := by
  have below := child.lt
  have moved : ((xs.set hole b).set j a)[j]? = some a := List.getElem?_set_self (by rwa [List.length_set])
  have filled : ((xs.set hole b).set j a)[hole]? = some b := by
    rw [List.getElem?_set_ne (by omega), List.getElem?_set_self (by omega)]
  have same : ∀ k, k ≠ hole → k ≠ j → ((xs.set hole b).set j a)[k]? = xs[k]? := by
    intro k away other
    rw [List.getElem?_set_ne other.symm, List.getElem?_set_ne away.symm]
  constructor
  · intro p c above other edge d e here there
    have down := edge.lt
    by_cases top : p = hole
    · subst top
      obtain rfl : b = d := Option.some.inj (filled.symm.trans here)
      by_cases chosen : c = j
      · subst chosen
        obtain rfl : a = e := Option.some.inj (moved.symm.trans there)
        exact before
      · rw [same c (by omega) chosen] at there
        exact others c e edge there
    · rw [same p top other] at here
      have apart : c ≠ j := by
        rintro rfl
        exact top (edge.parent child)
      by_cases into : c = hole
      · subst into
        obtain rfl : b = e := Option.some.inj (filled.symm.trans there)
        exact heap.bridge p j above edge child d b here least
      · rw [same c into apart] at there
        exact heap.edges p c above top edge d e here there
  · intro p c above edge onward d e here there
    have down := onward.lt
    obtain rfl : p = hole := edge.parent child
    obtain rfl : b = d := Option.some.inj (filled.symm.trans here)
    rw [same c (by omega) (by omega)] at there
    exact heap.edges j c (by omega) (by omega) onward b e least there

/-- The nodes of the tree at `p`. -/
def Below : Nat → Nat → Prop := Relation.ReflTransGen Child

theorem below_zero (k : Nat) : Below 0 k := by
  induction k using Nat.strongRecOn with
  | ind k ih =>
      rcases Nat.eq_zero_or_pos k with rfl | positive
      · exact .refl
      · rcases exists_child positive with ⟨p, child⟩
        exact (ih p child.lt).tail child

theorem Below.index_le (below : Below p c) : p ≤ c := by
  induction below with
  | refl => exact Nat.le_refl p
  | tail _ child ih => exact Nat.le_trans ih (Nat.le_of_lt child.lt)

/-- A node is in front of all that are below it. -/
theorem HeapFrom.below (heap : HeapFrom le base xs) (refl : ∀ a, le a a) (trans : ∀ a b c, le a b → le b c → le a c)
    (low : base ≤ p) (under : Below p c) (first : xs[p]? = some a) (here : xs[c]? = some b) : le a b := by
  induction under generalizing b with
  | refl =>
      obtain rfl : a = b := Option.some.inj (first.symm.trans here)
      exact refl a
  | @tail k c under child ih =>
      have above := child.lt
      have inside := (List.getElem?_eq_some_iff.mp here).1
      have parent : xs[k]? = some xs[k] := List.getElem?_eq_getElem (by omega)
      have from_base : base ≤ k := Nat.le_trans low (Below.index_le under)
      exact trans a xs[k] b (ih parent) (heap k c from_base child xs[k] b parent here)

/-- The root is in front of all elements. -/
theorem HeapFrom.root (heap : HeapFrom le 0 xs) (refl : ∀ a, le a a) (trans : ∀ a b c, le a b → le b c → le a c)
    (first : xs[0]? = some a) (k : Nat) (here : xs[k]? = some b) : le a b :=
  heap.below refl trans (Nat.le_refl 0) (below_zero k) first here

end MnCommon.Trees.HeapOrder
