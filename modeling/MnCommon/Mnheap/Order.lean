import Mathlib.Data.Int.Order.Basic
import MnCommon.Mnheap.Model
import MnCommon.Trees.HeapOrder

/-! Sifting down, and the loops around it. -/

namespace MnCommon.Mnheap

open Trees.HeapOrder

variable {α : Type}

/-- `cmp` is a total preorder and `swap` exchanges. -/
structure Lawful (heap : Callbacks α) : Prop where
  flip : ∀ a b, 0 < heap.cmp a b ↔ heap.cmp b a < 0
  trans : ∀ a b c, heap.cmp a b ≤ 0 → heap.cmp b c ≤ 0 → heap.cmp a c ≤ 0
  exchanges : ∀ a b, heap.swap a b = (b, a)

def Le (heap : Callbacks α) (a b : α) : Prop := heap.cmp a b ≤ 0

variable {heap : Callbacks α} {data : List α} {i base : Nat}

theorem Lawful.refl (lawful : Lawful heap) (a : α) : Le heap a a := by
  have flip := lawful.flip a a
  unfold Le
  omega

/-- What is not greater is in front. -/
theorem le_of_not {a b : α} (small : ¬ 0 < heap.cmp a b) : Le heap a b := Int.not_lt.mp small

theorem Lawful.le_of_greater (lawful : Lawful heap) {a b : α} (greater : 0 < heap.cmp a b) : Le heap b a :=
  Int.le_of_lt ((lawful.flip a b).mp greater)

theorem exchange_eq (lawful : Lawful heap) (i j : Fin data.length) :
    exchange heap data i j = (data.set i (data.get j)).set j (data.get i) := by
  rw [exchange, lawful.exchanges]
  rfl

theorem exchange_perm (lawful : Lawful heap) (i j : Fin data.length) : (exchange heap data i j).Perm data := by
  rw [exchange_eq lawful]
  exact List.set_set_perm i.isLt j.isLt

/-- The child chosen is not behind its sibling. -/
theorem minChild_spec (lawful : Lawful heap) (short : data.length ≤ 2 ^ 30) (inside : i < data.length) :
    (minChild heap data i = .ok none ∧ data.length ≤ 2 * i + 1) ∨
      ∃ j : Fin data.length, ∃ below : i < j, minChild heap data i = .ok (some ⟨j, below⟩) ∧ Child i j ∧
        ∀ c d, Child i c → data[c]? = some d → Le heap (data.get j) d := by
  have fits : ¬ 2 ^ 31 ≤ 2 * i + 1 := by omega
  rw [minChild, if_neg fits]
  by_cases left : 2 * i + 1 < data.length
  · right
    have fits' : ¬ 2 ^ 31 ≤ 2 * i + 2 := by omega
    rw [dif_pos left, if_neg fits']
    have first : data[2 * i + 1]? = some data[2 * i + 1] := List.getElem?_eq_getElem left
    by_cases right : 2 * i + 2 < data.length
    · rw [dif_pos right]
      have second : data[2 * i + 2]? = some data[2 * i + 2] := List.getElem?_eq_getElem right
      by_cases greater : 0 < heap.cmp data[2 * i + 1] data[2 * i + 2]
      · rw [if_pos greater]
        refine ⟨⟨2 * i + 2, right⟩, _, rfl, .inr rfl, fun c d child there => ?_⟩
        rcases child with rfl | rfl
        · obtain rfl := Option.some.inj (first.symm.trans there)
          exact lawful.le_of_greater greater
        · obtain rfl := Option.some.inj (second.symm.trans there)
          exact lawful.refl _
      · rw [if_neg greater]
        refine ⟨⟨2 * i + 1, left⟩, _, rfl, .inl rfl, fun c d child there => ?_⟩
        rcases child with rfl | rfl
        · obtain rfl := Option.some.inj (first.symm.trans there)
          exact lawful.refl _
        · obtain rfl := Option.some.inj (second.symm.trans there)
          exact le_of_not greater
    · rw [dif_neg right]
      refine ⟨⟨2 * i + 1, left⟩, _, rfl, .inl rfl, fun c d child there => ?_⟩
      rcases child with rfl | rfl
      · obtain rfl := Option.some.inj (first.symm.trans there)
        exact lawful.refl _
      · exact absurd (List.getElem?_eq_some_iff.mp there).1 right
  · left
    rw [dif_neg left]
    exact ⟨rfl, Nat.le_of_not_lt left⟩

/-- Sifting down mends the order below the node at which it starts. -/
theorem siftdown_spec (lawful : Lawful heap) (data : List α) (i : Nat) (short : data.length ≤ 2 ^ 30)
    (inside : i < data.length) (low : base ≤ i) (but : HeapBut (Le heap) base i data) :
    ∃ next, siftdown heap data i = .ok next ∧ next.Perm data ∧ HeapFrom (Le heap) base next := by
  have here : data[i]? = some data[i] := List.getElem?_eq_getElem inside
  rcases minChild_spec lawful short inside with ⟨chosen, leaf⟩ | ⟨j, below, chosen, child, least⟩
  · refine ⟨data, ?_, .refl _, but.done fun c child => ?_⟩
    · rw [siftdown, chosen]
    · exact HeapFrom.leaves leaf i c (Nat.le_refl i) child
  · have there : data[(j : Nat)]? = some data[j] := List.getElem?_eq_getElem j.isLt
    by_cases greater : 0 < heap.cmp data[i] data[j]
    · have before := lawful.le_of_greater greater
      have down := but.descend low child there before (fun c d => least c d) j.isLt
      have next := siftdown_spec lawful (exchange heap data ⟨i, inside⟩ j) j
        (by rwa [length_exchange]) (by rw [length_exchange]; exact j.isLt) (by omega)
        (by rw [exchange_eq lawful]; exact down)
      rcases next with ⟨next, run, perm, ordered⟩
      refine ⟨next, ?_, perm.trans (exchange_perm lawful _ _), ordered⟩
      rw [siftdown, chosen]
      simp only [Fin.getElem_fin] at greater ⊢
      exact (if_pos greater).trans run
    · refine ⟨data, ?_, .refl _, but.done fun c onward a b first second => ?_⟩
      · rw [siftdown, chosen]
        simp only [Fin.getElem_fin] at greater ⊢
        exact if_neg greater
      · obtain rfl : data[i] = a := Option.some.inj (here.symm.trans first)
        exact lawful.trans _ _ _ (le_of_not greater) (least c b onward second)
termination_by data.length - i
decreasing_by
  rw [length_exchange]
  omega

/-- One pass of the loops: a heap from `n` on becomes one from the root on. -/
theorem siftdownFrom_spec (lawful : Lawful heap) (n : Nat) (data : List α) (short : data.length ≤ 2 ^ 30)
    (inside : n ≤ data.length) (ordered : HeapFrom (Le heap) n data) :
    ∃ next, siftdownFrom heap n data = .ok next ∧ next.Perm data ∧ HeapFrom (Le heap) 0 next := by
  induction n generalizing data with
  | zero => exact ⟨data, rfl, .refl _, ordered⟩
  | succ n ih =>
      rcases siftdown_spec lawful data n short (by omega) (Nat.le_refl n) ordered.but with ⟨mid, run, perm, lower⟩
      rcases ih mid (by rwa [perm.length_eq]) (by rw [perm.length_eq]; omega) lower with ⟨next, rest, perm', heap⟩
      exact ⟨next, by rw [siftdownFrom, run]; exact rest, perm'.trans perm, heap⟩

/-- From any node on behind which there are leaves only. -/
theorem siftdownFrom_leaves (lawful : Lawful heap) (n : Nat) (data : List α) (short : data.length ≤ 2 ^ 30)
    (inside : n ≤ data.length) (leaves : data.length ≤ 2 * n + 1) :
    ∃ next, siftdownFrom heap n data = .ok next ∧ next.Perm data ∧ HeapFrom (Le heap) 0 next :=
  siftdownFrom_spec lawful n data short inside (.leaves leaves)

/-- A short length is the same as an `int`. -/
theorem toInt_eq {n : Nat} (short : n < 2 ^ 31) : toInt n = n := by
  apply Int.bmod_eq_of_le_mul_two
  · omega
  · omega

theorem heapIfy_spec (lawful : Lawful heap) (data : List α) (short : data.length ≤ 2 ^ 30) :
    ∃ next, heapIfy heap data = .ok next ∧ next.Perm data ∧ HeapFrom (Le heap) 0 next := by
  have start : ((toInt data.length).tdiv 2 - 1 + 1).toNat = data.length / 2 := by
    rw [toInt_eq (by omega), Int.natCast_tdiv_eq_ediv]
    omega
  rw [heapIfy, start]
  exact siftdownFrom_leaves lawful (data.length / 2) data short (by omega) (by omega)

theorem siftdownLast_spec (lawful : Lawful heap) (data : List α) (short : data.length ≤ 2 ^ 30)
    (two : 1 < data.length) :
    ∃ next, siftdownLast heap data = .ok next ∧ next.Perm data ∧ HeapFrom (Le heap) 0 next := by
  have start : (toInt ((data.length - 1 - 1) / 2) + 1).toNat = (data.length - 2) / 2 + 1 := by
    rw [toInt_eq (by omega)]
    omega
  rw [siftdownLast, start]
  exact siftdownFrom_leaves lawful _ data short (by omega) (by omega)

end MnCommon.Mnheap
