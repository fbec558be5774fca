import MnCommon.Hash.Shadowing

/-! Traversals of a table by a callback that only reads it and may end them. -/

namespace MnCommon.Hash

open Memory

variable {K V A : Type} {cb : Callbacks K V} {s : HashStore K V} {chains : Chains K V} {good : Nat → Prop} {p : Ptr}
  {xs ys : List (Entry K V)} {call : Ptr → A → HashProg K V (Int × A)} {f : A → Entry K V → Int × A}

/-- The items one after the other, up to the first answer that is not zero. -/
def sweep (f : A → Entry K V → Int × A) : List (Entry K V) → A → Int × A
  | [], acc => (0, acc)
  | x :: rest, acc => if (f acc x).1 ≠ 0 then f acc x else sweep f rest (f acc x).2

theorem sweep_append (f : A → Entry K V → Int × A) (xs ys : List (Entry K V)) (acc : A) :
    sweep f (xs ++ ys) acc = if (sweep f xs acc).1 ≠ 0 then sweep f xs acc else sweep f ys (sweep f xs acc).2 := by
  induction xs generalizing acc with
  | nil => exact (if_neg (not_not.mpr rfl)).symm
  | cons x rest ih =>
      rw [List.cons_append, sweep, sweep]
      by_cases stop : (f acc x).1 ≠ 0
      · rw [if_pos stop, if_pos stop, if_pos stop]
      · rw [if_neg stop, if_neg stop, ih]

/-- A callback that never ends the traversal folds the items. -/
theorem sweep_fold (g : A → Entry K V → A) (xs : List (Entry K V)) (acc : A) :
    sweep (fun acc x => (0, g acc x)) xs acc = (0, xs.foldl g acc) := by
  induction xs generalizing acc with
  | nil => rfl
  | cons x rest ih => rw [sweep, if_neg (not_not.mpr rfl), ih, List.foldl_cons]

/-- A callback that leaves the table alone and answers by the item. -/
def Answers (call : Ptr → A → HashProg K V (Int × A)) (f : A → Entry K V → Int × A) (s : HashStore K V)
    (xs : List (Entry K V)) : Prop :=
  ∀ x ∈ xs, ∀ acc, call (some x.1) acc s = .ok (f acc x, s)

theorem traverseChain_sweep {strict : Prop} {before : Ptr} (seg : links.Segment pairOf s.heap strict before p xs)
    (answers : Answers call f s xs) (fuel : Nat) (enough : xs.length ≤ fuel) (acc : A) :
    traverseChain call fuel p acc s = .ok (sweep f xs acc, s) := by
  induction xs generalizing strict before p fuel acc with
  | nil =>
      obtain rfl : p = none := seg
      cases fuel with
      | zero => rfl
      | succ fuel => rfl
  | cons x rest ih =>
      rcases seg with ⟨rfl, n, cell, -, -, tail⟩
      cases fuel with
      | zero => exact absurd enough (Nat.not_succ_le_zero _)
      | succ fuel =>
          rw [traverseChain, bind_ok (load_ok cell), bind_ok (answers x List.mem_cons_self acc), sweep]
          change (if (f acc x).1 ≠ 0 then _ else _ : HashProg K V (Int × A)) s = _
          rw [run_ite]
          by_cases stop : (f acc x).1 ≠ 0
          · rw [if_pos stop, if_pos stop, run_pure]
          · rw [if_neg stop, if_neg stop]
            exact ih tail (fun y inside => answers y (List.mem_cons_of_mem _ inside)) fuel
              (Nat.le_of_succ_le_succ enough) (f acc x).2

theorem traverseSlots_sweep (holds : Holds cb s chains good) (is : List Nat)
    (low : ∀ i ∈ is, i < s.vars.table.length) (answers : Answers call f s (is.flatMap chains)) (acc : A) :
    traverseSlots call is acc s =
      if (sweep f (is.flatMap chains) acc).1 ≠ 0 ∨ s.vars.table.length < 2 ^ 32 then
        .ok (sweep f (is.flatMap chains) acc, s)
      else .error .outOfFuel := by
  induction is generalizing acc with
  | nil =>
      have zero : ¬ (sweep f ([].flatMap chains) acc).1 ≠ 0 := not_not.mpr rfl
      rw [traverseSlots, run_bind]
      simp only [vars, zero, false_or]
      rw [run_ite]
      rfl
  | cons i rest ih =>
      have here := low i List.mem_cons_self
      have first : Answers call f s (chains i) := fun x inside =>
        answers x (List.mem_flatMap.mpr ⟨i, List.mem_cons_self, inside⟩)
      have others : Answers call f s (rest.flatMap chains) := by
        intro x inside
        rcases List.mem_flatMap.mp inside with ⟨j, member, there⟩
        exact answers x (List.mem_flatMap.mpr ⟨j, List.mem_cons_of_mem _ member, there⟩)
      have chain := traverseChain_sweep (holds.seg here) first s.bound ((holds.short here).trans (Nat.le_succ _)) acc
      have later := ih (fun j inside => low j (List.mem_cons_of_mem _ inside)) others (sweep f (chains i) acc).2
      rw [traverseSlots, run_bind]
      simp only [vars]
      rw [bind_ok (readSlot_ok (holds.head here)), bound_bind, bind_ok chain, List.flatMap_cons, sweep_append]
      change (if (sweep f (chains i) acc).1 ≠ 0 then _ else _ : HashProg K V (Int × A)) s = _
      rw [run_ite]
      by_cases stop : (sweep f (chains i) acc).1 ≠ 0
      · rw [if_pos stop, if_pos stop, if_pos (.inl stop), run_pure]
      · rw [if_neg stop, if_neg stop]
        exact later

/-- Over a table that is not too long the callback sees the items slot by slot. -/
theorem hashTraverseItem_sweep (holds : Holds cb s chains good) (small : s.vars.table.length < 2 ^ 32)
    (answers : Answers call f s (allOf s.vars.table.length chains)) (acc : A) :
    hashTraverseItem call acc s = .ok (sweep f (allOf s.vars.table.length chains) acc, s) := by
  rw [hashTraverseItem, run_bind]
  simp only [vars]
  rw [Nat.min_eq_left small.le, traverseSlots_sweep holds _ (fun i inside => List.mem_range.mp inside) answers,
    if_pos (.inr small), allOf]

end MnCommon.Hash
