import Mathlib.Algebra.Group.Nat.Defs
import Mathlib.Data.List.Basic

/-! Callbacks that are called for one thing after the other until one of the answers is not zero. -/

namespace MnCommon.Memory

variable {A B C : Type}

/-- The answer of the last call and what the callback has made of its user data. -/
def visit (f : A → B → Int × A) : List B → A → Int × A
  | [], acc => (0, acc)
  | x :: rest, acc => if (f acc x).1 ≠ 0 then f acc x else visit f rest (f acc x).2

variable {f : A → B → Int × A} {xs ys : List B} {acc : A}

@[simp] theorem visit_nil (f : A → B → Int × A) (acc : A) : visit f [] acc = (0, acc) := rfl

theorem visit_stop {x : B} (stop : (f acc x).1 ≠ 0) (rest : List B) : visit f (x :: rest) acc = f acc x := if_pos stop

theorem visit_pass {x : B} (pass : ¬ (f acc x).1 ≠ 0) (rest : List B) :
    visit f (x :: rest) acc = visit f rest (f acc x).2 := if_neg pass

theorem visit_single (f : A → B → Int × A) (x : B) (acc : A) : visit f [x] acc = f acc x := by
  by_cases stop : (f acc x).1 ≠ 0
  · exact visit_stop stop []
  · rw [visit_pass stop, visit_nil, ← not_not.mp stop]

theorem visit_append (f : A → B → Int × A) (xs ys : List B) (acc : A) :
    visit f (xs ++ ys) acc = if (visit f xs acc).1 ≠ 0 then visit f xs acc else visit f ys (visit f xs acc).2 := by
  induction xs generalizing acc with
  | nil => exact (if_neg (not_not.mpr rfl)).symm
  | cons x rest ih =>
      by_cases stop : (f acc x).1 ≠ 0
      · rw [List.cons_append, visit_stop stop, visit_stop stop, if_pos stop]
      · rw [List.cons_append, visit_pass stop, visit_pass stop, ih]

/-- A callback that never answers with anything but zero is called for all. -/
theorem visit_fold (g : A → B → A) (xs : List B) (acc : A) :
    visit (fun acc x => (0, g acc x)) xs acc = (0, xs.foldl g acc) := by
  induction xs generalizing acc with
  | nil => rfl
  | cons x rest ih => rw [visit_pass (not_not.mpr rfl), ih, List.foldl_cons]

theorem visit_map (f : A → B → Int × A) (g : C → B) (zs : List C) (acc : A) :
    visit f (zs.map g) acc = visit (fun acc z => f acc (g z)) zs acc := by
  induction zs generalizing acc with
  | nil => rfl
  | cons z rest ih => rw [List.map_cons, visit, visit, ih]

/-- A callback that looks for something. -/
theorem visit_find (p : B → Prop) [DecidablePred p] (xs : List B) :
    (visit (fun (_ : Option B) x => if p x then (1, some x) else (0, none)) xs none).2 = xs.find? fun x => p x := by
  induction xs with
  | nil => rfl
  | cons x rest ih =>
      by_cases here : p x
      · rw [List.find?_cons_of_pos (p := fun x => decide (p x)) (decide_eq_true here),
          visit_stop (by rw [if_pos here]; exact Int.one_ne_zero), if_pos here]
      · rw [List.find?_cons_of_neg (p := fun x => decide (p x)) (by rwa [decide_eq_true_eq]),
          visit_pass (by rw [if_neg here]; exact not_not.mpr rfl), if_neg here, ih]

/-- One loop inside the other. -/
theorem visit_flatMap (f : A → B → Int × A) (g : C → List B) (zs : List C) (acc : A) :
    visit f (zs.flatMap g) acc = visit (fun acc z => visit f (g z) acc) zs acc := by
  induction zs generalizing acc with
  | nil => rfl
  | cons z rest ih =>
      rw [List.flatMap_cons, visit_append, visit, ih]

/-- Things that the callback passes over at the end. -/
theorem visit_append_ignored (xs : List B) {ys : List B} (ignored : ∀ acc, ∀ y ∈ ys, f acc y = (0, acc)) (acc : A) :
    visit f (xs ++ ys) acc = visit f xs acc := by
  have none (acc : A) : visit f ys acc = (0, acc) := by
    induction ys with
    | nil => rfl
    | cons y rest ih =>
        have here := ignored acc y List.mem_cons_self
        have pass : ¬ (f acc y).1 ≠ 0 := by
          rw [here]
          exact not_not.mpr rfl
        rw [visit_pass pass, here]
        exact ih fun acc y inside => ignored acc y (List.mem_cons_of_mem _ inside)
  rw [visit_append, none]
  split_ifs with stop
  · rfl
  · exact Prod.ext (not_not.mp stop).symm rfl

/-! Loops that take one thing after the other from an iterator until it has no more. -/

variable {I E : Type} (next : I → Except E (I × Option B))

/-- The loop has not come to its end when the fuel is used up. -/
def iterate (f : A → B → Int × A) : Nat → I × Option B → A → Except E (Option (Int × A))
  | _, (_, none), acc => .ok (some (0, acc))
  | 0, (_, some _), _ => .ok none
  | fuel + 1, (it, some x), acc =>
      if (f acc x).1 ≠ 0 then
        .ok (some (f acc x))
      else do
        let later ← next it
        iterate f fuel later (f acc x).2

/-- The iterator gives these things and no more. -/
inductive Yields : I × Option B → List B → Prop
  | done {it : I} : Yields (it, none) []
  | more {it : I} {x : B} {later : I × Option B} {rest : List B} (advance : next it = .ok later)
      (yields : Yields later rest) : Yields (it, some x) (x :: rest)

variable {next} {here : I × Option B}

theorem Yields.iterate (yields : Yields next here xs) {fuel : Nat} (enough : xs.length ≤ fuel) (acc : A) :
    iterate next f fuel here acc = .ok (some (visit f xs acc)) := by
  induction yields generalizing fuel acc with
  | done =>
      cases fuel with
      | zero => rfl
      | succ fuel => rfl
  | more advance yields ih =>
      cases fuel with
      | zero => exact absurd enough (Nat.not_succ_le_zero _)
      | succ fuel =>
          rw [Memory.iterate, visit]
          split_ifs
          · rfl
          · rw [advance]
            exact ih (Nat.le_of_succ_le_succ enough) _

/-- An iterator that always has one more. -/
theorem iterate_endless (always : ∀ it, ∃ later x, next it = .ok (later, some x)) (never : ∀ acc x, (f acc x).1 = 0)
    (fuel : Nat) (it : I) (x : B) (acc : A) : iterate next f fuel (it, some x) acc = .ok none := by
  induction fuel generalizing it x acc with
  | zero => rfl
  | succ fuel ih =>
      rcases always it with ⟨later, y, advance⟩
      rw [iterate, if_neg (not_not.mpr (never acc x)), advance]
      exact ih later y _

/-! Cursors of 32 bits in a row of things. -/

section Cursors

variable {step : UInt32 → Except E (UInt32 × Option B)}

theorem index_ofNat {i : Nat} (low : i < 2 ^ 32) : (UInt32.ofNat i).toNat = i := UInt32.toNat_ofNat_of_lt' low

/-- Forwards from any place on. -/
theorem yields_forward (moves : ∀ it, step it = .ok (it + 1, xs[(it + 1).toNat]?)) (short : xs.length < 2 ^ 32)
    (it : UInt32) : Yields step (it, xs[it.toNat]?) (xs.drop it.toNat) := by
  induction left : xs.length - it.toNat generalizing it with
  | zero =>
      rw [List.getElem?_eq_none (by omega), List.drop_eq_nil_of_le (by omega)]
      exact .done
  | succ k ih =>
      have inside : it.toNat < xs.length := by omega
      have after : (it + 1).toNat = it.toNat + 1 := by
        rw [UInt32.toNat_add]
        exact Nat.mod_eq_of_lt (by change it.toNat + 1 < 2 ^ 32; omega)
      have rest := ih (it + 1) (by omega)
      rw [after] at rest
      rw [List.getElem?_eq_getElem inside, List.drop_eq_getElem_cons inside]
      exact .more (moves it) (by rwa [after])

theorem index_pred {i : Nat} (low : i + 1 < 2 ^ 32) : (UInt32.ofNat (i + 1) - 1).toNat = i := by
  rw [UInt32.ofNat_add]
  change (UInt32.ofNat i + 1 - 1).toNat = i
  rw [UInt32.add_sub_cancel, index_ofNat (by omega)]

/-- The difference wraps around where there is no last one. -/
theorem getElem?_last (short : xs.length < 2 ^ 32) : xs[(UInt32.ofNat xs.length - 1).toNat]? = xs.getLast? := by
  cases length : xs.length with
  | zero =>
      rw [List.length_eq_zero_iff.mp length]
      rfl
  | succ n =>
      rw [index_pred (length ▸ short), List.getLast?_eq_getElem?, length, Nat.add_sub_cancel]

/-- Backwards from the last one on. -/
theorem yields_backward (moves : ∀ it, step it = .ok (it - 1, xs[(it - 1).toNat]?)) (short : xs.length < 2 ^ 32) :
    Yields step (UInt32.ofNat xs.length - 1, xs[(UInt32.ofNat xs.length - 1).toNat]?) xs.reverse := by
  have along (i : Nat) (low : i ≤ xs.length) :
      Yields step (UInt32.ofNat i - 1, xs[(UInt32.ofNat i - 1).toNat]?) (xs.take i).reverse := by
    induction i with
    | zero =>
        have wrapped : (UInt32.ofNat 0 - 1).toNat = 2 ^ 32 - 1 := rfl
        rw [wrapped, List.getElem?_eq_none (by omega)]
        exact .done
    | succ i ih =>
        have before : UInt32.ofNat (i + 1) - 1 = UInt32.ofNat i := by
          rw [UInt32.ofNat_add]
          exact UInt32.add_sub_cancel _ _
        rw [before, index_ofNat (by omega), List.getElem?_eq_getElem (by omega), ← List.take_append_getElem (by omega : i < xs.length),
          List.reverse_append]
        exact .more (moves _) (ih (by omega))
  have whole := along xs.length (Nat.le_refl _)
  rwa [List.take_length] at whole

/-- A row that is too long has a thing at every place that a cursor may stand at. -/
theorem always_there (long : 2 ^ 32 ≤ xs.length) (it : UInt32) : ∃ x, xs[it.toNat]? = some x :=
  ⟨_, List.getElem?_eq_getElem (Nat.lt_of_lt_of_le it.toNat_lt long)⟩

end Cursors

end MnCommon.Memory
