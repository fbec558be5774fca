import MnCommon.Memory.Run
import MnCommon.Mnheap.Order

/-! A heap as a priority queue, over whole runs. -/

namespace MnCommon.Mnheap

open Memory (Along execute)
open Trees.HeapOrder

variable {α : Type}

/-- Before `heap_ify` the client may change the array as it likes. -/
inductive HeapOp (α : Type) where
  | push (v : α)
  | pop
  | pushpop (rv : α)
  | ify (edit : List α → List α)

/-- Answers what is taken out of the heap. -/
def step (heap : Callbacks α) : HeapOp α → List α → Except Fault (Option α × List α)
  | .push v, data => (heapPush heap v data).map fun next => (none, next)
  | .pop, data => (heapPop heap data).map fun answer => (answer.1.2, answer.2)
  | .pushpop rv, data => (heapPushpop heap rv data).map fun answer =>
      (if answer.1.1 = 0 then some answer.1.2 else none, answer.2)
  | .ify edit, data => (heapIfy heap (edit data)).map fun next => (none, next)

/-- No element is smaller than its parent. -/
def IsHeap (heap : Callbacks α) (data : List α) : Prop := HeapFrom (Le heap) 0 data

/-- The element taken out is a least one of those that were there. -/
def Takes (heap : Callbacks α) (data : List α) (answer : Option α) : Prop :=
  match answer with
  | none => data = []
  | some a => a ∈ data ∧ ∀ b ∈ data, heap.cmp a b ≤ 0

/-- What comes in stays, what is taken out goes, and nothing else changes. -/
def Conserves : HeapOp α → List α → Option α → List α → Prop
  | .push v, data, answer, next => answer = none ∧ next.Perm (v :: data)
  | .pop, data, answer, next => (answer.toList ++ next).Perm data
  | .pushpop rv, data, answer, next => (answer.toList ++ next).Perm (rv :: data)
  | .ify edit, data, answer, next => answer = none ∧ next.Perm (edit data)

def takesOut : HeapOp α → Bool
  | .pop => true
  | .pushpop _ => true
  | _ => false

/-- Popping until the heap is empty gives its elements in order. -/
def Drains (heap : Callbacks α) (data : List α) : Prop :=
  ∃ out : List α, execute (step heap) (List.replicate data.length .pop) data = .ok (out.map some, []) ∧
    out.Perm data ∧ out.Pairwise fun a b => heap.cmp a b ≤ 0

def Upholds (heap : Callbacks α) (op : HeapOp α) (data : List α) : Prop :=
  ∃ answer next, step heap op data = .ok (answer, next) ∧ IsHeap heap next ∧ Conserves op data answer next ∧
    (takesOut op = true → Takes heap data answer) ∧ Drains heap next

/-- The array does not grow beyond the lengths whose indices fit into an `int`. -/
def Short : HeapOp α → List α → Prop
  | .push _, data => data.length < 2 ^ 30
  | .ify edit, data => (edit data).length ≤ 2 ^ 30
  | _, _ => True

variable {heap : Callbacks α} {data next : List α} {a : α}

theorem heapPush_spec (lawful : Lawful heap) (v : α) (short : data.length < 2 ^ 30) :
    ∃ next, heapPush heap v data = .ok next ∧ next.Perm (v :: data) ∧ IsHeap heap next := by
  have length : (data ++ [v]).length = data.length + 1 := List.length_append
  have perm : (data ++ [v]).Perm (v :: data) := List.perm_append_singleton v data
  rw [heapPush]
  by_cases two : 1 < (data ++ [v]).length
  · rcases siftdownLast_spec lawful (data ++ [v]) (by omega) two with ⟨next, run, perm', ordered⟩
    exact ⟨next, (if_pos two).trans run, perm'.trans perm, ordered⟩
  · exact ⟨data ++ [v], if_neg two, perm, .leaves (by omega)⟩

/-- The last index of an array that is short enough. -/
theorem lastIndex_eq (some : 0 < data.length) (short : data.length ≤ 2 ^ 30) :
    (lastIndex data some : Nat) = data.length - 1 := by
  rw [lastIndex]
  exact Nat.mod_eq_of_lt (by omega)

theorem least_mem (lawful : Lawful heap) (ordered : IsHeap heap data) (first : data[0]? = some a) :
    Takes heap data (some a) := by
  refine ⟨List.mem_of_getElem? first, fun b inside => ?_⟩
  rcases List.getElem?_of_mem inside with ⟨k, here⟩
  exact ordered.root lawful.refl lawful.trans first k here

/-- The root goes out, the last element comes to its place. -/
theorem heapPop_cons (lawful : Lawful heap) (ordered : IsHeap heap data) (short : data.length ≤ 2 ^ 30)
    (first : data[0]? = some a) :
    ∃ next, heapPop heap data = .ok ((0, some a), next) ∧ (a :: next).Perm data ∧ IsHeap heap next := by
  rcases List.getElem?_eq_some_iff.mp first with ⟨nonempty, root⟩
  have last := lastIndex_eq nonempty short
  rw [heapPop, dif_pos nonempty]
  by_cases single : lastIndex data nonempty = ⟨0, nonempty⟩
  · have one : data.length = 1 := by
      rw [single] at last
      simp only at last
      omega
    rcases List.length_eq_one_iff.mp one with ⟨b, rfl⟩
    obtain rfl : b = a := root
    refine ⟨[], ?_, .refl _, .leaves (Nat.zero_le _)⟩
    simp only [single, ne_eq, not_true, if_false]
    rfl
  · let moved := exchange heap data ⟨0, nonempty⟩ (lastIndex data nonempty)
    have two : 1 < data.length := by
      by_contra few
      exact single (Fin.ext (by simp only; omega))
    have length : moved.dropLast.length = data.length - 1 := by
      rw [List.length_dropLast, length_exchange]
    have shape : moved = (data.set 0 data[lastIndex data nonempty]).set (data.length - 1) a := by
      simp only [moved, exchange_eq lawful, last, List.get_eq_getElem, Fin.getElem_fin, root]
    have lower : HeapFrom (Le heap) 1 moved.dropLast := by
      have tail : HeapFrom (Le heap) 1 data := fun p c _ child => ordered p c (Nat.zero_le p) child
      apply tail.shrink
      intro k low b here
      have inside := (List.getElem?_eq_some_iff.mp here).1
      rw [List.getElem?_dropLast, if_pos (by rw [length_exchange]; omega), shape,
        List.getElem?_set_ne (by omega), List.getElem?_set_ne (by omega)] at here
      exact here
    rcases siftdown_spec lawful moved.dropLast 0 (by omega) (by omega) le_rfl lower.but with
      ⟨next, run, perm, ordered'⟩
    refine ⟨next, ?_, ?_, ordered'⟩
    · simp only [ne_eq, single, not_false_eq_true, if_true]
      change (siftdown heap moved.dropLast 0).map _ = _
      rw [run]
      simp only [Except.map, Fin.getElem_fin, root]
    · have there : moved.getLast? = some a := by
        rw [List.getLast?_eq_getElem?, length_exchange, shape]
        exact List.getElem?_set_self (by rw [List.length_set]; omega)
      have back : moved.dropLast ++ [a] = moved := List.dropLast_append_getLast? a there
      calc List.Perm (a :: next) (a :: moved.dropLast) := perm.cons a
        List.Perm _ (moved.dropLast ++ [a]) := (List.perm_append_singleton a _).symm
        List.Perm _ data := by
          rw [back]
          exact exchange_perm lawful _ _

/-- The root goes out, the new element comes in at the end. -/
theorem heapPushpop_cons (lawful : Lawful heap) (rv : α) (short : data.length ≤ 2 ^ 30)
    (first : data[0]? = some a) :
    ∃ next, heapPushpop heap rv data = .ok ((0, a), next) ∧ (a :: next).Perm (rv :: data) ∧ IsHeap heap next := by
  rcases List.getElem?_eq_some_iff.mp first with ⟨nonempty, root⟩
  have last := lastIndex_eq nonempty short
  rw [heapPushpop, dif_pos nonempty]
  by_cases single : lastIndex data nonempty = ⟨0, nonempty⟩
  · have one : data.length = 1 := by
      rw [single] at last
      simp only at last
      omega
    rcases List.length_eq_one_iff.mp one with ⟨b, rfl⟩
    obtain rfl : b = a := root
    refine ⟨[rv], ?_, .swap rv b [], .leaves (Nat.le_refl 1)⟩
    simp only [single, ne_eq, not_true, if_false]
    rfl
  · let moved := exchange heap data ⟨0, nonempty⟩ (lastIndex data nonempty)
    have two : 1 < data.length := by
      by_contra few
      exact single (Fin.ext (by simp only; omega))
    have inside : (lastIndex data nonempty : Nat) < moved.length := by
      rw [length_exchange]
      exact (lastIndex data nonempty).isLt
    have there : moved[(lastIndex data nonempty : Nat)] = a := by
      simp only [moved, exchange_eq lawful, List.get_eq_getElem, root, List.getElem_set_self]
    have length : (moved.set (lastIndex data nonempty) rv).length = data.length := by
      rw [List.length_set, length_exchange]
    rcases siftdownLast_spec lawful (moved.set (lastIndex data nonempty) rv) (by omega) (by omega) with
      ⟨next, run, perm, ordered⟩
    refine ⟨next, ?_, ?_, ordered⟩
    · simp only [ne_eq, single, not_false_eq_true, if_true]
      change (siftdownLast heap (moved.set (lastIndex data nonempty) rv)).map _ = _
      rw [run]
      simp only [Except.map, Fin.getElem_fin, root]
    · have entered : (moved.set (lastIndex data nonempty) rv).Perm (rv :: moved.eraseIdx (lastIndex data nonempty)) :=
        List.set_perm_cons_eraseIdx inside rv
      have left : (a :: moved.eraseIdx (lastIndex data nonempty)).Perm moved := by
        rw [← there]
        exact List.getElem_cons_eraseIdx_perm inside
      calc List.Perm (a :: next) (a :: rv :: moved.eraseIdx (lastIndex data nonempty)) := (perm.trans entered).cons a
        List.Perm _ (rv :: a :: moved.eraseIdx (lastIndex data nonempty)) := .swap ..
        List.Perm _ (rv :: data) := (left.trans (exchange_perm lawful _ _)).cons rv

/-- Each element popped is least among the elements left, so they come in order. -/
theorem drains (lawful : Lawful heap) (n : Nat) (data : List α) (length : data.length = n) (short : n ≤ 2 ^ 30)
    (ordered : IsHeap heap data) : Drains heap data := by
  induction n generalizing data with
  | zero =>
      rw [List.length_eq_zero_iff.mp length]
      exact ⟨[], rfl, .refl _, .nil⟩
  | succ n ih =>
      rcases (⟨_, List.getElem?_eq_getElem (by omega)⟩ : ∃ a, data[0]? = some a) with ⟨a, first⟩
      rcases heapPop_cons lawful ordered (by omega) first with ⟨next, run, perm, ordered'⟩
      have shorter : next.length = n := by
        have same := perm.length_eq
        rw [List.length_cons] at same
        omega
      rcases ih next shorter (by omega) ordered' with ⟨out, rest, perm', sorted⟩
      have least := (least_mem lawful ordered first).2
      refine ⟨a :: out, ?_, (perm'.cons _).trans perm, List.pairwise_cons.mpr ⟨fun b inside => ?_, sorted⟩⟩
      · rw [shorter] at rest
        rw [length, List.replicate_succ, execute, step, run]
        simp only [Except.map, rest, List.map_cons]
      · exact least b (perm.mem_iff.mp (List.mem_cons_of_mem _ (perm'.mem_iff.mp inside)))

/-- What one operation does, with all that the next ones need. -/
theorem step_spec (lawful : Lawful heap) (op : HeapOp α) (ordered : IsHeap heap data)
    (small : data.length ≤ 2 ^ 30) (short : Short op data) :
    ∃ answer next, step heap op data = .ok (answer, next) ∧ IsHeap heap next ∧ Conserves op data answer next ∧
      (takesOut op = true → Takes heap data answer) ∧ next.length ≤ 2 ^ 30 := by
  cases op with
  | push v =>
      rcases heapPush_spec lawful v short with ⟨next, run, perm, after⟩
      refine ⟨none, next, by rw [step, run]; rfl, after, ⟨rfl, perm⟩, nofun, ?_⟩
      rw [perm.length_eq, List.length_cons]
      exact short
  | pop =>
      cases first : data[0]? with
      | none =>
          obtain rfl : data = [] := List.length_eq_zero_iff.mp (Nat.le_zero.mp (List.getElem?_eq_none_iff.mp first))
          exact ⟨none, [], rfl, ordered, .refl _, fun _ => rfl, small⟩
      | some a =>
          rcases heapPop_cons lawful ordered small first with ⟨next, run, perm, after⟩
          refine ⟨some a, next, by rw [step, run]; rfl, after, perm, fun _ => least_mem lawful ordered first, ?_⟩
          have same := perm.length_eq
          rw [List.length_cons] at same
          omega
  | pushpop rv =>
      cases first : data[0]? with
      | none =>
          obtain rfl : data = [] := List.length_eq_zero_iff.mp (Nat.le_zero.mp (List.getElem?_eq_none_iff.mp first))
          exact ⟨none, [rv], rfl, .leaves (Nat.le_refl 1), .refl _, fun _ => rfl, Nat.one_le_two_pow⟩
      | some a =>
          rcases heapPushpop_cons lawful rv small first with ⟨next, run, perm, after⟩
          refine ⟨some a, next, by rw [step, run]; rfl, after, perm, fun _ => least_mem lawful ordered first, ?_⟩
          have same := perm.length_eq
          simp only [List.length_cons] at same
          omega
  | ify edit =>
      rcases heapIfy_spec lawful (edit data) short with ⟨next, run, perm, after⟩
      exact ⟨none, next, by rw [step, run]; rfl, after, ⟨rfl, perm⟩, nofun, perm.length_eq ▸ short⟩

/-- A heap is a priority queue along every run from an empty one (or from `heap_ify`
on any array) in which the array stays short enough for its indices. -/
theorem run_priorityQueue (lawful : Lawful heap) {ops : List (HeapOp α)} (short : Along (step heap) Short ops []) :
    Along (step heap) (Upholds heap) ops [] := by
  have locally : ∀ op data, IsHeap heap data ∧ data.length ≤ 2 ^ 30 → Short op data → Upholds heap op data := by
    intro op data inv fits
    rcases step_spec lawful op inv.1 inv.2 fits with ⟨answer, next, run, after, conserves, takes, small⟩
    exact ⟨answer, next, run, after, conserves, takes, drains lawful _ next rfl small after⟩
  have keeps : ∀ op data answer next, IsHeap heap data ∧ data.length ≤ 2 ^ 30 → Short op data →
      step heap op data = .ok (answer, next) → IsHeap heap next ∧ next.length ≤ 2 ^ 30 := by
    intro op data answer next inv fits stepped
    rcases step_spec lawful op inv.1 inv.2 fits with ⟨answer', next', run, after, -, -, small⟩
    rcases Prod.mk.inj (Except.ok.inj (stepped.symm.trans run)) with ⟨-, rfl⟩
    exact ⟨after, small⟩
  exact short.of_invariant locally keeps ⟨.leaves (Nat.zero_le _), Nat.zero_le _⟩

/-- Words in their order. -/
def wordHeap : Callbacks UInt64 where
  cmp a b := (if b < a then 1 else 0) - (if a < b then 1 else 0)
  swap a b := (b, a)

theorem wordHeap_lawful : Lawful wordHeap := by
  refine ⟨fun a b => ?_, fun a b c first second => ?_, fun _ _ => rfl⟩
  · simp only [wordHeap]
    split <;> split <;> omega
  · simp only [wordHeap, UInt64.lt_iff_toNat_lt] at *
    split at first <;> split at first <;> split at second <;> split at second <;> split <;> split <;> omega

theorem sampleOps_priorityQueue : Along (step wordHeap) (Upholds wordHeap)
    [.ify fun _ => [5, 3, 4], .pushpop 9, .pop] [] := by
  have short : ([5, 3, 4] : List UInt64).length ≤ 2 ^ 30 := by decide
  exact run_priorityQueue wordHeap_lawful
    ⟨short, fun _ _ _ => ⟨trivial, fun _ _ _ => ⟨trivial, fun _ _ _ => trivial⟩⟩⟩

/-- Where the index of the left child does not fit into an `int`. -/
theorem siftdown_far {i : Nat} (far : 2 ^ 31 ≤ 2 * i + 1) : siftdown heap data i = .error .overflow := by
  rw [siftdown, minChild, if_pos far]

/-- The last element is the least, and its node is too far to look for children. -/
theorem siftdown_steep (i : Nat) (near : 2 * i + 2 < 2 ^ 31) (far : 2 ^ 31 ≤ 2 * (2 * i + 2) + 1) :
    siftdown wordHeap (List.replicate (2 * i + 2) 1 ++ [0]) i = .error .overflow := by
  let data : List UInt64 := List.replicate (2 * i + 2) 1 ++ [0]
  have length : data.length = 2 * i + 3 := by
    rw [List.length_append, List.length_replicate]
    rfl
  have ones : ∀ k (inside : k < data.length), k < 2 * i + 2 → data[k] = 1 := by
    intro k inside low
    rw [List.getElem_append_left (by rwa [List.length_replicate]), List.getElem_replicate]
  have zero : ∀ inside : 2 * i + 2 < data.length, data[2 * i + 2] = 0 := by
    intro inside
    rw [List.getElem_append_right (by rw [List.length_replicate])]
    simp only [List.length_replicate, Nat.sub_self, List.getElem_cons_zero]
  have greater : 0 < wordHeap.cmp 1 0 := by decide
  have right : 2 * i + 2 < data.length := by omega
  have chosen : minChild wordHeap data i = .ok (some ⟨⟨2 * i + 2, right⟩, by simp only; omega⟩) := by
    rw [minChild, if_neg (by omega), dif_pos (by omega), if_neg (by omega), dif_pos right, if_pos]
    rw [ones _ _ (by omega), zero]
    exact greater
  change siftdown wordHeap data i = _
  rw [siftdown, chosen]
  simp only [Fin.getElem_fin, ones i (by omega) (by omega), zero, greater, if_true]
  exact siftdown_far far

theorem heapIfy_steep (i : Nat) (near : 2 * i + 2 < 2 ^ 31) (far : 2 ^ 31 ≤ 2 * (2 * i + 2) + 1) :
    heapIfy wordHeap (List.replicate (2 * i + 2) 1 ++ [0]) = .error .overflow := by
  have length : (List.replicate (2 * i + 2) (1 : UInt64) ++ [0]).length = 2 * i + 3 := by
    rw [List.length_append, List.length_replicate]
    rfl
  have start : ((toInt (2 * i + 3 : Nat)).tdiv 2 - 1 + 1).toNat = i + 1 := by
    rw [toInt_eq (by omega), Int.natCast_tdiv_eq_ediv]
    omega
  rw [heapIfy, length, start, siftdownFrom, siftdown_steep i near far]
  rfl

/-- An array of `2 ^ 30 + 1` elements. -/
def steepOps : List (HeapOp UInt64) := [.ify fun _ => List.replicate 1073741824 1 ++ [0]]

theorem steepOps_not_upheld : ¬ Along (step wordHeap) (Upholds wordHeap) steepOps [] := by
  rintro ⟨⟨answer, next, stepped, -⟩, -⟩
  have failed : heapIfy wordHeap (List.replicate 1073741824 1 ++ [0]) = .error .overflow :=
    heapIfy_steep 536870911 (by decide) (by decide)
  rw [step, failed] at stepped
  cases stepped

/-- The new element goes to the end, where it is the least. -/
theorem heapPushpop_steep (i : Nat) (near : 2 * i + 2 < 2 ^ 31) (far : 2 ^ 31 ≤ 2 * (2 * i + 2) + 1) :
    heapPushpop wordHeap 0 (List.replicate (2 * i + 3) 1) = .error .overflow := by
  have length : (List.replicate (2 * i + 3) (1 : UInt64)).length = 2 * i + 3 := List.length_replicate
  have some : 0 < (List.replicate (2 * i + 3) (1 : UInt64)).length := by omega
  have last : (lastIndex (List.replicate (2 * i + 3) (1 : UInt64)) some : Nat) = 2 * i + 2 := by
    simp only [lastIndex, length]
    exact Nat.mod_eq_of_lt (by omega)
  have other : lastIndex (List.replicate (2 * i + 3) (1 : UInt64)) some ≠ ⟨0, some⟩ := by
    intro same
    rw [same] at last
    simp only at last
    omega
  have same : exchange wordHeap (List.replicate (2 * i + 3) 1) ⟨0, some⟩ (lastIndex _ some) =
      List.replicate (2 * i + 3) 1 := by
    rw [exchange_eq wordHeap_lawful]
    simp only [List.get_eq_getElem, List.getElem_replicate, List.set_replicate_self]
  have shape : (List.replicate (2 * i + 3) (1 : UInt64)).set (2 * i + 2) 0 = List.replicate (2 * i + 2) 1 ++ [0] := by
    rw [List.replicate_succ', List.set_append_right _ _ (by rw [List.length_replicate]), List.length_replicate,
      Nat.sub_self]
    rfl
  have size : (List.replicate (2 * i + 2) (1 : UInt64) ++ [0]).length = 2 * i + 3 := by
    rw [List.length_append, List.length_replicate]
    rfl
  have start : (toInt ((2 * i + 3 - 1 - 1 : Nat) / 2 : Nat) + 1).toNat = i + 1 := by
    rw [toInt_eq (by omega)]
    omega
  rw [heapPushpop, dif_pos some]
  simp only [other, ne_eq, not_false_eq_true, if_true]
  rw [same, last, shape, siftdownLast, size, start, siftdownFrom, siftdown_steep i near far]
  rfl

/-- `heap_pushpop` does what `heap_pop` and then `heap_push` do, up to the order of the array. -/
def Fuses (heap : Callbacks α) (v : α) (data : List α) : Prop :=
  ∃ least next popped pushed, heapPushpop heap v data = .ok ((0, least), next) ∧
    heapPop heap data = .ok ((0, some least), popped) ∧ heapPush heap v popped = .ok pushed ∧
    (least ∈ data ∧ ∀ b ∈ data, heap.cmp least b ≤ 0) ∧ IsHeap heap next ∧ next.Perm pushed

theorem heapPushpop_fuses (lawful : Lawful heap) (v : α) (ordered : IsHeap heap data) (some : 0 < data.length)
    (short : data.length ≤ 2 ^ 30) : Fuses heap v data := by
  have first : data[0]? = Option.some data[0] := List.getElem?_eq_getElem some
  rcases heapPop_cons lawful ordered short first with ⟨popped, pop, perm, -⟩
  have fewer := perm.length_eq
  rw [List.length_cons] at fewer
  rcases heapPush_spec lawful v (by omega : popped.length < 2 ^ 30) with ⟨pushed, push, perm', -⟩
  rcases heapPushpop_cons lawful v short first with ⟨next, pushpop, perm'', after⟩
  refine ⟨data[0], next, popped, pushed, pushpop, pop, push, least_mem lawful ordered first, after, ?_⟩
  apply List.Perm.cons_inv (a := data[0])
  calc List.Perm (data[0] :: next) (v :: data) := perm''
    List.Perm _ (v :: data[0] :: popped) := (perm.symm).cons v
    List.Perm _ (data[0] :: v :: popped) := .swap ..
    List.Perm _ (data[0] :: pushed) := (perm'.symm).cons _

theorem pairHeap_fuses : Fuses wordHeap 4 [3, 5] := by
  have ordered : IsHeap wordHeap [3, 5] := by
    intro p c _ child a b here there
    have inside : c < 2 := (List.getElem?_eq_some_iff.mp there).1
    have below := child.lt
    obtain ⟨rfl, rfl⟩ : p = 0 ∧ c = 1 := by omega
    cases here
    cases there
    exact (by decide : wordHeap.cmp 3 5 ≤ 0)
  exact heapPushpop_fuses wordHeap_lawful 4 ordered (by decide) (by decide)

/-- A heap of equal elements. -/
theorem isHeap_replicate (n : Nat) : IsHeap wordHeap (List.replicate n 1) := by
  intro p c _ _ a b here there
  obtain rfl : a = 1 := List.eq_of_mem_replicate (List.mem_of_getElem? here)
  obtain rfl : b = 1 := List.eq_of_mem_replicate (List.mem_of_getElem? there)
  exact (by decide : wordHeap.cmp 1 1 ≤ 0)

theorem steepHeap_not_fused :
    IsHeap wordHeap (List.replicate 1073741825 1) ∧ ¬ Fuses wordHeap 0 (List.replicate 1073741825 1) := by
  refine ⟨isHeap_replicate _, ?_⟩
  rintro ⟨least, next, popped, pushed, run, -⟩
  have failed : heapPushpop wordHeap 0 (List.replicate 1073741825 1) = .error .overflow :=
    heapPushpop_steep 536870911 (by decide) (by decide)
  rw [failed] at run
  cases run

end MnCommon.Mnheap
