import Mathlib.Algebra.Group.Nat.Defs
import Mathlib.Data.List.Basic

/-! The heaps of `heap.c`, with two children to a node. The indices are of type `int`
there, and lengths are turned into one; an index that does not fit is a fault. -/

namespace MnCommon.Mnheap

variable {α : Type}

inductive Fault where
  | overflow
  deriving DecidableEq, Repr

/-- The callbacks of a heap. `swap` answers what its arguments hold afterwards. -/
structure Callbacks (α : Type) where
  cmp : α → α → Int
  swap : α → α → α × α

/-- A `size_t` as an `int`. -/
def toInt (n : Nat) : Int := (n : Int).bmod (2 ^ 32)

def exchange (heap : Callbacks α) (data : List α) (i j : Fin data.length) : List α :=
  (data.set i (heap.swap data[i] data[j]).1).set j (heap.swap data[i] data[j]).2

@[simp]
theorem length_exchange (heap : Callbacks α) (data : List α) (i j : Fin data.length) :
    (exchange heap data i j).length = data.length := by
  rw [exchange, List.length_set, List.length_set]

/-- `minj` of the source, if there is a child. -/
def minChild (heap : Callbacks α) (data : List α) (i : Nat) :
    Except Fault (Option { j : Fin data.length // i < j }) :=
  if 2 ^ 31 ≤ 2 * i + 1 then
    .error .overflow
  else if left : 2 * i + 1 < data.length then
    if 2 ^ 31 ≤ 2 * i + 2 then
      .error .overflow
    else if right : 2 * i + 2 < data.length then
      if 0 < heap.cmp data[2 * i + 1] data[2 * i + 2] then
        .ok (some ⟨⟨2 * i + 2, right⟩, by simp only; omega⟩)
      else
        .ok (some ⟨⟨2 * i + 1, left⟩, by simp only; omega⟩)
    else
      .ok (some ⟨⟨2 * i + 1, left⟩, by simp only; omega⟩)
  else
    .ok none

/-- No caller looks at the result of the source, whether anything was moved. -/
def siftdown (heap : Callbacks α) (data : List α) (i : Nat) : Except Fault (List α) :=
  match minChild heap data i with
  | .error fault => .error fault
  | .ok none => .ok data
  | .ok (some ⟨j, below⟩) =>
      let here : Fin data.length := ⟨i, Nat.lt_trans below j.isLt⟩
      if 0 < heap.cmp data[here] data[j] then
        siftdown heap (exchange heap data here j) j
      else
        .ok data
termination_by data.length - i
decreasing_by
  rw [length_exchange]
  omega

/-- The loops that sift down at `n - 1` and on to the root. -/
def siftdownFrom (heap : Callbacks α) : Nat → List α → Except Fault (List α)
  | 0, data => .ok data
  | n + 1, data => siftdown heap data n >>= siftdownFrom heap n

def heapIfy (heap : Callbacks α) (data : List α) : Except Fault (List α) :=
  siftdownFrom heap ((toInt data.length).tdiv 2 - 1 + 1).toNat data

/-- The loop of `heap_push` and `heap_pushpop`, from the parent of the last element on. -/
def siftdownLast (heap : Callbacks α) (data : List α) : Except Fault (List α) :=
  siftdownFrom heap (toInt ((data.length - 1 - 1) / 2) + 1).toNat data

def heapPush (heap : Callbacks α) (v : α) (data : List α) : Except Fault (List α) :=
  let data := data ++ [v]
  if 1 < data.length then siftdownLast heap data else .ok data

/-- `array_get(&heap->data, heap->data.elnum - 1)`, whose index is an `unsigned`. -/
def lastIndex (data : List α) (some : 0 < data.length) : Fin data.length :=
  ⟨(data.length - 1) % 2 ^ 32, Nat.lt_of_le_of_lt (Nat.mod_le _ _) (Nat.sub_lt some Nat.one_pos)⟩

/-- Answers `res` and `*rv`, which an empty heap leaves as it is. -/
def heapPop (heap : Callbacks α) (data : List α) : Except Fault ((Int × Option α) × List α) :=
  if some : 0 < data.length then
    let first : Fin data.length := ⟨0, some⟩
    let last := lastIndex data some
    if last ≠ first then
      (siftdown heap (exchange heap data first last).dropLast 0).map fun next => ((0, data[first]), next)
    else
      .ok ((0, data[first]), data.dropLast)
  else
    .ok ((-1, none), data)

def heapPushpop (heap : Callbacks α) (rv : α) (data : List α) : Except Fault ((Int × α) × List α) :=
  if some : 0 < data.length then
    let first : Fin data.length := ⟨0, some⟩
    let last := lastIndex data some
    if last ≠ first then
      (siftdownLast heap ((exchange heap data first last).set last rv)).map fun next => ((0, data[first]), next)
    else
      .ok ((0, data[first]), data.set last rv)
  else
    (heapPush heap rv data).map fun next => ((-1, rv), next)

end MnCommon.Mnheap
