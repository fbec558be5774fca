import Mathlib.Algebra.Order.BigOperators.Group.List
import Mathlib.Algebra.Ring.Nat
import Mathlib.Data.Multiset.Basic
import MnCommon.Arrays.Iterators
import MnCommon.Mnheap.Search

/-! A heap as a bag of elements that hands out a least one, under all the calls of `heap.h`. -/

namespace MnCommon.Mnheap

open Arrays (Orders Qsort arraySort)
open Memory (execute visit)

variable {α S : Type}

variable (system : Qsort α) (heap : Callbacks α)

def heapSort (data : List α) : List α := (arraySort system heap.cmp data).2

/-- `fini` answers its result and what it leaves of the element. A result that is not 0 ends the loop, and
the elements stay. -/
def arrayClear (fini : α → Int × α) (data : List α) : Int × List α :=
  let (res, gone) := visit (fun gone a => ((fini a).1, gone ++ [(fini a).2])) data []
  if res = 0 then (0, []) else (res, gone ++ data.drop gone.length)

def heapCleanup (fini : α → Int × α) (data : List α) : List α := (arrayClear fini data).2

/-- NULL is no element; an index becomes an `unsigned`. -/
def arrayGet (data : List α) (idx : Nat) : Option α := data[idx % 2 ^ 32]?

def heapHead (data : List α) : Option α := arrayGet data 0

/-- `heap_traversea` is the same for a callback that does not get the heap. -/
def heapTraverse (cb : S → Option α → Int × S) (data : List α) (udata : S) : Int × S :=
  let first := cb udata (arrayGet data 0)
  if first.1 ≠ 0 then
    first
  else
    visit (fun udata i => visit (fun udata j => cb udata (arrayGet data (2 * i + j))) [1, 2] udata)
      (List.range data.length) first.2

/-- The loop counts in an `unsigned`, which is enough for fewer than `2 ^ 32` elements. -/
def heapTraverseSeq (cb : S → Option α → Int × S) (data : List α) (udata : S) : Int × S :=
  visit (fun udata a => cb udata (some a)) data udata

inductive Request (α : Type) where
  | push (v : α)
  | pop
  | pushpop (rv : α)
  | ify (data : List α)
  | sort
  | cleanup (fini : α → α)
  | head
  | len
  | get (a : α)
  | traverse

inductive Answer (α : Type) where
  | element (a : Option α)
  | number (n : Nat)
  | shown (xs : List (Option α))

/-- Before `heap_ify` the client puts its own elements into the array; the finaliser of `heap_cleanup`
answers 0. -/
def serve : Request α → List α → Except Fault (Answer α × List α)
  | .push v, data => (step heap (.push v) data).map fun r => (.element r.1, r.2)
  | .pop, data => (step heap .pop data).map fun r => (.element r.1, r.2)
  | .pushpop rv, data => (step heap (.pushpop rv) data).map fun r => (.element r.1, r.2)
  | .ify new, data => (step heap (.ify fun _ => new) data).map fun r => (.element r.1, r.2)
  | .sort, data => .ok (.element none, heapSort system heap data)
  | .cleanup fini, data => .ok (.element none, heapCleanup (fun a => (0, fini a)) data)
  | .head, data => .ok (.element (heapHead data), data)
  | .len, data => .ok (.number data.length, data)
  | .get a, data => (heapGet heap data a).map fun r => (.element r.2, data)
  | .traverse, data => .ok (.shown (heapTraverse (fun shown x => (0, shown ++ [x])) data []).2, data)

/-- An element that nothing in the bag is less than. -/
def Least (bag : Multiset α) (a : α) : Prop := a ∈ bag ∧ ∀ b ∈ bag, heap.cmp a b ≤ 0

/-- What a bag may answer, and what is in it afterwards. -/
def Serves : Request α → Multiset α → Answer α → Multiset α → Prop
  | .push v, bag, answer, next => answer = .element none ∧ next = v ::ₘ bag
  | .pop, bag, answer, next =>
      (bag = 0 ∧ answer = .element none ∧ next = 0) ∨
        ∃ a, Least heap bag a ∧ answer = .element (some a) ∧ a ::ₘ next = bag
  | .pushpop rv, bag, answer, next =>
      (bag = 0 ∧ answer = .element none ∧ next = {rv}) ∨
        ∃ a, Least heap bag a ∧ answer = .element (some a) ∧ a ::ₘ next = rv ::ₘ bag
  | .ify new, _, answer, next => answer = .element none ∧ next = new
  | .sort, bag, answer, next => answer = .element none ∧ next = bag
  | .cleanup _, _, answer, next => answer = .element none ∧ next = 0
  | .head, bag, answer, next =>
      next = bag ∧ ((bag = 0 ∧ answer = .element none) ∨ ∃ a, Least heap bag a ∧ answer = .element (some a))
  | .len, bag, answer, next => next = bag ∧ answer = .number bag.card
  | .get a, bag, answer, next =>
      next = bag ∧ ((∃ b ∈ bag, answer = .element (some b) ∧ heap.cmp a b = 0) ∨
        (answer = .element none ∧ ∀ b ∈ bag, heap.cmp a b ≠ 0))
  | .traverse, bag, answer, next =>
      next = bag ∧ ∃ xs : List α, (xs : Multiset α) = bag ∧
        answer = .shown (xs.map some ++ List.replicate (xs.length + 1) none)

/-- The answers to some requests in turn. -/
inductive ServesAll : List (Request α) → Multiset α → List (Answer α) → Multiset α → Prop
  | nil {bag : Multiset α} : ServesAll [] bag [] bag
  | cons {request : Request α} {requests : List (Request α)} {answer : Answer α} {answers : List (Answer α)}
      {bag mid final : Multiset α} (first : Serves heap request bag answer mid)
      (rest : ServesAll requests mid answers final) : ServesAll (request :: requests) bag (answer :: answers) final

/-- How many elements a request may bring in. -/
def Request.weight : Request α → Nat
  | .push _ => 1
  | .pushpop _ => 1
  | .ify new => new.length
  | _ => 0

variable {system heap} {data next : List α} {a : α}

theorem total_of_lawful (lawful : Lawful heap) : Total heap := ⟨lawful.flip, lawful.trans⟩

theorem orders_of_lawful (lawful : Lawful heap) : Orders heap.cmp := ⟨lawful.flip, lawful.trans⟩

/-- What is in order is a heap. -/
theorem isHeap_of_pairwise (ordered : data.Pairwise (Le heap)) : IsHeap heap data := by
  intro p c _ child a b here there
  rcases List.getElem?_eq_some_iff.mp here with ⟨inside, rfl⟩
  rcases List.getElem?_eq_some_iff.mp there with ⟨inside', rfl⟩
  exact List.pairwise_iff_getElem.mp ordered p c inside inside' child.lt

theorem heapSort_isHeap (lawful : Lawful heap) (data : List α) : IsHeap heap (heapSort system heap data) :=
  isHeap_of_pairwise (Arrays.arraySort_ordered system (orders_of_lawful lawful) data)

theorem heapCleanup_eq (fini : α → α) (data : List α) : heapCleanup (fun a => (0, fini a)) data = [] := by
  rw [heapCleanup, arrayClear, Memory.visit_fold fun gone a => gone ++ [fini a]]
  rfl

/-- The indices of the children of all nodes, the root in front. -/
theorem range_children (n : Nat) : List.range (2 * n + 1) = 0 :: (List.range n).flatMap fun i => [1, 2].map (2 * i + ·) := by
  induction n with
  | zero => rfl
  | succ n ih =>
      calc List.range (2 * (n + 1) + 1) = List.range (2 * n + 1) ++ [2 * n + 1, 2 * n + 2] := by
            rw [show 2 * (n + 1) + 1 = 2 * n + 1 + 1 + 1 by omega, List.range_succ, List.range_succ, List.append_assoc]
            rfl
        _ = 0 :: (List.range (n + 1)).flatMap fun i => [1, 2].map (2 * i + ·) := by
            rw [ih, List.range_succ, List.flatMap_append]
            rfl

/-- Whatever the length, the callback is shown what `array_get` has at the numbers up to twice of it. -/
theorem heapTraverse_eq (cb : S → Option α → Int × S) (data : List α) (udata : S) :
    heapTraverse cb data udata =
      visit cb ((List.range (2 * data.length + 1)).map (arrayGet data)) udata := by
  have inner (i : Nat) (udata : S) : visit (fun udata j => cb udata (arrayGet data (2 * i + j))) [1, 2] udata =
      visit (fun udata k => cb udata (arrayGet data k)) ([1, 2].map (2 * i + ·)) udata := by
    rw [Memory.visit_map]
  rw [Memory.visit_map, range_children, visit, Memory.visit_flatMap, heapTraverse]
  simp only [inner]

theorem shown_eq (short : 2 * data.length < 2 ^ 32) :
    (List.range (2 * data.length + 1)).map (arrayGet data) =
      data.map some ++ List.replicate (data.length + 1) none := by
  apply List.ext_getElem?
  intro k
  rw [List.getElem?_map]
  by_cases inside : k < 2 * data.length + 1
  · rw [List.getElem?_range inside, Option.map_some, arrayGet, Nat.mod_eq_of_lt (by omega)]
    by_cases element : k < data.length
    · rw [List.getElem?_append_left (by rwa [List.length_map]), List.getElem?_map, List.getElem?_eq_getElem element]
      rfl
    · rw [List.getElem?_append_right (by rw [List.length_map]; omega), List.length_map,
        List.getElem?_replicate_of_lt (by omega), List.getElem?_eq_none (by omega)]
  · rw [List.getElem?_eq_none (by rw [List.length_range]; omega), Option.map_none, eq_comm]
    apply List.getElem?_eq_none
    rw [List.length_append, List.length_map, List.length_replicate]
    omega

theorem recorded_eq (xs : List (Option α)) (shown : List (Option α)) :
    (visit (fun shown x => (0, shown ++ [x])) xs shown).2 = shown ++ xs := by
  rw [Memory.visit_fold fun shown x => shown ++ [x]]
  induction xs generalizing shown with
  | nil => rw [List.foldl_nil, List.append_nil]
  | cons x rest ih => rw [List.foldl_cons, ih, List.append_assoc, List.singleton_append]

/-- A callback that does nothing for NULL is shown the same by both. -/
theorem heapTraverse_seq (cb : S → Option α → Int × S) (ignores : ∀ udata, cb udata none = (0, udata))
    (short : 2 * data.length < 2 ^ 32) (udata : S) : heapTraverse cb data udata = heapTraverseSeq cb data udata := by
  rw [heapTraverse_eq, shown_eq short, Memory.visit_append_ignored, Memory.visit_map, heapTraverseSeq]
  intro udata x inside
  rw [List.eq_of_mem_replicate inside]
  exact ignores udata

/-- From `2 ^ 31` elements on the last index comes out as that of an element. -/
theorem arrayGet_last (long : 2 ^ 32 ≤ 2 * data.length) : arrayGet data (2 * data.length) ≠ none := by
  rw [arrayGet, ne_eq, List.getElem?_eq_none_iff]
  omega

/-- All the elements and then a NULL for each child that is not there, from the smallest array to the largest for
which that is so. -/
theorem heapTraverse_shows_iff (data : List α) :
    (∀ (S : Type) (cb : S → Option α → Int × S) (udata : S), heapTraverse cb data udata =
      visit cb (data.map some ++ List.replicate (data.length + 1) none) udata) ↔ 2 * data.length < 2 ^ 32 := by
  constructor
  · intro shows
    by_contra long
    have same := congrArg Prod.snd (shows (List (Option α)) (fun shown x => (0, shown ++ [x])) [])
    rw [heapTraverse_eq, recorded_eq, recorded_eq, List.nil_append, List.nil_append] at same
    have last := congrArg List.getLast? same
    rw [List.range_succ, List.map_append, List.replicate_succ', ← List.append_assoc, List.map_singleton,
      List.getLast?_concat, List.getLast?_concat, Option.some.injEq] at last
    exact arrayGet_last (by omega) last
  · intro short S cb udata
    rw [heapTraverse_eq, shown_eq short]

/-- What one request does, with all that the next ones need. -/
structure Served (system : Qsort α) (heap : Callbacks α) (request : Request α) (data : List α) (answer : Answer α)
    (next : List α) : Prop where
  run : serve system heap request data = .ok (answer, next)
  ordered : IsHeap heap next
  serves : Serves heap request data answer next
  length : next.length ≤ data.length + request.weight

theorem root_or_empty (data : List α) : data = [] ∨ ∃ a, data[0]? = some a := by
  cases data with
  | nil => exact .inl rfl
  | cons a rest => exact .inr ⟨a, rfl⟩

theorem least_of_root (lawful : Lawful heap) (ordered : IsHeap heap data) (first : data[0]? = some a) :
    Least heap data a := least_mem lawful ordered first

theorem pop_served (lawful : Lawful heap) (ordered : IsHeap heap data) (short : data.length < 2 ^ 30) :
    ∃ answer next, Served system heap .pop data answer next := by
  rcases root_or_empty data with rfl | ⟨a, first⟩
  · exact ⟨.element none, [], rfl, ordered, .inl ⟨rfl, rfl, rfl⟩, Nat.zero_le _⟩
  · rcases heapPop_cons lawful ordered short.le first with ⟨next, run, perm, after⟩
    refine ⟨.element (some a), next, by rw [serve, step, run]; rfl, after, .inr ⟨a, ?_, rfl, ?_⟩, ?_⟩
    · exact least_of_root lawful ordered first
    · exact Multiset.coe_eq_coe.mpr perm
    · have same := perm.length_eq
      rw [List.length_cons] at same
      exact (Nat.le_succ _).trans (same.le.trans (Nat.le_add_right _ _))

theorem pushpop_served (lawful : Lawful heap) (ordered : IsHeap heap data) (short : data.length < 2 ^ 30) (rv : α) :
    ∃ answer next, Served system heap (.pushpop rv) data answer next := by
  rcases root_or_empty data with rfl | ⟨a, first⟩
  · exact ⟨.element none, [rv], rfl, .leaves (Nat.le_refl 1), .inl ⟨rfl, rfl, rfl⟩, Nat.le_refl 1⟩
  · rcases heapPushpop_cons lawful rv short.le first with ⟨next, run, perm, after⟩
    refine ⟨.element (some a), next, by rw [serve, step, run]; rfl, after, .inr ⟨a, ?_, rfl, ?_⟩, ?_⟩
    · exact least_of_root lawful ordered first
    · exact Multiset.coe_eq_coe.mpr perm
    · have same := perm.length_eq
      simp only [List.length_cons, Nat.add_right_cancel_iff] at same
      exact same.le.trans (Nat.le_add_right _ _)

theorem serve_served (lawful : Lawful heap) (request : Request α) (ordered : IsHeap heap data)
    (room : data.length + request.weight < 2 ^ 30) : ∃ answer next, Served system heap request data answer next := by
  have short : data.length < 2 ^ 30 := Nat.lt_of_le_of_lt (Nat.le_add_right _ _) room
  cases request with
  | push v =>
      rcases heapPush_spec lawful v short with ⟨next, run, perm, after⟩
      exact ⟨.element none, next, by rw [serve, step, run]; rfl, after, ⟨rfl, Multiset.coe_eq_coe.mpr perm⟩,
        perm.length_eq.le⟩
  | pop => exact pop_served lawful ordered short
  | pushpop rv => exact pushpop_served lawful ordered short rv
  | ify new =>
      have fits : new.length ≤ 2 ^ 30 := (Nat.lt_of_le_of_lt (Nat.le_add_left _ _) room).le
      rcases heapIfy_spec lawful new fits with ⟨next, run, perm, after⟩
      exact ⟨.element none, next, by rw [serve, step, run]; rfl, after, ⟨rfl, Multiset.coe_eq_coe.mpr perm⟩,
        perm.length_eq.le.trans (Nat.le_add_left _ _)⟩
  | sort =>
      have perm : (heapSort system heap data).Perm data := Arrays.arraySort_perm system heap.cmp data
      exact ⟨.element none, _, rfl, heapSort_isHeap lawful data, ⟨rfl, Multiset.coe_eq_coe.mpr perm⟩, perm.length_eq.le⟩
  | cleanup fini =>
      refine ⟨.element none, [], ?_, .leaves (Nat.zero_le _), ⟨rfl, rfl⟩, Nat.zero_le _⟩
      rw [serve, heapCleanup_eq]
  | head =>
      refine ⟨.element (heapHead data), data, rfl, ordered, ⟨rfl, ?_⟩, Nat.le_refl _⟩
      rcases root_or_empty data with rfl | ⟨a, first⟩
      · exact .inl ⟨rfl, rfl⟩
      · exact .inr ⟨a, least_of_root lawful ordered first, congrArg Answer.element first⟩
  | len => exact ⟨.number data.length, data, rfl, ordered, ⟨rfl, rfl⟩, Nat.le_refl _⟩
  | get a =>
      rcases heapGet_finds (total_of_lawful lawful) ordered short a with ⟨b, inside, run, equal⟩ | ⟨run, different⟩
      · exact ⟨.element (some b), data, by rw [serve, run]; rfl, ordered, ⟨rfl, .inl ⟨b, inside, rfl, equal⟩⟩,
          Nat.le_refl _⟩
      · exact ⟨.element none, data, by rw [serve, run]; rfl, ordered, ⟨rfl, .inr ⟨rfl, different⟩⟩, Nat.le_refl _⟩
  | traverse =>
      refine ⟨_, data, rfl, ordered, ⟨rfl, data, rfl, ?_⟩, Nat.le_refl _⟩
      rw [heapTraverse_eq, recorded_eq, List.nil_append, shown_eq (by omega)]

theorem serve_all (lawful : Lawful heap) (requests : List (Request α)) (ordered : IsHeap heap data)
    (room : data.length + (requests.map Request.weight).sum < 2 ^ 30) :
    ∃ answers final, execute (serve system heap) requests data = .ok (answers, final) ∧ IsHeap heap final ∧
      ServesAll heap requests data answers final := by
  induction requests generalizing data with
  | nil => exact ⟨[], data, rfl, ordered, .nil⟩
  | cons request requests ih =>
      rw [List.map_cons, List.sum_cons, ← Nat.add_assoc] at room
      have fits : data.length + request.weight < 2 ^ 30 := Nat.lt_of_le_of_lt (Nat.le_add_right _ _) room
      have here : ∃ answer next, Served system heap request data answer next := serve_served lawful request ordered fits
      rcases here with ⟨answer, next, served⟩
      have later := served.length
      rcases ih served.ordered (by omega) with ⟨answers, final, run, after, rest⟩
      exact ⟨answer :: answers, final, Memory.execute_step served.run run, after, .cons served.serves rest⟩

/-- From an empty heap on every request is answered as a bag would answer it, as long as fewer than
`2 ^ 30` elements come in. -/
theorem run_bag (lawful : Lawful heap) (requests : List (Request α))
    (room : (requests.map Request.weight).sum < 2 ^ 30) :
    ∃ answers final, execute (serve system heap) requests [] = .ok (answers, final) ∧ IsHeap heap final ∧
      ServesAll heap requests 0 answers final :=
  serve_all lawful requests (.leaves (Nat.zero_le _)) (by rwa [List.length_nil, Nat.zero_add])

def sampleRequests : List (Request UInt64) :=
  [.ify [5, 3, 4], .sort, .push 1, .get 4, .traverse, .pushpop 9, .head, .pop, .len, .cleanup id, .pop]

theorem sampleRequests_bag :
    ∃ answers final, execute (serve (Qsort.merging UInt64) wordHeap) sampleRequests [] = .ok (answers, final) ∧
      IsHeap wordHeap final ∧ ServesAll wordHeap sampleRequests 0 answers final :=
  run_bag wordHeap_lawful sampleRequests (by decide)

end MnCommon.Mnheap
