import MnCommon.Mnheap.Queue

/-! Looking for an element in a heap. -/

namespace MnCommon.Mnheap

open Trees.HeapOrder

variable {α : Type}

/-- One pass of the loop of `heap_get_at`, over the child at `j`: the value of `b`, and whether
the loop breaks. `deeper` is the search at the child. -/
def tryChild (heap : Callbacks α) (data : List α) (a : α) (j : Nat)
    (deeper : j < data.length → Except Fault (Option α)) : Except Fault (Option α × Bool) :=
  if 2 ^ 31 ≤ j then
    .error .overflow
  else if there : j < data.length then
    let diff := heap.cmp a data[j]
    if diff = 0 then
      .ok (some data[j], true)
    else if 0 < diff then
      (deeper there).map fun b => (b, b.isSome)
    else
      .ok (some data[j], false)
  else
    .ok (none, false)

/-- A pointer into the array is modelled as the element that it points to. -/
def heapGetAt (heap : Callbacks α) (data : List α) (a : α) (i : Nat) : Except Fault (Option α) := do
  let (b, found) ← tryChild heap data a (2 * i + 1) fun _ => heapGetAt heap data a (2 * i + 1)
  let (b, _) ← if found then pure (b, found) else
    tryChild heap data a (2 * i + 2) fun _ => heapGetAt heap data a (2 * i + 2)
  pure (b.filter fun b => heap.cmp a b = 0)
termination_by data.length - i

/-- Answers `res` and `*rv`, which is left as it is where nothing is found. -/
def heapGet (heap : Callbacks α) (data : List α) (a : α) : Except Fault (Int × Option α) :=
  if first : 0 < data.length then
    let diff := heap.cmp a data[0]
    if diff = 0 then
      .ok (0, some data[0])
    else if diff < 0 then
      .ok (-1, none)
    else
      (heapGetAt heap data a 0).map fun b => if b.isNone then (-1, none) else (0, b)
  else
    .ok (-1, none)

/-- `cmp` is a total preorder. -/
structure Total (heap : Callbacks α) : Prop where
  flip : ∀ a b, 0 < heap.cmp a b ↔ heap.cmp b a < 0
  trans : ∀ a b c, heap.cmp a b ≤ 0 → heap.cmp b c ≤ 0 → heap.cmp a c ≤ 0

/-- An element that compares equal to `a`, or none if there is none at the nodes. -/
def Sought (heap : Callbacks α) (data : List α) (a : α) (nodes : Nat → Prop) : Option α → Prop
  | some b => b ∈ data ∧ heap.cmp a b = 0
  | none => ∀ k b, nodes k → data[k]? = some b → heap.cmp a b ≠ 0

variable {heap : Callbacks α} {data : List α} {a b : α} {i j : Nat}
  {deeper : j < data.length → Except Fault (Option α)}

theorem Total.refl (total : Total heap) (a : α) : Le heap a a := by
  have flip := total.flip a a
  unfold Le
  omega

/-- What is smaller than a node is equal to nothing below it. -/
theorem Total.pruned (total : Total heap) (ordered : IsHeap heap data) (inside : j < data.length)
    (smaller : heap.cmp a data[j] < 0) {k : Nat} (below : Below j k) (there : data[k]? = some b) :
    heap.cmp a b ≠ 0 := by
  have first : data[j]? = some data[j] := List.getElem?_eq_getElem inside
  have behind : Le heap data[j] b := ordered.below total.refl total.trans (Nat.zero_le j) below first there
  intro equal
  have back : heap.cmp b a ≤ 0 := by
    have flip := total.flip b a
    omega
  have front := total.trans _ _ _ behind back
  have flip := total.flip data[j] a
  omega

theorem tryChild_spec (total : Total heap) (ordered : IsHeap heap data) (fits : j < 2 ^ 31)
    (deep : ∀ there, ∃ b, deeper there = .ok b ∧ Sought heap data a (fun k => ∃ c, Child j c ∧ Below c k) b) :
    ∃ b found, tryChild heap data a j deeper = .ok (b, found) ∧
      (found = true → ∃ c ∈ data, b = some c ∧ heap.cmp a c = 0) ∧
      (found = false → (∀ c, b = some c → heap.cmp a c ≠ 0) ∧
        ∀ k c, Below j k → data[k]? = some c → heap.cmp a c ≠ 0) := by
  rw [tryChild, if_neg (Nat.not_le.mpr fits)]
  by_cases there : j < data.length
  · have here : data[j]? = some data[j] := List.getElem?_eq_getElem there
    rw [dif_pos there]
    simp only
    by_cases equal : heap.cmp a data[j] = 0
    · refine ⟨_, _, if_pos equal, fun _ => ⟨data[j], List.getElem_mem there, rfl, equal⟩, nofun⟩
    · rw [if_neg equal]
      by_cases greater : 0 < heap.cmp a data[j]
      · rw [if_pos greater]
        rcases deep there with ⟨b, run, sought⟩
        refine ⟨b, b.isSome, by rw [run]; rfl, ?_, ?_⟩
        · intro found
          rcases Option.isSome_iff_exists.mp found with ⟨c, rfl⟩
          exact ⟨c, sought.1, rfl, sought.2⟩
        · intro missed
          obtain rfl : b = none := Option.not_isSome_iff_eq_none.mp (Bool.not_eq_true _ ▸ missed)
          refine ⟨nofun, fun k c below there' => ?_⟩
          rcases below.cases_head with rfl | ⟨d, child, further⟩
          · obtain rfl := Option.some.inj (here.symm.trans there')
            exact equal
          · exact sought k c ⟨d, child, further⟩ there'
      · have smaller : heap.cmp a data[j] < 0 := by omega
        refine ⟨_, _, if_neg greater, nofun, fun _ => ⟨fun c same => ?_, fun k c below there' => ?_⟩⟩
        · obtain rfl := Option.some.inj same
          exact equal
        · exact total.pruned ordered there smaller below there'
  · refine ⟨none, false, dif_neg there, nofun, fun _ => ⟨nofun, fun k c below there' => ?_⟩⟩
    have inside := (List.getElem?_eq_some_iff.mp there').1
    have onward := below.index_le
    omega

/-- The search below the node `i`. -/
theorem heapGetAt_spec (total : Total heap) (ordered : IsHeap heap data) (short : data.length < 2 ^ 30)
    (i : Nat) (inside : i < data.length) :
    ∃ b, heapGetAt heap data a i = .ok b ∧ Sought heap data a (fun k => ∃ c, Child i c ∧ Below c k) b := by
  have left := tryChild_spec total ordered (by omega) fun there => heapGetAt_spec total ordered short (2 * i + 1) there
  have right := tryChild_spec total ordered (by omega) fun there => heapGetAt_spec total ordered short (2 * i + 2) there
  rcases left with ⟨b, found, run, hit, miss⟩
  rw [heapGetAt, run]
  simp only [bind, Except.bind]
  cases found with
  | true =>
      rcases hit rfl with ⟨c, member, rfl, equal⟩
      refine ⟨some c, ?_, member, equal⟩
      simp [pure, Except.pure, equal]
  | false =>
      rcases right with ⟨b', found', run', hit', miss'⟩
      rw [if_neg Bool.false_ne_true, run']
      simp only [pure, Except.pure]
      cases found' with
      | true =>
          rcases hit' rfl with ⟨c, member, rfl, equal⟩
          refine ⟨some c, ?_, member, equal⟩
          simp [equal]
      | false =>
          refine ⟨none, ?_, ?_⟩
          · cases b' with
            | none => rfl
            | some c => simp [(miss' rfl).1 c rfl]
          · rintro k d ⟨c, rfl | rfl, below⟩ there
            · exact (miss rfl).2 k d below there
            · exact (miss' rfl).2 k d below there
termination_by data.length - i

/-- An element that compares equal to the probe, or no such element is in the heap. -/
def Finds (heap : Callbacks α) (data : List α) (a : α) : Prop :=
  (∃ b ∈ data, heapGet heap data a = .ok (0, some b) ∧ heap.cmp a b = 0) ∨
    (heapGet heap data a = .ok (-1, none) ∧ ∀ b ∈ data, heap.cmp a b ≠ 0)

theorem heapGet_finds (total : Total heap) (ordered : IsHeap heap data) (short : data.length < 2 ^ 30) (a : α) :
    Finds heap data a := by
  rw [Finds, heapGet]
  by_cases first : 0 < data.length
  · have root : data[0]? = some data[0] := List.getElem?_eq_getElem first
    rw [dif_pos first]
    simp only
    by_cases equal : heap.cmp a data[0] = 0
    · exact .inl ⟨data[0], List.getElem_mem first, if_pos equal, equal⟩
    · rw [if_neg equal]
      by_cases smaller : heap.cmp a data[0] < 0
      · refine .inr ⟨if_pos smaller, fun b member => ?_⟩
        rcases List.getElem?_of_mem member with ⟨k, there⟩
        exact total.pruned ordered first smaller (below_zero k) there
      · rw [if_neg smaller]
        rcases heapGetAt_spec total ordered short 0 first (a := a) with ⟨b, run, sought⟩
        rw [run]
        cases b with
        | some b => exact .inl ⟨b, sought.1, rfl, sought.2⟩
        | none =>
            refine .inr ⟨rfl, fun b member => ?_⟩
            rcases List.getElem?_of_mem member with ⟨k, there⟩
            rcases (below_zero k).cases_head with rfl | below
            · obtain rfl := Option.some.inj (root.symm.trans there)
              exact equal
            · exact sought k b below there
  · obtain rfl : data = [] := List.length_eq_zero_iff.mp (by omega)
    exact .inr ⟨rfl, fun _ => nofun⟩

theorem wordHeap_total : Total wordHeap := ⟨wordHeap_lawful.flip, wordHeap_lawful.trans⟩

theorem sampleHeap_finds : Finds wordHeap [1, 3, 2] 2 := by
  apply heapGet_finds wordHeap_total _ (by decide)
  intro p c _ child a b here there
  have inside : c < 3 := (List.getElem?_eq_some_iff.mp there).1
  have below := child.lt
  obtain rfl : p = 0 := by
    unfold Child at child
    omega
  obtain rfl : a = 1 := (Option.some.inj here).symm
  rcases child with rfl | rfl
  · obtain rfl : b = 3 := (Option.some.inj there).symm
    exact (by decide : wordHeap.cmp 1 3 ≤ 0)
  · obtain rfl : b = 2 := (Option.some.inj there).symm
    exact (by decide : wordHeap.cmp 1 2 ≤ 0)

/-- The search goes down along the left children, as far as the last of them. -/
theorem heapGetAt_deep {size n i : Nat} (path : (i + 1) * 2 ^ n = size) (exactly : size = 2 ^ 30) :
    heapGetAt wordHeap (List.replicate size 1) 2 i = .error .overflow := by
  have length : (List.replicate size (1 : UInt64)).length = size := List.length_replicate
  induction n generalizing i with
  | zero =>
      have leaf : i + 1 = size := by rwa [Nat.pow_zero, Nat.mul_one] at path
      have left : tryChild wordHeap (List.replicate size 1) 2 (2 * i + 1)
          (fun _ => heapGetAt wordHeap (List.replicate size 1) 2 (2 * i + 1)) = .ok (none, false) := by
        rw [tryChild, if_neg (by omega), dif_neg (by omega)]
      rw [heapGetAt, left]
      simp only [bind, Except.bind, Bool.false_eq_true, if_false]
      rw [tryChild, if_pos (by omega)]
  | succ n ih =>
      have path' : (2 * i + 1 + 1) * 2 ^ n = size := by
        have twice : 2 * i + 1 + 1 = (i + 1) * 2 := by omega
        rw [twice, Nat.mul_assoc, ← Nat.pow_succ', path]
      have low : 2 * i + 1 < size := by
        rw [← path']
        exact Nat.le_mul_of_pos_right _ (Nat.two_pow_pos n)
      rw [heapGetAt, tryChild, if_neg (by omega), dif_pos (by omega)]
      simp only [List.getElem_replicate, ih path']
      rfl

/-- In a heap of `2 ^ 30` ones there is no two. -/
theorem deepHeap_not_found : IsHeap wordHeap (List.replicate 1073741824 1) ∧
    ¬ Finds wordHeap (List.replicate 1073741824 1) 2 := by
  constructor
  · exact isHeap_replicate _
  · have root : heapGet wordHeap (List.replicate 1073741824 1) 2 = .error .overflow := by
      have deep : heapGetAt wordHeap (List.replicate 1073741824 1) 2 0 = .error .overflow :=
        heapGetAt_deep (by decide : (0 + 1) * 2 ^ 30 = 1073741824) (by decide)
      have first : 0 < (List.replicate 1073741824 (1 : UInt64)).length := by
        rw [List.length_replicate]
        decide
      rw [heapGet, dif_pos first]
      simp only [List.getElem_replicate, deep]
      rfl
    rintro (⟨b, -, run, -⟩ | ⟨run, -⟩)
    · rw [root] at run
      cases run
    · rw [root] at run
      cases run

end MnCommon.Mnheap
