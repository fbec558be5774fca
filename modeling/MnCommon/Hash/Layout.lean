import Mathlib.Data.List.Perm.Basic
import Mathlib.Logic.Function.Basic
import MnCommon.Memory.Segment
import MnCommon.Hash.Model

/-! How a hash table lies in memory: one chain of items on each slot. -/

namespace MnCommon.Hash

open Memory

variable {K V : Type}

def links : Links (MnHashItem K V) := ⟨MnHashItem.prev, MnHashItem.next⟩

def pairOf (n : MnHashItem K V) : K × V := (n.key, n.value)

/-- An item: where it lies, its key and its value. -/
abbrev Entry (K V : Type) := Addr × (K × V)

abbrev Chains (K V : Type) := Nat → List (Entry K V)

/-- The index of the slot of a key. -/
def place (cb : Callbacks K V) (size : Nat) (key : K) : Nat := (cb.hashfn key).toNat % size % 2 ^ 32

/-- The table with its chains. Where `good` holds the first item of the chain has no
`prev` and its `bucket` points at the slot. -/
structure Holds (cb : Callbacks K V) (s : HashStore K V) (chains : Chains K V) (good : Nat → Prop) : Prop where
  nonempty : 0 < s.vars.table.length
  slot : ∀ i < s.vars.table.length, ∃ head, s.vars.table[i]? = some head ∧
    links.Segment pairOf s.heap (good i) none head (chains i)
  bucket : ∀ i < s.vars.table.length, good i → ∀ x ∈ (chains i).head?,
    ∃ n, s.heap.lookup x.1 = some n ∧ n.bucket = some (s.vars.data, i)
  placed : ∀ i < s.vars.table.length, ∀ x ∈ chains i, place cb s.vars.table.length x.2.1 = i
  once : ∀ i < s.vars.table.length, ((chains i).map Prod.fst).Nodup
  apart : ∀ i < s.vars.table.length, ∀ j < s.vars.table.length, i ≠ j →
    ∀ x ∈ chains i, ∀ y ∈ chains j, x.1 ≠ y.1

/-- All items, slot by slot. -/
def allOf (size : Nat) (chains : Chains K V) : List (Entry K V) := (List.range size).flatMap chains

variable {cb : Callbacks K V} {s next : HashStore K V} {chains : Chains K V} {good : Nat → Prop} {i size : Nat}
  {xs : List (Entry K V)} {x : Entry K V} {a : Addr} {key : K}

theorem place_lt (cb : Callbacks K V) (positive : 0 < size) (key : K) : place cb size key < size :=
  (Nat.mod_le _ _).trans_lt (Nat.mod_lt _ positive)

theorem mem_allOf : x ∈ allOf size chains ↔ ∃ i < size, x ∈ chains i := by
  simp only [allOf, List.mem_flatMap, List.mem_range]

theorem Holds.cell (holds : Holds cb s chains good) (low : i < s.vars.table.length) (inside : x ∈ chains i) :
    ∃ n, s.heap.lookup x.1 = some n ∧ pairOf n = x.2 := by
  rcases holds.slot i low with ⟨head, -, seg⟩
  exact seg.cell inside

/-- The first item of each chain and the slot that points at it. -/
theorem Holds.head (holds : Holds cb s chains good) (low : i < s.vars.table.length) :
    s.vars.table[i]? = some ((chains i).head?.map Prod.fst) := by
  rcases holds.slot i low with ⟨head, here, seg⟩
  rw [here, seg.head_eq]

theorem Holds.seg (holds : Holds cb s chains good) (low : i < s.vars.table.length) :
    links.Segment pairOf s.heap (good i) none ((chains i).head?.map Prod.fst) (chains i) := by
  rcases holds.slot i low with ⟨head, -, seg⟩
  rwa [seg.head_eq] at seg

theorem Holds.mono (holds : Holds cb s chains good) {weaker : Nat → Prop} (implies : ∀ i, weaker i → good i) :
    Holds cb s chains weaker := by
  refine ⟨holds.nonempty, fun i low => ?_, fun i low fine => holds.bucket i low (implies i fine), holds.placed,
    holds.once, holds.apart⟩
  rcases holds.slot i low with ⟨head, here, seg⟩
  exact ⟨head, here, seg.mono (implies i)⟩

/-- One chain changes; the other ones are left alone. -/
theorem Holds.change (holds : Holds cb s chains good) (low : i < s.vars.table.length) {g : Prop}
    (data : next.vars.data = s.vars.data)
    (table : next.vars.table = s.vars.table.set i (xs.head?.map Prod.fst))
    (seg : links.Segment pairOf next.heap g none (xs.head?.map Prod.fst) xs)
    (bucket : g → ∀ x ∈ xs.head?, ∃ n, next.heap.lookup x.1 = some n ∧ n.bucket = some (s.vars.data, i))
    (placed : ∀ x ∈ xs, place cb s.vars.table.length x.2.1 = i) (once : (xs.map Prod.fst).Nodup)
    (others : ∀ j < s.vars.table.length, j ≠ i → ∀ y ∈ chains j,
      next.heap.lookup y.1 = s.heap.lookup y.1 ∧ ∀ x ∈ xs, x.1 ≠ y.1) :
    Holds cb next (Function.update chains i xs) (Function.update good i g) := by
  have length : next.vars.table.length = s.vars.table.length := by rw [table, List.length_set]
  refine ⟨by rw [length]; exact holds.nonempty, fun j low' => ?_, fun j low' => ?_, fun j low' => ?_,
    fun j low' => ?_, fun j low' k high => ?_⟩
  · rw [length] at low'
    by_cases here : j = i
    · subst here
      rw [Function.update_self, Function.update_self, table, List.getElem?_set_self low]
      exact ⟨_, rfl, seg⟩
    · rw [Function.update_of_ne here, Function.update_of_ne here, table, List.getElem?_set_ne (Ne.symm here),
        holds.head low']
      exact ⟨_, rfl, (holds.seg low').frame fun y inside => (others j low' here y inside).1⟩
  · rw [length] at low'
    rw [data]
    by_cases here : j = i
    · subst here
      rw [Function.update_self, Function.update_self]
      exact bucket
    · rw [Function.update_of_ne here, Function.update_of_ne here]
      intro fine y first
      rcases holds.bucket j low' fine y first with ⟨n, cell, right⟩
      exact ⟨n, (others j low' here y (List.mem_of_head? first)).1.trans cell, right⟩
  · rw [length] at low' ⊢
    by_cases here : j = i
    · subst here
      rwa [Function.update_self]
    · rw [Function.update_of_ne here]
      exact holds.placed j low'
  · rw [length] at low'
    by_cases here : j = i
    · subst here
      rwa [Function.update_self]
    · rw [Function.update_of_ne here]
      exact holds.once j low'
  · rw [length] at low' high
    intro different
    by_cases here : j = i
    · subst here
      rw [Function.update_self, Function.update_of_ne different.symm]
      exact fun x first y second => (others k high different.symm y second).2 x first
    · rw [Function.update_of_ne here]
      by_cases there : k = i
      · subst there
        rw [Function.update_self]
        exact fun y first x second => ((others j low' here y first).2 x second).symm
      · rw [Function.update_of_ne there]
        exact holds.apart j low' k high different

/-- A new table, whose slots are all empty. -/
theorem holds_cleared (cb : Callbacks K V) (positive : 0 < size) (table : s.vars.table = List.replicate size none) :
    Holds cb s (fun _ => []) (fun _ => True) := by
  have length : s.vars.table.length = size := by rw [table, List.length_replicate]
  refine ⟨length ▸ positive, fun i low => ?_, fun i _ _ => nofun, fun i _ => nofun, fun i _ => .nil,
    fun i _ j _ _ => nofun⟩
  rw [length] at low
  rw [table]
  exact ⟨none, List.getElem?_replicate_of_lt low, rfl⟩

theorem range_split (low : i < size) :
    List.range size = List.range i ++ i :: List.range' (i + 1) (size - (i + 1)) := by
  calc List.range size = List.range' 0 (i + (size - i)) := by
        rw [List.range_eq_range', Nat.add_sub_cancel' low.le]
    _ = List.range i ++ List.range' i (size - i) := by
        rw [← List.range'_append_1, Nat.zero_add, List.range_eq_range']
    _ = List.range i ++ i :: List.range' (i + 1) (size - (i + 1)) := by
        rw [← List.range'_succ, ← Nat.sub_add_cancel low]
        congr 2
        omega

/-- Where all other chains give nothing. -/
theorem flatMap_only {A : Type} {f : Nat → List A} (low : i < size) (nothing : ∀ j < size, j ≠ i → f j = []) :
    (List.range size).flatMap f = f i := by
  have front : (List.range i).flatMap f = [] := by
    apply List.flatMap_eq_nil_iff.mpr
    intro j inside
    have below := List.mem_range.mp inside
    exact nothing j (below.trans low) below.ne
  have back : (List.range' (i + 1) (size - (i + 1))).flatMap f = [] := by
    apply List.flatMap_eq_nil_iff.mpr
    intro j inside
    rw [List.mem_range'_1] at inside
    exact nothing j (by omega) (by omega)
  rw [range_split low, List.flatMap_append, List.flatMap_cons, front, back, List.nil_append, List.append_nil]

/-- One chain for another in the list of all items. -/
theorem allOf_update (chains : Chains K V) (low : i < size) (xs : List (Entry K V)) :
    (allOf size (Function.update chains i xs) ++ chains i).Perm (allOf size chains ++ xs) := by
  have front : ∀ j ∈ List.range i, Function.update chains i xs j = chains j := fun j inside =>
    Function.update_of_ne (List.mem_range.mp inside).ne ..
  have back : ∀ j ∈ List.range' (i + 1) (size - (i + 1)), Function.update chains i xs j = chains j := by
    intro j inside
    rw [List.mem_range'_1] at inside
    exact Function.update_of_ne (by omega) ..
  have around : ∀ ys zs : List (Entry K V), ((List.range i).flatMap chains ++ (ys ++
      (List.range' (i + 1) (size - (i + 1))).flatMap chains) ++ zs).Perm
      ((List.range i).flatMap chains ++ (List.range' (i + 1) (size - (i + 1))).flatMap chains ++ (ys ++ zs)) := by
    intro ys zs
    rw [List.append_assoc, List.append_assoc, List.append_assoc]
    apply List.Perm.append_left
    rw [← List.append_assoc, ← List.append_assoc]
    exact List.perm_append_comm.append_right zs
  rw [allOf, allOf, range_split low, List.flatMap_append, List.flatMap_append, List.flatMap_cons, List.flatMap_cons,
    Function.update_self, List.flatMap_congr front, List.flatMap_congr back]
  exact (around xs (chains i)).trans ((List.perm_append_comm.append_left _).trans (around (chains i) xs).symm)

/-- The items of a chain as a walk along it meets them. -/
def chainItems (s : HashStore K V) (head : Ptr) : List (Entry K V) :=
  (Links.walk MnHashItem.next s.heap s.bound head).filterMap fun a => (s.heap.lookup a).map fun n => (a, pairOf n)

/-- The items of a table in the order in which `hash_traverse` meets them. -/
def itemsOf (s : HashStore K V) : List (Entry K V) := s.vars.table.flatMap (chainItems s)

theorem Holds.short (holds : Holds cb s chains good) (low : i < s.vars.table.length) :
    (chains i).length ≤ s.heap.keys.card :=
  (holds.seg low).short (holds.once i low)

theorem Holds.chainItems (holds : Holds cb s chains good) (low : i < s.vars.table.length) :
    chainItems s ((chains i).head?.map Prod.fst) = chains i := by
  have enough : (chains i).length ≤ s.bound := (holds.short low).trans (Nat.le_succ _)
  have walked : Links.walk MnHashItem.next s.heap s.bound ((chains i).head?.map Prod.fst) =
      (chains i).map Prod.fst := (holds.seg low).walk s.bound enough
  have each : ∀ x ∈ chains i, ((s.heap.lookup x.1).map fun n => (x.1, pairOf n)) = some x := by
    intro x inside
    rcases holds.cell low inside with ⟨n, cell, pair⟩
    rw [cell, Option.map_some, pair]
  rw [Hash.chainItems, walked, List.filterMap_map]
  calc (chains i).filterMap ((fun a => (s.heap.lookup a).map fun n => (a, pairOf n)) ∘ Prod.fst)
      = (chains i).filterMap some := List.filterMap_congr each
    _ = chains i := List.filterMap_some

theorem Holds.items (holds : Holds cb s chains good) : itemsOf s = allOf s.vars.table.length chains := by
  have heads : s.vars.table = (List.range s.vars.table.length).map fun i => (chains i).head?.map Prod.fst := by
    apply List.ext_getElem?
    intro i
    by_cases low : i < s.vars.table.length
    · rw [holds.head low, List.getElem?_map, List.getElem?_range low, Option.map_some]
    · rw [List.getElem?_eq_none (not_lt.mp low), List.getElem?_eq_none]
      rw [List.length_map, List.length_range]
      exact not_lt.mp low
  calc itemsOf s = (List.range s.vars.table.length).flatMap fun i =>
        Hash.chainItems s ((chains i).head?.map Prod.fst) := by
        rw [itemsOf, heads, List.flatMap_map, List.length_map, List.length_range]
    _ = allOf s.vars.table.length chains :=
        List.flatMap_congr fun i inside => holds.chainItems (List.mem_range.mp inside)

end MnCommon.Hash
