import Mathlib.Data.Int.Order.Basic
import MnCommon.Memory.Heap
import MnCommon.Memory.Visit

/-! Going through the elements of an array, and looking for one. Where they lie is of no matter here: an array is
the row of its elements, of which `elnum` may be any `size_t`. -/

namespace MnCommon.Arrays

open Memory (Fault iterate Yields)

variable {α S : Type}

/-- NULL is no element. -/
def elementAt (row : List α) (it : UInt32) : Option α := row[it.toNat]?

def arrayFirst (row : List α) : UInt32 × Option α := (0, elementAt row 0)

/-- The difference becomes an `unsigned`. -/
def arrayLast (row : List α) : UInt32 × Option α :=
  let it := UInt32.ofNat row.length - 1
  (it, elementAt row it)

def arrayNext (row : List α) (it : UInt32) : UInt32 × Option α :=
  let it := it + 1
  (it, elementAt row it)

def arrayPrev (row : List α) (it : UInt32) : UInt32 × Option α :=
  let it := it - 1
  (it, elementAt row it)

/-- `for (x = array_first(ar, &it); x != NULL; x = array_next(ar, &it))`, with a body that may leave the loop. -/
def forward (f : S → α → Int × S) (fuel : Nat) (row : List α) (acc : S) : Except Fault (Option (Int × S)) :=
  iterate (fun it => .ok (arrayNext row it)) f fuel (arrayFirst row) acc

/-- The same with `array_last` and `array_prev`. -/
def backward (f : S → α → Int × S) (fuel : Nat) (row : List α) (acc : S) : Except Fault (Option (Int × S)) :=
  iterate (fun it => .ok (arrayPrev row it)) f fuel (arrayLast row) acc

/-- Its `i` is a cursor too, from which the loop of `array_traverse_iter` goes on. -/
def arrayTraverseIter (tr : S → α → Int × S) (fuel : Nat) (row : List α) (i : UInt32) (udata : S) :
    Except Fault (Option (Int × S)) :=
  iterate (fun i => .ok (i + 1, elementAt row (i + 1))) tr fuel (i, elementAt row i) udata

def arrayTraverse (tr : S → α → Int × S) (fuel : Nat) (row : List α) (udata : S) : Except Fault (Option (Int × S)) :=
  arrayTraverseIter tr fuel row 0 udata

/-- The comparison gets the element first. -/
def arrayFindLinear (compar : α → α → Int) (key : α) (fuel : Nat) (row : List α) :
    Except Fault (Option (Option α)) :=
  if row.length = 0 then
    .ok (some none)
  else
    (forward (fun _ item => if compar item key = 0 then (1, some item) else (0, none)) fuel row none).map fun answer =>
      answer.map Prod.snd

/-- `compar` is a total preorder. -/
structure Orders (compar : α → α → Int) : Prop where
  flip : ∀ a b, 0 < compar a b ↔ compar b a < 0
  trans : ∀ a b c, compar a b ≤ 0 → compar b c ≤ 0 → compar a c ≤ 0

/-- `qsort` may do with equal elements what it likes. -/
structure Qsort (α : Type) where
  sort : (α → α → Int) → List α → List α
  perm : ∀ compar row, (sort compar row).Perm row
  ordered : ∀ compar, Orders compar → ∀ row, (sort compar row).Pairwise fun a b => compar a b ≤ 0

/-- What `bsearch` asks of its array: the elements that are less than the key, then those that are equal to it, then
those that are greater. -/
def Parted (probe : α → Int) (row : List α) : Prop := row.Pairwise fun a b => (probe b).sign ≤ (probe a).sign

/-- `bsearch` may find any of the elements that are equal to the key. -/
structure Bsearch (α : Type) where
  search : (α → Int) → List α → Option α
  sound : ∀ probe row, Parted probe row → ∀ a, search probe row = some a → a ∈ row ∧ probe a = 0
  complete : ∀ probe row, Parted probe row → search probe row = none → ∀ a ∈ row, probe a ≠ 0

/-- The error of the source is 1 here. -/
def arraySort (system : Qsort α) (compar : α → α → Int) (row : List α) : Int × List α :=
  if row.length = 0 then (1, row) else (0, system.sort compar row)

/-- The comparison gets the key first. -/
def arrayFind (library : Bsearch α) (compar : α → α → Int) (key : α) (row : List α) : Option α :=
  if row.length = 0 then none else library.search (compar key) row

/-- Every way through the array meets each element once, in its direction. -/
structure Iterates (row : List α) : Prop where
  forward : ∀ (S : Type) (f : S → α → Int × S) (acc : S), ∃ fuel,
    forward f fuel row acc = .ok (some (Memory.visit f row acc))
  backward : ∀ (S : Type) (f : S → α → Int × S) (acc : S), ∃ fuel,
    backward f fuel row acc = .ok (some (Memory.visit f row.reverse acc))
  traverse : ∀ (S : Type) (f : S → α → Int × S) (acc : S), ∃ fuel,
    arrayTraverse f fuel row acc = .ok (some (Memory.visit f row acc))
  resume : ∀ (S : Type) (f : S → α → Int × S) (i : UInt32) (acc : S), ∃ fuel,
    arrayTraverseIter f fuel row i acc = .ok (some (Memory.visit f (row.drop i.toNat) acc))
  search : ∀ (compar : α → α → Int) (key : α), ∃ fuel,
    arrayFindLinear compar key fuel row = .ok (some (row.find? fun a => compar a key = 0))

variable {row : List α} {compar : α → α → Int}

theorem Iterates.of_short (short : row.length < 2 ^ 32) : Iterates row := by
  have starting (i : UInt32) : Yields (fun it => (.ok (arrayNext row it) : Except Fault _)) (i, elementAt row i)
      (row.drop i.toNat) :=
    Memory.yields_forward (fun _ => rfl) short i
  have first : Yields (fun it => (.ok (arrayNext row it) : Except Fault _)) (arrayFirst row) row := starting 0
  have last : Yields (fun it => (.ok (arrayPrev row it) : Except Fault _)) (arrayLast row) row.reverse :=
    Memory.yields_backward (fun _ => rfl) short
  constructor
  · exact fun S f acc => ⟨row.length, first.iterate (Nat.le_refl _) acc⟩
  · exact fun S f acc => ⟨row.reverse.length, last.iterate (Nat.le_refl _) acc⟩
  · exact fun S f acc => ⟨row.length, first.iterate (Nat.le_refl _) acc⟩
  · exact fun S f i acc => ⟨(row.drop i.toNat).length, (starting i).iterate (Nat.le_refl _) acc⟩
  · intro compar key
    refine ⟨row.length, ?_⟩
    rw [arrayFindLinear]
    split_ifs with empty
    · rw [List.length_eq_zero_iff.mp empty]
      rfl
    · rw [Arrays.forward, first.iterate (Nat.le_refl _)]
      exact congrArg (fun found => Except.ok (some found)) (Memory.visit_find (fun a => compar a key = 0) row)

/-- A loop over too many elements has no end. -/
theorem forward_endless (long : 2 ^ 32 ≤ row.length) (fuel : Nat) :
    forward (fun _ _ => (0, ())) fuel row () = .ok none := by
  rcases Memory.always_there long 0 with ⟨x, there⟩
  rw [forward, arrayFirst, elementAt, there]
  refine Memory.iterate_endless (fun it => ?_) (fun _ _ => rfl) fuel 0 x ()
  rcases Memory.always_there long (it + 1) with ⟨y, there⟩
  exact ⟨it + 1, y, by rw [arrayNext, elementAt, there]⟩

/-- The loops over an array are what they look like exactly up to the lengths that an `unsigned` can count. -/
theorem iterates_iff (row : List α) : Iterates row ↔ row.length < 2 ^ 32 := by
  refine ⟨fun iterates => ?_, .of_short⟩
  by_contra long
  rcases iterates.forward Unit (fun _ _ => (0, ())) () with ⟨fuel, run⟩
  rw [forward_endless (Nat.not_lt.mp long)] at run
  cases run

theorem arraySort_perm (system : Qsort α) (compar : α → α → Int) (row : List α) :
    (arraySort system compar row).2.Perm row := by
  rw [arraySort]
  split_ifs
  · exact .refl row
  · exact system.perm compar row

theorem arraySort_ordered (system : Qsort α) (orders : Orders compar) (row : List α) :
    (arraySort system compar row).2.Pairwise fun a b => compar a b ≤ 0 := by
  rw [arraySort]
  split_ifs with empty
  · rw [List.length_eq_zero_iff.mp empty]
    exact .nil
  · exact system.ordered compar orders row

theorem Orders.zero_comm (orders : Orders compar) {a b : α} (zero : compar a b = 0) : compar b a = 0 := by
  have first := orders.flip a b
  have second := orders.flip b a
  omega

/-- What is in order is parted by every key. -/
theorem Orders.parted (orders : Orders compar) (key : α) (ordered : row.Pairwise fun a b => compar a b ≤ 0) :
    Parted (compar key) row := by
  refine ordered.imp fun {a b} below => ?_
  rcases lt_trichotomy (compar key a) 0 with less | equal | greater
  · have before : compar key b ≤ 0 := orders.trans key a b less.le below
    have other : compar key b ≠ 0 := by
      intro equal
      have back : compar a key ≤ 0 := orders.trans a b key below (orders.zero_comm equal).le
      have flip := (orders.flip a key).mpr less
      omega
    rw [Int.sign_eq_neg_one_of_neg less, Int.sign_eq_neg_one_of_neg (lt_of_le_of_ne before other)]
  · have before : compar key b ≤ 0 := orders.trans key a b equal.le below
    rw [equal, Int.sign_zero]
    exact Int.sign_nonpos_iff.mpr before
  · rw [Int.sign_eq_one_of_pos greater]
    rcases Int.sign_trichotomy (compar key b) with one | zero | less <;> omega

/-- Both searches in a sorted array find something or nothing, and what they find is equal to the key. -/
def FindsSame (library : Bsearch α) (compar : α → α → Int) (key : α) (row sorted : List α) : Prop :=
  (∀ a ∈ row, compar a key ≠ 0) ∧ arrayFind library compar key sorted = none ∧
      (∃ fuel, arrayFindLinear compar key fuel sorted = .ok (some none)) ∨
    ∃ a ∈ row, ∃ b ∈ row, compar a key = 0 ∧ compar b key = 0 ∧ arrayFind library compar key sorted = some a ∧
      ∃ fuel, arrayFindLinear compar key fuel sorted = .ok (some (some b))

theorem arrayFind_eq_none (library : Bsearch α) (orders : Orders compar) {key : α}
    (parted : Parted (compar key) row) (nothing : arrayFind library compar key row = none) : ∀ a ∈ row, compar a key ≠ 0 := by
  intro a inside zero
  rw [arrayFind, if_neg (List.ne_nil_of_mem inside |> mt List.length_eq_zero_iff.mp)] at nothing
  exact library.complete _ _ parted nothing a inside (orders.zero_comm zero)

theorem arrayFind_eq_some (library : Bsearch α) (orders : Orders compar) {key a : α}
    (parted : Parted (compar key) row) (found : arrayFind library compar key row = some a) :
    a ∈ row ∧ compar a key = 0 := by
  rw [arrayFind] at found
  split_ifs at found
  rcases library.sound _ _ parted a found with ⟨inside, zero⟩
  exact ⟨inside, orders.zero_comm zero⟩

theorem mergeSort_ordered (orders : Orders compar) (row : List α) :
    (row.mergeSort fun a b => compar a b ≤ 0).Pairwise fun a b => compar a b ≤ 0 := by
  have sorted : (row.mergeSort fun a b => compar a b ≤ 0).Pairwise fun a b => decide (compar a b ≤ 0) = true := by
    apply List.pairwise_mergeSort
    · intro a b c first second
      rw [decide_eq_true_eq] at first second ⊢
      exact orders.trans a b c first second
    · intro a b
      rw [Bool.or_eq_true, decide_eq_true_eq, decide_eq_true_eq]
      have flip := orders.flip a b
      omega
  exact sorted.imp fun below => of_decide_eq_true below

/-- One way to sort. -/
def Qsort.merging (α : Type) : Qsort α where
  sort compar row := row.mergeSort fun a b => compar a b ≤ 0
  perm _ row := List.mergeSort_perm row _
  ordered _ orders row := mergeSort_ordered orders row

/-- One way to search. -/
def Bsearch.scanning (α : Type) : Bsearch α where
  search probe row := row.find? fun a => probe a = 0
  sound probe row _ a found := ⟨List.mem_of_find?_eq_some found, by simpa using List.find?_some found⟩
  complete probe row _ nothing := by simpa using List.find?_eq_none.mp nothing

/-- The order of the words. -/
def compareWords (a b : UInt64) : Int := (if b < a then 1 else 0) - (if a < b then 1 else 0)

theorem compareWords_orders : Orders compareWords := by
  constructor
  · intro a b
    simp only [compareWords]
    split <;> split <;> omega
  · intro a b c first second
    simp only [compareWords, UInt64.lt_iff_toNat_lt] at *
    split at first <;> split at first <;> split at second <;> split at second <;> split <;> split <;> omega

end MnCommon.Arrays
