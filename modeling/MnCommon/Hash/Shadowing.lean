import MnCommon.Memory.Run
import MnCommon.Hash.Unlink

/-! The table as a keyed store in which later items shadow earlier ones. -/

namespace MnCommon.Hash

open Memory

variable {K V : Type}

inductive HashOp (K V : Type) where
  | setItem (key : K) (value : V)
  | setItemUniq (key : K) (value : V)
  | getItem (key : K)
  | removeItem (key : K)
  | deletePair (a : Addr)
  | deletePairNoFini (a : Addr)
  | rehash (sz : Nat)
  | traverse
  | cleanup

inductive Answer (K V : Type) where
  | done
  | item (p : Ptr)
  | value (v : Option V)
  | old (key : Option K) (value : Option V)
  | pairs (all : List (K × V))
  deriving DecidableEq

/-- One call; the callback of the traversal collects what it is called with. -/
def step (cb : Callbacks K V) (system : Allocator (MnHashItem K V)) (op : HashOp K V) :
    HashProg K V (Answer K V) :=
  match op with
  | .setItem key value => do
      hashSetItem cb system key value
      return .done
  | .setItemUniq key value => do
      let (oldkey, oldvalue) ← hashSetItemUniq cb system key value
      return .old oldkey oldvalue
  | .getItem key => do
      let hit ← hashGetItem cb key
      return .item hit
  | .removeItem key => do
      let value ← hashRemoveItem cb key
      return .value value
  | .deletePair a => do
      hashDeletePair cb (some a)
      return .done
  | .deletePairNoFini a => do
      hashDeletePairNoFini (some a)
      return .done
  | .rehash sz => do
      hashRehash cb sz
      return .done
  | .traverse => do
      let (_, all) ← hashTraverse (fun key value acc => pure (0, acc ++ [(key, value)])) []
      return .pairs all
  | .cleanup => do
      hashCleanup cb
      return .done

/-- Equality of keys is an equivalence, and equal keys hash alike. -/
structure Agrees (cb : Callbacks K V) : Prop where
  refl : ∀ k, cb.cmp k k = 0
  symm : ∀ k l, cb.cmp k l = 0 → cb.cmp l k = 0
  trans : ∀ k l m, cb.cmp k l = 0 → cb.cmp l m = 0 → cb.cmp k m = 0
  hash : ∀ k l, cb.cmp k l = 0 → cb.hashfn k = cb.hashfn l

/-- The items under a key: the visible one and those that it shadows. -/
def shadowed (cb : Callbacks K V) (key : K) (s : HashStore K V) : List (Entry K V) :=
  (itemsOf s).filter (hit cb key)

/-- What an operation does to the items under `key`. -/
def Restacks (cb : Callbacks K V) (key : K) (op : HashOp K V) (s : HashStore K V) (answer : Answer K V)
    (next : HashStore K V) : Prop :=
  match op with
  | .setItem k v =>
      if cb.cmp key k = 0 then
        ∃ a, (∀ x ∈ itemsOf s, x.1 ≠ a) ∧ shadowed cb key next = (a, k, v) :: shadowed cb key s
      else
        shadowed cb key next = shadowed cb key s
  | .setItemUniq k v =>
      if cb.cmp key k = 0 then
        match shadowed cb key s with
        | [] => (∃ a, (∀ x ∈ itemsOf s, x.1 ≠ a) ∧ shadowed cb key next = [(a, k, v)]) ∧ answer = .old none none
        | x :: rest => shadowed cb key next = (x.1, k, v) :: rest ∧ answer = .old (some x.2.1) (some x.2.2)
      else
        shadowed cb key next = shadowed cb key s
  | .removeItem k =>
      if cb.cmp key k = 0 then
        shadowed cb key next = (shadowed cb key s).tail ∧
          answer = .value ((shadowed cb key s).head?.map fun x => x.2.2)
      else
        shadowed cb key next = shadowed cb key s
  | _ => True

/-- The item that is found is the visible one, and all items are counted. -/
structure Shows (cb : Callbacks K V) (s : HashStore K V) : Prop where
  finds : ∀ key, hashGetItem cb key s = .ok ((shadowed cb key s).head?.map Prod.fst, s)
  counts : s.vars.elnum = (itemsOf s).length

def Shadows (cb : Callbacks K V) (system : Allocator (MnHashItem K V)) (op : HashOp K V) (s : HashStore K V) : Prop :=
  ∃ answer next, step cb system op s = .ok (answer, next) ∧ Shows cb next ∧
    ∀ key, Restacks cb key op s answer next

/-- The operations that put items in and take items out by their keys. -/
def Stores : HashOp K V → Prop
  | .setItem _ _ => True
  | .setItemUniq _ _ => True
  | .removeItem _ => True
  | _ => False

variable {cb : Callbacks K V} {system : Allocator (MnHashItem K V)} {s next : HashStore K V} {chains : Chains K V}
  {good : Nat → Prop} {key k : K} {v : V} {i size : Nat} {front back xs : List (Entry K V)} {x : Entry K V} {a : Addr}

/-- The items under a key are all in the chain of the key. -/
theorem filter_allOf (agrees : Agrees cb) (placed : ∀ i < size, ∀ x ∈ chains i, place cb size x.2.1 = i)
    (positive : 0 < size) (key : K) :
    (allOf size chains).filter (hit cb key) = (chains (place cb size key)).filter (hit cb key) := by
  have low := place_lt cb positive key
  rw [allOf, List.filter_flatMap]
  apply flatMap_only low
  intro i inside other
  apply List.filter_eq_nil_iff.mpr
  intro x member equal
  have same := agrees.hash key x.2.1 (of_decide_eq_true equal)
  have here := placed i inside x member
  rw [place, ← same] at here
  exact other here.symm

theorem Holds.shadowed (holds : Holds cb s chains good) (agrees : Agrees cb) (key : K) :
    shadowed cb key s = (chains (place cb s.vars.table.length key)).filter (hit cb key) := by
  rw [Hash.shadowed, holds.items, filter_allOf agrees holds.placed holds.nonempty]

theorem Holds.visible_eq (holds : Holds cb s chains good) (agrees : Agrees cb) (key : K) :
    visible cb s.vars.table.length chains key = (Hash.shadowed cb key s).head? := by
  rw [holds.shadowed agrees, visible, List.head?_filter]

/-- The chains and the number of their items. -/
structure Stored (cb : Callbacks K V) (s : HashStore K V) (chains : Chains K V) (good : Nat → Prop) : Prop
    extends Holds cb s chains good where
  counts : s.vars.elnum = (allOf s.vars.table.length chains).length

theorem Stored.shows (stored : Stored cb s chains good) (agrees : Agrees cb) : Shows cb s := by
  refine ⟨fun key => ?_, ?_⟩
  · rw [← stored.visible_eq agrees]
    apply hashGetItem_ok stored.toHolds
    intro empty
    rw [stored.counts] at empty
    exact List.length_eq_zero_iff.mp empty
  · rw [stored.items, stored.counts]

/-- How many items there are after one chain has changed. -/
theorem length_allOf_update (chains : Chains K V) (low : i < size) (xs : List (Entry K V)) :
    (allOf size (Function.update chains i xs)).length + (chains i).length =
      (allOf size chains).length + xs.length := by
  have perm := (allOf_update chains low xs).length_eq
  rwa [List.length_append, List.length_append] at perm

/-- The items under a key in the chain that has changed, and in the others. -/
theorem Holds.restacked (holds : Holds cb next (Function.update chains i xs) good) (agrees : Agrees cb) (key : K) :
    Hash.shadowed cb key next =
      if place cb next.vars.table.length key = i then xs.filter (hit cb key)
      else (chains (place cb next.vars.table.length key)).filter (hit cb key) := by
  rw [holds.shadowed agrees, Function.update_apply]
  split
  · rfl
  · rfl

theorem Agrees.place_eq (agrees : Agrees cb) {k l : K} (equal : cb.cmp k l = 0) (size : Nat) :
    place cb size k = place cb size l := by
  rw [place, place, agrees.hash k l equal]

theorem hit_eq (equal : cb.cmp key k = 0) (x : Entry K V) (here : x.2.1 = k) : hit cb key x = true := by
  rw [hit, here]
  exact decide_eq_true equal

theorem hit_ne (other : cb.cmp key k ≠ 0) (x : Entry K V) (here : x.2.1 = k) : hit cb key x = false := by
  rw [hit, here]
  exact decide_eq_false other

/-- A new item at the front of its chain. -/
theorem restacked_new (holds : Holds cb s chains good) (agrees : Agrees cb) {good' : Nat → Prop}
    (length : next.vars.table.length = s.vars.table.length)
    (after : Holds cb next (Function.update chains (place cb s.vars.table.length k)
      ((a, k, v) :: chains (place cb s.vars.table.length k))) good') (key : K) :
    shadowed cb key next =
      if cb.cmp key k = 0 then (a, k, v) :: shadowed cb key s else shadowed cb key s := by
  rw [after.restacked agrees, holds.shadowed agrees, length]
  by_cases equal : cb.cmp key k = 0
  · rw [agrees.place_eq equal, if_pos rfl, if_pos equal, List.filter_cons_of_pos (hit_eq equal _ rfl)]
  · rw [if_neg equal]
    by_cases here : place cb s.vars.table.length key = place cb s.vars.table.length k
    · have other : ¬ hit cb key (a, k, v) = true := Bool.not_eq_true _ |>.mpr (hit_ne equal _ rfl)
      rw [if_pos here, List.filter_cons_of_neg other, here]
    · rw [if_neg here]

theorem Agrees.same_hits (agrees : Agrees cb) (equal : cb.cmp key k = 0) (x : Entry K V) :
    hit cb key x = hit cb k x := by
  apply decide_eq_decide.mpr
  constructor
  · exact agrees.trans k key _ (agrees.symm key k equal)
  · exact agrees.trans key k _ equal

theorem Agrees.shadowed_eq (agrees : Agrees cb) (equal : cb.cmp key k = 0) :
    Hash.shadowed cb key s = Hash.shadowed cb k s :=
  List.filter_congr fun x _ => agrees.same_hits equal x

/-- The part of a chain in front of the visible item of a key, seen from an equal key. -/
theorem filter_front (agrees : Agrees cb) (equal : cb.cmp key k = 0) (away : ∀ y ∈ front, hit cb k y = false) :
    front.filter (hit cb key) = [] := by
  apply List.filter_eq_nil_iff.mpr
  intro y inside found
  rw [agrees.same_hits equal, away y inside] at found
  exact Bool.false_ne_true found

/-- The items under a key where `x`, the visible item of `k`, makes room for other ones. -/
theorem restacked_old (holds : Holds cb s chains good) (agrees : Agrees cb) {good' : Nat → Prop}
    (length : next.vars.table.length = s.vars.table.length) (mid : List (Entry K V))
    (shape : chains (place cb s.vars.table.length k) = front ++ x :: back)
    (away : ∀ y ∈ front, hit cb k y = false) (found : hit cb k x = true) (keys : ∀ y ∈ mid, y.2.1 = k)
    (after : Holds cb next (Function.update chains (place cb s.vars.table.length k) (front ++ (mid ++ back))) good')
    (key : K) :
    if cb.cmp key k = 0 then
      ∃ rest, shadowed cb key s = x :: rest ∧ shadowed cb key next = mid ++ rest
    else shadowed cb key next = shadowed cb key s := by
  rw [after.restacked agrees, holds.shadowed agrees, length]
  by_cases equal : cb.cmp key k = 0
  · have first : hit cb key x = true := by rw [agrees.same_hits equal, found]
    have all : mid.filter (hit cb key) = mid :=
      List.filter_eq_self.mpr fun y inside => hit_eq equal y (keys y inside)
    rw [if_pos equal, agrees.place_eq equal, if_pos rfl, shape, List.filter_append, List.filter_append,
      List.filter_append, filter_front agrees equal away, List.filter_cons_of_pos first, all]
    exact ⟨back.filter (hit cb key), rfl, rfl⟩
  · rw [if_neg equal]
    by_cases here : place cb s.vars.table.length key = place cb s.vars.table.length k
    · have nothing : mid.filter (hit cb key) = [] := by
        apply List.filter_eq_nil_iff.mpr
        intro y inside
        rw [hit_ne equal y (keys y inside)]
        exact Bool.false_ne_true
      have other : ¬ hit cb key x = true := by
        intro hits
        have one : cb.cmp key x.2.1 = 0 := of_decide_eq_true hits
        have two : cb.cmp k x.2.1 = 0 := of_decide_eq_true found
        exact equal (agrees.trans key x.2.1 k one (agrees.symm k x.2.1 two))
      rw [if_pos here, here, shape, List.filter_append, List.filter_append, List.filter_append, nothing,
        List.filter_cons_of_neg other, List.nil_append]
    · rw [if_neg here]

/-- One chain has changed, and the count with it. -/
theorem Stored.change (stored : Stored cb s chains good) {good' : Nat → Prop} {elnum : Nat} {log : List (K × V)}
    (low : i < s.vars.table.length) (after : Holds cb next (Function.update chains i xs) good')
    (leaves : Leaves elnum log s next) (counts : elnum + (chains i).length = s.vars.elnum + xs.length) :
    Stored cb next (Function.update chains i xs) good' := by
  refine ⟨after, ?_⟩
  have lengths := length_allOf_update chains low xs
  have counted := stored.counts
  rw [leaves.elnum, leaves.length]
  omega

/-- An operation goes through, and does its work under all keys. -/
def Restacked (cb : Callbacks K V) (system : Allocator (MnHashItem K V)) (op : HashOp K V) (s : HashStore K V) : Prop :=
  ∃ answer next, step cb system op s = .ok (answer, next) ∧ (∃ chains good, Stored cb next chains good) ∧
    ∀ key, Restacks cb key op s answer next

theorem Holds.nothing_shadowed (holds : Holds cb s chains good) (agrees : Agrees cb)
    (search : visible cb s.vars.table.length chains k = none) (equal : cb.cmp key k = 0) :
    Hash.shadowed cb key s = [] := by
  rw [holds.visible_eq agrees] at search
  rw [agrees.shadowed_eq equal]
  exact List.head?_eq_none_iff.mp search

theorem setItem_restacks (stored : Stored cb s chains good) (agrees : Agrees cb)
    (system : Allocator (MnHashItem K V)) (k : K) (v : V) : Restacked cb system (.setItem k v) s := by
  have holds := stored.toHolds
  have low := place_lt cb holds.nonempty k
  rcases hashSetItem_ok holds system k v with ⟨a, next, run, fresh, after, leaves⟩
  refine ⟨.done, next, ?_, ⟨_, _, stored.change low after leaves ?_⟩, fun key => ?_⟩
  · rw [step, bind_ok run]
    rfl
  · rw [List.length_cons]
    omega
  · have now := restacked_new holds agrees leaves.length after key
    rw [← holds.items] at fresh
    simp only [Restacks]
    split
    · rename_i equal
      rw [if_pos equal] at now
      exact ⟨a, fresh, now⟩
    · rename_i other
      rwa [if_neg other] at now

/-- Without an item under the key, one is made. -/
theorem setItemUniq_new_restacks (stored : Stored cb s chains good) (agrees : Agrees cb)
    (system : Allocator (MnHashItem K V)) (v : V) (search : visible cb s.vars.table.length chains k = none) :
    Restacked cb system (.setItemUniq k v) s := by
  have holds := stored.toHolds
  have low := place_lt cb holds.nonempty k
  rcases hashSetItemUniq_new holds system k v search with ⟨a, next, run, fresh, after, leaves⟩
  refine ⟨.old none none, next, ?_, ⟨_, _, stored.change low after leaves ?_⟩, fun key => ?_⟩
  · rw [step, bind_ok run]
    rfl
  · rw [List.length_cons]
    omega
  · have now := restacked_new holds agrees leaves.length after key
    rw [← holds.items] at fresh
    simp only [Restacks]
    split
    · rename_i equal
      rw [if_pos equal] at now
      rw [holds.nothing_shadowed agrees search equal] at now ⊢
      exact ⟨⟨a, fresh, now⟩, trivial⟩
    · rename_i other
      rwa [if_neg other] at now

/-- The visible item stays, with another key and another value. -/
theorem setItemUniq_old_restacks (stored : Stored cb s chains good) (agrees : Agrees cb)
    (system : Allocator (MnHashItem K V)) (v : V) (search : visible cb s.vars.table.length chains k = some x) :
    Restacked cb system (.setItemUniq k v) s := by
  have holds := stored.toHolds
  have low := place_lt cb holds.nonempty k
  rcases hashSetItemUniq_old holds system k v search with ⟨next, front, back, run, shape, away, found, after, leaves⟩
  refine ⟨.old (some x.2.1) (some x.2.2), next, ?_, ⟨_, _, stored.change low after leaves ?_⟩, fun key => ?_⟩
  · rw [step, bind_ok run]
    rfl
  · rw [shape, List.length_append, List.length_append, List.length_cons, List.length_cons]
  · have keys : ∀ y ∈ [((x.1, k, v) : Entry K V)], y.2.1 = k := by
      intro y inside
      rw [List.mem_singleton.mp inside]
    have now := restacked_old holds agrees leaves.length [(x.1, k, v)] shape away found keys after key
    simp only [Restacks]
    split
    · rename_i equal
      rw [if_pos equal] at now
      rcases now with ⟨rest, before, later⟩
      rw [before, later]
      exact ⟨rfl, rfl⟩
    · rename_i other
      rwa [if_neg other] at now

theorem removeItem_none_restacks (stored : Stored cb s chains good) (agrees : Agrees cb)
    (system : Allocator (MnHashItem K V)) (search : visible cb s.vars.table.length chains k = none) :
    Restacked cb system (.removeItem k) s := by
  have holds := stored.toHolds
  have run := hashRemoveItem_none holds k search
  refine ⟨.value none, s, ?_, ⟨chains, good, stored⟩, fun key => ?_⟩
  · rw [step, bind_ok run]
    rfl
  · simp only [Restacks]
    split
    · rename_i equal
      rw [holds.nothing_shadowed agrees search equal]
      exact ⟨rfl, rfl⟩
    · trivial

/-- The visible item goes, and the one that it shadowed comes forth. -/
theorem removeItem_some_restacks (stored : Stored cb s chains good) (agrees : Agrees cb)
    (system : Allocator (MnHashItem K V)) (search : visible cb s.vars.table.length chains k = some x) :
    Restacked cb system (.removeItem k) s := by
  have holds := stored.toHolds
  have low := place_lt cb holds.nonempty k
  rcases hashRemoveItem_some holds k search with ⟨next, front, back, run, shape, away, found, after, leaves⟩
  have positive : 0 < s.vars.elnum := by
    rw [stored.counts]
    have there : x ∈ chains (place cb s.vars.table.length k) := shape ▸ List.mem_append_right _ List.mem_cons_self
    exact List.length_pos_of_mem (mem_allOf.mpr ⟨_, low, there⟩)
  refine ⟨.value (some x.2.2), next, ?_, ⟨_, _, stored.change low after leaves ?_⟩, fun key => ?_⟩
  · rw [step, bind_ok run]
    rfl
  · rw [shape, List.length_append, List.length_append, List.length_cons]
    omega
  · have now := restacked_old holds agrees leaves.length [] shape away found (List.forall_mem_nil _) after key
    simp only [Restacks]
    split
    · rename_i equal
      rw [if_pos equal] at now
      rcases now with ⟨rest, before, later⟩
      rw [before, later]
      exact ⟨rfl, rfl⟩
    · rename_i other
      rwa [if_neg other] at now

/-- What one operation does to the items under all keys. -/
theorem step_restacks (stored : Stored cb s chains good) (agrees : Agrees cb)
    (system : Allocator (MnHashItem K V)) (op : HashOp K V) (stores : Stores op) : Restacked cb system op s := by
  cases op with
  | setItem k v => exact setItem_restacks stored agrees system k v
  | setItemUniq k v =>
      cases search : visible cb s.vars.table.length chains k with
      | none => exact setItemUniq_new_restacks stored agrees system v search
      | some x => exact setItemUniq_old_restacks stored agrees system v search
  | removeItem k =>
      cases search : visible cb s.vars.table.length chains k with
      | none => exact removeItem_none_restacks stored agrees system search
      | some x => exact removeItem_some_restacks stored agrees system search
  | _ => exact stores.elim

theorem hashInit_ok (cb : Callbacks K V) {sz : Nat} (positive : 0 < sz) (s : HashStore K V) :
    ∃ next, hashInit sz s = .ok ((), next) ∧ Stored cb next (fun _ => []) (fun _ => True) ∧
      next.vars.finished = [] := by
  refine ⟨_, rfl, ⟨holds_cleared cb positive rfl, ?_⟩, rfl⟩
  exact (List.length_eq_zero_iff.mpr (List.flatMap_eq_nil_iff.mpr fun _ _ => rfl)).symm

theorem step_shadows (agrees : Agrees cb) (system : Allocator (MnHashItem K V)) (op : HashOp K V)
    (s : HashStore K V) (stored : ∃ chains good, Stored cb s chains good) (stores : Stores op) :
    Shadows cb system op s := by
  rcases stored with ⟨chains, good, stored⟩
  rcases step_restacks stored agrees system op stores with ⟨answer, next, run, ⟨_, _, after⟩, restacks⟩
  exact ⟨answer, next, run, after.shows agrees, restacks⟩

theorem step_stored (agrees : Agrees cb) (system : Allocator (MnHashItem K V)) (op : HashOp K V)
    (s : HashStore K V) (answer : Answer K V) (next : HashStore K V) (stored : ∃ chains good, Stored cb s chains good)
    (stores : Stores op) (stepped : step cb system op s = .ok (answer, next)) :
    ∃ chains good, Stored cb next chains good := by
  rcases stored with ⟨chains, good, stored⟩
  rcases step_restacks stored agrees system op stores with ⟨answer', next', run, after, -⟩
  rcases Prod.mk.inj (Except.ok.inj (stepped.symm.trans run)) with ⟨-, rfl⟩
  exact after

/-- Keys that hash to themselves. -/
def wordKeys (fini : Option (List (UInt64 × UInt64) → UInt64 → UInt64 → Int)) : Callbacks UInt64 UInt64 where
  hashfn := id
  cmp k l := if k = l then 0 else 1
  fini := fini

theorem wordKeys_cmp {fini : Option (List (UInt64 × UInt64) → UInt64 → UInt64 → Int)} {k l : UInt64} :
    (wordKeys fini).cmp k l = 0 ↔ k = l := by
  simp only [wordKeys]
  split
  · simp only [*]
  · simp only [*, one_ne_zero]

theorem wordKeys_agrees (fini : Option (List (UInt64 × UInt64) → UInt64 → UInt64 → Int)) :
    Agrees (wordKeys fini) := by
  refine ⟨fun k => ?_, fun k l => ?_, fun k l m => ?_, fun k l => ?_⟩
  · exact wordKeys_cmp.mpr rfl
  · simp only [wordKeys_cmp]
    exact Eq.symm
  · simp only [wordKeys_cmp]
    exact Eq.trans
  · simp only [wordKeys_cmp]
    exact congrArg _

def wordAllocator : Allocator (MnHashItem UInt64 UInt64) := .bump ⟨none, none, none, 0, 0⟩

/-- A new table in an empty memory. -/
def newTable (sz : Nat) : HashStore UInt64 UInt64 := ⟨∅, ⟨1, List.replicate sz none, 0, []⟩, 0⟩

theorem newTable_init (sz : Nat) : hashInit sz ⟨∅, ⟨0, [], 0, []⟩, 0⟩ = .ok ((), newTable sz) := rfl

end MnCommon.Hash
