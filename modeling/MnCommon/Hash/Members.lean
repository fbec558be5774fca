import MnCommon.Hash.Counting

/-! A table without values as a set of keys. -/

namespace MnCommon.Hash

open Memory

variable {K V : Type}

inductive SetOp (K : Type) where
  | add (key : K)
  | remove (key : K)

def setStep (cb : Callbacks K V) (system : Allocator (MnHashItem K V)) (null : V) : SetOp K → HashProg K V Unit
  | .add key => hashSetAdd cb system null key
  | .remove key => hashSetRemove cb key

/-- The set that is meant; of equal keys it has the one that was added first. -/
def setAfter (cb : Callbacks K V) (held : List K) : SetOp K → List K
  | .add key => if ∃ k ∈ held, cb.cmp key k = 0 then held else key :: held
  | .remove key => held.filter fun k => cb.cmp key k ≠ 0

def keysHeld (s : HashStore K V) : List K := (itemsOf s).map fun x => x.2.1

/-- The table holds the keys, no two of which are equal. -/
structure HoldsKeys (cb : Callbacks K V) (s : HashStore K V) (held : List K) : Prop where
  stored : ∃ chains good, Stored cb s chains good
  keys : (keysHeld s).Perm held
  distinct : held.Pairwise fun k l => cb.cmp k l ≠ 0

variable {cb : Callbacks K V} {system : Allocator (MnHashItem K V)} {null : V} {s next : HashStore K V}
  {chains : Chains K V} {good : Nat → Prop} {held : List K} {key k : K} {x : Entry K V}

theorem mem_keysHeld : k ∈ keysHeld s ↔ ∃ x ∈ itemsOf s, x.2.1 = k := List.mem_map

/-- An equal key is one of the chain of the key. -/
theorem visible_iff (agrees : Agrees cb) (holds : Holds cb s chains good) (key : K) :
    (visible cb s.vars.table.length chains key).isSome ↔ ∃ k ∈ keysHeld s, cb.cmp key k = 0 := by
  rw [holds.visible_eq agrees, Option.isSome_iff_ne_none, ne_eq, List.head?_eq_none_iff]
  constructor
  · intro some
    rcases List.exists_mem_of_ne_nil _ some with ⟨x, inside⟩
    rcases List.mem_filter.mp inside with ⟨member, equal⟩
    exact ⟨x.2.1, mem_keysHeld.mpr ⟨x, member, rfl⟩, of_decide_eq_true equal⟩
  · intro found
    rcases found with ⟨k, inside, equal⟩
    rcases mem_keysHeld.mp inside with ⟨x, member, rfl⟩
    exact List.ne_nil_of_mem (List.mem_filter.mpr ⟨member, decide_eq_true equal⟩)

theorem getItem_iff (agrees : Agrees cb) (stored : Stored cb s chains good) (key : K) :
    ∃ found, hashGetItem cb key s = .ok (found, s) ∧ (found ≠ none ↔ ∃ k ∈ keysHeld s, cb.cmp key k = 0) := by
  have counted : s.vars.elnum = 0 → allOf s.vars.table.length chains = [] := by
    intro none
    rw [stored.counts] at none
    exact List.eq_nil_of_length_eq_zero none
  refine ⟨_, hashGetItem_ok stored.toHolds key counted, ?_⟩
  rw [← visible_iff agrees stored.toHolds key]
  cases visible cb s.vars.table.length chains key <;> simp

/-- The key is found exactly if an equal one has been added and not been removed since. -/
theorem HoldsKeys.finds (holding : HoldsKeys cb s held) (agrees : Agrees cb) (key : K) :
    ∃ found, hashGetItem cb key s = .ok (found, s) ∧ (found ≠ none ↔ ∃ k ∈ held, cb.cmp key k = 0) := by
  rcases holding.stored with ⟨chains, good, stored⟩
  rcases getItem_iff agrees stored key with ⟨found, run, exactly⟩
  refine ⟨found, run, exactly.trans (exists_congr fun k => ?_)⟩
  rw [holding.keys.mem_iff]

theorem HoldsKeys.counts (holding : HoldsKeys cb s held) : s.vars.elnum = held.length := by
  rcases holding.stored with ⟨chains, good, stored⟩
  have length := holding.keys.length_eq
  rw [keysHeld, List.length_map, stored.items] at length
  rw [stored.counts, length]

theorem add_holdsKeys (holding : HoldsKeys cb s held) (agrees : Agrees cb) (system : Allocator (MnHashItem K V))
    (null : V) (key : K) : ∃ next, hashSetAdd cb system null key s = .ok ((), next) ∧
      HoldsKeys cb next (setAfter cb held (.add key)) := by
  rcases holding.finds agrees key with ⟨found, run, exactly⟩
  rw [hashSetAdd, bind_ok run, setAfter]
  by_cases there : ∃ k ∈ held, cb.cmp key k = 0
  · rw [if_pos there, if_neg (exactly.mpr there)]
    exact ⟨s, rfl, holding⟩
  · have missing : found = none := not_not.mp fun found => there (exactly.mp found)
    rw [if_neg there, if_pos missing]
    rcases holding.stored with ⟨chains, good, stored⟩
    have low := place_lt cb stored.nonempty key
    rcases hashSetItem_ok stored.toHolds system key null with ⟨a, next, run, -, after, leaves⟩
    have stored' := stored.change low after leaves (by rw [List.length_cons]; omega)
    refine ⟨next, run, ⟨_, _, stored'⟩, ?_, ?_⟩
    · have perm := stored.items_pushed low after leaves.length
      have keys : (keysHeld next).Perm (key :: keysHeld s) := perm.map fun x : Entry K V => x.2.1
      exact keys.trans (holding.keys.cons key)
    · exact List.pairwise_cons.mpr ⟨fun k member equal => there ⟨k, member, equal⟩, holding.distinct⟩

/-- Only one key is equal to a key. -/
theorem filter_distinct (agrees : Agrees cb) {rest : List K} (equal : cb.cmp key k = 0)
    (distinct : (k :: rest).Pairwise fun k l => cb.cmp k l ≠ 0) :
    ((k :: rest).filter fun l => cb.cmp key l ≠ 0) = rest := by
  rcases List.pairwise_cons.mp distinct with ⟨others, -⟩
  rw [List.filter_cons_of_neg (by simpa using equal), List.filter_eq_self]
  intro l member
  apply decide_eq_true
  intro same
  exact others l member (agrees.trans k key l (agrees.symm key k equal) same)

theorem remove_holdsKeys (holding : HoldsKeys cb s held) (agrees : Agrees cb) (key : K) :
    ∃ next, hashSetRemove cb key s = .ok ((), next) ∧ HoldsKeys cb next (setAfter cb held (.remove key)) := by
  rcases holding.stored with ⟨chains, good, stored⟩
  have low := place_lt cb stored.nonempty key
  rw [hashSetRemove, setAfter]
  cases search : visible cb s.vars.table.length chains key with
  | none =>
      have missing : ¬ ∃ k ∈ held, cb.cmp key k = 0 := by
        intro there
        have found := (visible_iff agrees stored.toHolds key).mpr (by simpa only [holding.keys.mem_iff] using there)
        rw [search] at found
        cases found
      have same : (held.filter fun k => cb.cmp key k ≠ 0) = held := by
        rw [List.filter_eq_self]
        exact fun k member => decide_eq_true fun equal => missing ⟨k, member, equal⟩
      rw [same, bind_ok (hashRemoveItem_none stored.toHolds key search)]
      exact ⟨s, rfl, holding⟩
  | some x =>
      rcases hashRemoveItem_some stored.toHolds key search with ⟨next, front, back, run, shape, -, equal, after, leaves⟩
      rw [bind_ok run]
      have perm := stored.items_dropped low shape after leaves.length
      have fewer : (keysHeld s).Perm (x.2.1 :: keysHeld next) := perm.map fun x : Entry K V => x.2.1
      have keys := holding.keys.symm.trans fewer
      have distinct : (x.2.1 :: keysHeld next).Pairwise fun k l => cb.cmp k l ≠ 0 := by
        apply (keys.pairwise_iff _).mp holding.distinct
        exact fun {k l} differ equal => differ (agrees.symm l k equal)
      have left := keys.filter fun k => cb.cmp key k ≠ 0
      rw [filter_distinct agrees (of_decide_eq_true equal) distinct] at left
      refine ⟨next, rfl, ⟨_, _, stored.dropped low shape after leaves⟩, left.symm, ?_⟩
      exact holding.distinct.filter _

theorem setStep_holdsKeys (holding : HoldsKeys cb s held) (agrees : Agrees cb) (system : Allocator (MnHashItem K V))
    (null : V) (op : SetOp K) :
    ∃ next, setStep cb system null op s = .ok ((), next) ∧ HoldsKeys cb next (setAfter cb held op) := by
  cases op with
  | add key => exact add_holdsKeys holding agrees system null key
  | remove key => exact remove_holdsKeys holding agrees key

theorem execute_holdsKeys (agrees : Agrees cb) (system : Allocator (MnHashItem K V)) (null : V) (ops : List (SetOp K))
    (holding : HoldsKeys cb s held) :
    ∃ answers next, execute (setStep cb system null) ops s = .ok (answers, next) ∧
      HoldsKeys cb next (ops.foldl (setAfter cb) held) := by
  induction ops generalizing s held with
  | nil => exact ⟨[], s, rfl, holding⟩
  | cons op ops ih =>
      rcases setStep_holdsKeys holding agrees system null op with ⟨middle, run, holding'⟩
      rcases ih holding' with ⟨answers, next, rest, holding''⟩
      exact ⟨() :: answers, next, execute_step run rest, holding''⟩

/-- After any additions and removals the table is the set that is meant, each key once. -/
theorem run_holdsKeys {sz : Nat} (agrees : Agrees cb) (system : Allocator (MnHashItem K V)) (null : V)
    (positive : 0 < sz) (ops : List (SetOp K)) {start : HashStore K V} (init : hashInit sz start = .ok ((), s)) :
    ∃ answers next, execute (setStep cb system null) ops s = .ok (answers, next) ∧
      (keysHeld next).Perm (ops.foldl (setAfter cb) []) ∧
      ((ops.foldl (setAfter cb) []).Pairwise fun k l => cb.cmp k l ≠ 0) ∧
      next.vars.elnum = (ops.foldl (setAfter cb) []).length ∧
      ∀ key, ∃ found, hashGetItem cb key next = .ok (found, next) ∧
        (found ≠ none ↔ ∃ k ∈ ops.foldl (setAfter cb) [], cb.cmp key k = 0) := by
  rcases hashInit_ok cb positive start with ⟨s', init', stored, -⟩
  cases init.symm.trans init'
  have empty : HoldsKeys cb s [] := by
    refine ⟨⟨_, _, stored⟩, ?_, .nil⟩
    have none : itemsOf s = [] := by
      rw [stored.items]
      exact List.flatMap_eq_nil_iff.mpr fun _ _ => rfl
    rw [keysHeld, none]
    exact .nil
  rcases execute_holdsKeys agrees system null ops empty with ⟨answers, next, run, holding⟩
  exact ⟨answers, next, run, holding.keys, holding.distinct, holding.counts, holding.finds agrees⟩

/-- One key twice, and another that is removed again. -/
theorem sampleSet_holdsKeys : ∃ answers next,
    execute (setStep (wordKeys none) wordAllocator 0) [.add 1, .add 3, .add 1, .remove 3] (newTable 2) =
      .ok (answers, next) ∧
    (keysHeld next).Perm [1] ∧ (([1] : List UInt64).Pairwise fun k l => (wordKeys none).cmp k l ≠ 0) ∧
    next.vars.elnum = 1 ∧ ∀ key, ∃ found, hashGetItem (wordKeys none) key next = .ok (found, next) ∧
      (found ≠ none ↔ ∃ k ∈ ([1] : List UInt64), (wordKeys none).cmp key k = 0) :=
  run_holdsKeys (wordKeys_agrees none) wordAllocator 0 (by decide) [.add 1, .add 3, .add 1, .remove 3] (newTable_init 2)

end MnCommon.Hash
