import MnCommon.Hash.Cleanup
import MnCommon.Hash.Rehash

/-! What each operation can do to the items of the table, to the calls of the finaliser
and to the links that point back. -/

namespace MnCommon.Hash

open Memory

variable {K V : Type} {cb : Callbacks K V} {system : Allocator (MnHashItem K V)} {s next : HashStore K V}
  {chains : Chains K V} {good good' : Nat → Prop} {i sz : Nat} {a : Addr} {key k : K} {v : V} {fine : Prop}
  {xs front back : List (Entry K V)} {x y : Entry K V} {op : HashOp K V} {answer : Answer K V}

/-- The items of the chain of a key. -/
def chainOf (cb : Callbacks K V) (s : HashStore K V) (key : K) : List (Entry K V) :=
  chainItems s s.vars.table[place cb s.vars.table.length key]?.join

theorem Holds.chainOf (holds : Holds cb s chains good) (key : K) :
    chainOf cb s key = chains (place cb s.vars.table.length key) := by
  have low := place_lt cb holds.nonempty key
  rw [Hash.chainOf, holds.head low, Option.join_some, holds.chainItems low]

/-- An item of a chain whose deletion goes by links that are in order, or ends at the
assertion. -/
def Removable (s : HashStore K V) (a : Addr) : Prop :=
  ∃ i head front x back n, s.vars.table[i]? = some head ∧ chainItems s head = front ++ x :: back ∧ x.1 = a ∧
    s.heap.lookup a = some n ∧ (front = [] → n.prev = none ∧ (n.bucket = none ∨ n.bucket = some (s.vars.data, i)))

/-- The chains, with no more items than are counted: some of those that a cleanup has
left behind are counted as well. -/
structure Kept (cb : Callbacks K V) (s : HashStore K V) (chains : Chains K V) (good : Nat → Prop) : Prop
    extends Holds cb s chains good where
  enough : (allOf s.vars.table.length chains).length ≤ s.vars.elnum

/-- A table; where it is `fine`, all of its links are in order. -/
def Tabled (cb : Callbacks K V) (s : HashStore K V) (fine : Prop) : Prop :=
  (∃ chains good, Kept cb s chains good ∧ (fine → ∀ i, good i)) ∨ Void s

/-- An operation after which the links are in order if they were before. -/
def Straight (cb : Callbacks K V) (op : HashOp K V) (s : HashStore K V) : Prop :=
  match op with
  | .setItemUniq key _ => chainOf cb s key = [] ∨ ∃ x ∈ chainOf cb s key, hit cb key x = true
  | .removeItem key => ∀ x ∈ (chainOf cb s key).head?, hit cb key x = true → (chainOf cb s key).tail = []
  | _ => True

/-- Deletions are of items that can be deleted. -/
def Deletes (op : HashOp K V) (s : HashStore K V) : Prop :=
  match op with
  | .deletePair a => Removable s a
  | .deletePairNoFini a => Removable s a
  | _ => True

/-- What an operation does to the items, and what it tells of them. -/
def Moves (cb : Callbacks K V) (op : HashOp K V) (s : HashStore K V) (answer : Answer K V) (next : HashStore K V) :
    Prop :=
  match op with
  | .setItem k v =>
      answer = .done ∧ (∃ a, (itemsOf next).Perm ((a, k, v) :: itemsOf s)) ∧ next.vars.finished = s.vars.finished
  | .setItemUniq k v =>
      (answer = .old none none ∧ (∃ a, (itemsOf next).Perm ((a, k, v) :: itemsOf s)) ∧
        next.vars.finished = s.vars.finished) ∨
      ∃ x ∈ chainOf cb s k, hit cb k x = true ∧ answer = .old (some x.2.1) (some x.2.2) ∧
        (x :: itemsOf next).Perm ((x.1, k, v) :: itemsOf s) ∧ next.vars.finished = finish cb s.vars.finished x.2
  | .getItem _ => next = s ∧ ∃ found : Option (Entry K V), answer = .item (found.map Prod.fst) ∧
      ∀ x ∈ found, x ∈ itemsOf s ∧ ∃ n, s.heap.lookup x.1 = some n ∧ pairOf n = x.2
  | .removeItem _ =>
      (answer = .value none ∧ next = s) ∨
      ∃ x, answer = .value (some x.2.2) ∧ (itemsOf s).Perm (x :: itemsOf next) ∧
        next.vars.finished = s.vars.finished
  | .deletePair a => answer = .done ∧ ∃ x, x.1 = a ∧ (itemsOf s).Perm (x :: itemsOf next) ∧
      next.vars.finished = finish cb s.vars.finished x.2
  | .deletePairNoFini a => answer = .done ∧ ∃ x, x.1 = a ∧ (itemsOf s).Perm (x :: itemsOf next) ∧
      next.vars.finished = s.vars.finished
  | .rehash _ => answer = .done ∧ (itemsOf next).Perm (itemsOf s) ∧ next.vars.finished = s.vars.finished
  | .traverse => next = s ∧ answer = .pairs ((itemsOf s).map Prod.snd)
  | .cleanup => answer = .done ∧ itemsOf next = [] ∧
      ∃ log, next.vars.finished = s.vars.finished ++ log ∧ log.Sublist ((itemsOf s).map Prod.snd)

/-- One chain has changed, and the count with it. -/
theorem Kept.change (kept : Kept cb s chains good) {elnum : Nat} {log : List (K × V)}
    (low : i < s.vars.table.length) (after : Holds cb next (Function.update chains i xs) good')
    (leaves : Leaves elnum log s next) (enough : s.vars.elnum + xs.length ≤ elnum + (chains i).length) :
    Kept cb next (Function.update chains i xs) good' := by
  refine ⟨after, ?_⟩
  have lengths := length_allOf_update chains low xs
  have counted := kept.enough
  rw [leaves.elnum, leaves.length]
  omega

theorem Holds.items_changed (holds : Holds cb s chains good) (low : i < s.vars.table.length)
    (after : Holds cb next (Function.update chains i xs) good')
    (length : next.vars.table.length = s.vars.table.length) :
    (itemsOf next ++ chains i).Perm (itemsOf s ++ xs) := by
  rw [after.items, holds.items, length]
  exact allOf_update chains low xs

theorem Holds.items_pushed (holds : Holds cb s chains good) (low : i < s.vars.table.length)
    (after : Holds cb next (Function.update chains i (x :: chains i)) good')
    (length : next.vars.table.length = s.vars.table.length) : (itemsOf next).Perm (x :: itemsOf s) := by
  apply (List.perm_append_right_iff (chains i)).mp
  exact (holds.items_changed low after length).trans List.perm_middle

theorem Holds.items_dropped (holds : Holds cb s chains good) (low : i < s.vars.table.length)
    (shape : chains i = front ++ x :: back) (after : Holds cb next (Function.update chains i (front ++ back)) good')
    (length : next.vars.table.length = s.vars.table.length) : (itemsOf s).Perm (x :: itemsOf next) := by
  apply (List.perm_append_right_iff (front ++ back)).mp
  have changed := holds.items_changed low after length
  rw [shape] at changed
  calc (itemsOf s ++ (front ++ back)).Perm (itemsOf next ++ (front ++ x :: back)) := changed.symm
    _ |>.Perm (itemsOf next ++ x :: (front ++ back)) := List.perm_middle.append_left _
    _ |>.Perm (x :: itemsOf next ++ (front ++ back)) := List.perm_middle

/-- What is known after an operation that returns. -/
structure Does (cb : Callbacks K V) (op : HashOp K V) (s : HashStore K V) (fine : Prop) (answer : Answer K V)
    (next : HashStore K V) : Prop where
  tabled : Tabled cb next (fine ∧ Straight cb op s)
  moves : Moves cb op s answer next

/-- All links stay in order where those of one chain do. -/
theorem update_fine {g : Prop} (all : fine → ∀ i, good i) (here : fine → g) :
    fine → ∀ j, Function.update good i g j := by
  intro right j
  rw [Function.update_apply]
  split
  · exact here right
  · exact all right j

theorem Kept.setItem (kept : Kept cb s chains good) (all : fine → ∀ i, good i) (system : Allocator (MnHashItem K V))
    (k : K) (v : V) : ∃ answer next, step cb system (.setItem k v) s = .ok (answer, next) ∧
      Does cb (.setItem k v) s fine answer next := by
  have low := place_lt cb kept.nonempty k
  rcases hashSetItem_ok kept.toHolds system k v with ⟨a, next, run, fresh, after, leaves⟩
  have after' := kept.change low after leaves (by rw [List.length_cons]; omega)
  refine ⟨.done, next, ?_, .inl ⟨_, _, after', update_fine (fun right => all right.1) fun _ => trivial⟩, rfl,
    ⟨a, kept.items_pushed low after leaves.length⟩, leaves.finished⟩
  rw [step, bind_ok run]
  rfl

theorem Kept.setItemUniq (kept : Kept cb s chains good) (all : fine → ∀ i, good i)
    (system : Allocator (MnHashItem K V)) (k : K) (v : V) :
    ∃ answer next, step cb system (.setItemUniq k v) s = .ok (answer, next) ∧
      Does cb (.setItemUniq k v) s fine answer next := by
  have low := place_lt cb kept.nonempty k
  have chain := kept.chainOf k
  cases search : visible cb s.vars.table.length chains k with
  | none =>
      rcases hashSetItemUniq_new kept.toHolds system k v search with ⟨a, next, run, fresh, after, leaves⟩
      have after' := kept.change low after leaves (by rw [List.length_cons]; omega)
      refine ⟨.old none none, next, ?_, .inl ⟨_, _, after', ?_⟩,
        .inl ⟨rfl, ⟨a, kept.items_pushed low after leaves.length⟩, leaves.finished⟩⟩
      · rw [step, bind_ok run]
        rfl
      · refine update_fine (fun right => all right.1) fun right => ?_
        rw [← chain]
        rcases right.2 with empty | ⟨x, inside, found⟩
        · exact empty
        · rw [chain] at inside
          rw [visible] at search
          exact absurd found (List.find?_eq_none.mp search x inside)
  | some x =>
      rcases hashSetItemUniq_old kept.toHolds system k v search with
        ⟨next, front, back, run, shape, away, found, after, leaves⟩
      have after' := kept.change low after leaves (by simp only [shape, List.length_append, List.length_cons]; omega)
      have inside : x ∈ chainOf cb s k := by
        rw [chain, shape]
        exact List.mem_append_right _ List.mem_cons_self
      have moved : (x :: itemsOf next).Perm ((x.1, k, v) :: itemsOf s) := by
        apply (List.perm_append_right_iff (front ++ back)).mp
        have changed := kept.items_changed low after leaves.length
        rw [shape] at changed
        calc (x :: itemsOf next ++ (front ++ back)).Perm (itemsOf next ++ x :: (front ++ back)) :=
              List.perm_middle.symm
          _ |>.Perm (itemsOf next ++ (front ++ x :: back)) := List.perm_middle.symm.append_left _
          _ |>.Perm (itemsOf s ++ (front ++ (x.1, k, v) :: back)) := changed
          _ |>.Perm (itemsOf s ++ (x.1, k, v) :: (front ++ back)) := List.perm_middle.append_left _
          _ |>.Perm ((x.1, k, v) :: itemsOf s ++ (front ++ back)) := List.perm_middle
      refine ⟨.old (some x.2.1) (some x.2.2), next, ?_, .inl ⟨_, _, after', fun right => all right.1⟩,
        .inr ⟨x, inside, found, rfl, moved, leaves.finished⟩⟩
      rw [step, bind_ok run]
      rfl

theorem Kept.getItem (kept : Kept cb s chains good) (all : fine → ∀ i, good i)
    (system : Allocator (MnHashItem K V)) (key : K) :
    ∃ answer next, step cb system (.getItem key) s = .ok (answer, next) ∧
      Does cb (.getItem key) s fine answer next := by
  have low := place_lt cb kept.nonempty key
  have counted : s.vars.elnum = 0 → allOf s.vars.table.length chains = [] := by
    intro zero
    have enough := kept.enough
    rw [zero] at enough
    exact List.length_eq_zero_iff.mp (Nat.le_zero.mp enough)
  have run := hashGetItem_ok kept.toHolds key counted
  refine ⟨_, s, ?_, .inl ⟨chains, good, kept, fun right => all right.1⟩, rfl,
    visible cb s.vars.table.length chains key, rfl, fun x found => ?_⟩
  · rw [step, bind_ok run]
    rfl
  · have inside : x ∈ chains (place cb s.vars.table.length key) := List.mem_of_find?_eq_some found
    refine ⟨?_, kept.cell low inside⟩
    rw [kept.items]
    exact mem_allOf.mpr ⟨_, low, inside⟩

theorem Kept.removeItem (kept : Kept cb s chains good) (all : fine → ∀ i, good i)
    (system : Allocator (MnHashItem K V)) (key : K) :
    ∃ answer next, step cb system (.removeItem key) s = .ok (answer, next) ∧
      Does cb (.removeItem key) s fine answer next := by
  have low := place_lt cb kept.nonempty key
  have chain := kept.chainOf key
  cases search : visible cb s.vars.table.length chains key with
  | none =>
      have run := hashRemoveItem_none kept.toHolds key search
      refine ⟨.value none, s, ?_, .inl ⟨chains, good, kept, fun right => all right.1⟩, .inl ⟨rfl, rfl⟩⟩
      rw [step, bind_ok run]
      rfl
  | some x =>
      rcases hashRemoveItem_some kept.toHolds key search with
        ⟨next, front, back, run, shape, away, found, after, leaves⟩
      have after' := kept.change low after leaves (by simp only [shape, List.length_append, List.length_cons]; omega)
      refine ⟨.value (some x.2.2), next, ?_, .inl ⟨_, _, after', ?_⟩,
        .inr ⟨x, rfl, kept.items_dropped low shape after leaves.length, leaves.finished⟩⟩
      · rw [step, bind_ok run]
        rfl
      · refine update_fine (fun right => all right.1) fun right => ?_
        split
        · rename_i first
          subst first
          have straight := right.2
          rw [Straight, chain, shape] at straight
          exact straight x rfl found
        · exact all right.1 _

/-- A first item whose links turn out to be in order. -/
theorem Holds.mend (holds : Holds cb s chains good) (low : i < s.vars.table.length) {n : MnHashItem K V}
    (shape : chains i = x :: back) (cell : s.heap.lookup x.1 = some n) (prev : n.prev = none)
    (bucket : n.bucket = some (s.vars.data, i)) : Holds cb s chains (Function.update good i True) := by
  refine ⟨holds.nonempty, fun j low' => ⟨_, holds.head low', ?_⟩, fun j low' => ?_, holds.placed, holds.once,
    holds.apart⟩
  · by_cases here : j = i
    · subst here
      rw [Function.update_self]
      refine (holds.seg low').weaken.strengthen fun _ y first m known => ?_
      rw [shape] at first
      obtain rfl : x = y := Option.some.inj first
      obtain rfl : n = m := Option.some.inj (cell.symm.trans known)
      exact prev
    · rw [Function.update_of_ne here]
      exact holds.seg low'
  · by_cases here : j = i
    · subst here
      intro _ y first
      rw [shape] at first
      obtain rfl : x = y := Option.some.inj first
      exact ⟨n, cell, bucket⟩
    · rw [Function.update_of_ne here]
      exact holds.bucket j low'

/-- The chain of an item that can be deleted; otherwise its deletion ends at the assertion. -/
theorem Kept.removable (kept : Kept cb s chains good) (removable : Removable s a) :
    (∃ i < s.vars.table.length, ∃ front x back good', chains i = front ++ x :: back ∧ x.1 = a ∧
      Holds cb s chains good' ∧ Linked good' i front ∧ ∀ j, good j → good' j) ∨
      unlinkItem (some a) s = .error .assertion := by
  rcases removable with ⟨i, head, front, x, back, n, slot, shape, rfl, cell, links⟩
  have low : i < s.vars.table.length := (List.getElem?_eq_some_iff.mp slot).1
  obtain rfl : (chains i).head?.map Prod.fst = head := Option.some.inj ((kept.head low).symm.trans slot)
  rw [kept.chainItems low] at shape
  by_cases first : front = []
  · subst first
    rcases links rfl with ⟨prev, bucket | bucket⟩
    · right
      rw [unlinkItem, bind_ok (load_ok cell), run_ite, if_neg (not_not.mpr prev), bucket]
      rfl
    · left
      refine ⟨i, low, [], x, back, _, shape, rfl, kept.mend low shape cell prev bucket, fun _ => ?_, fun j right => ?_⟩
      · rw [Function.update_self]
        trivial
      · rw [Function.update_apply]
        split
        · trivial
        · exact right
  · exact .inl ⟨i, low, front, x, back, good, shape, rfl, kept.toHolds, fun empty => absurd empty first,
      fun _ right => right⟩

theorem Kept.deletePair (kept : Kept cb s chains good) (all : fine → ∀ i, good i)
    (system : Allocator (MnHashItem K V)) (removable : Removable s a)
    (stepped : step cb system (.deletePair a) s = .ok (answer, next)) :
    Does cb (.deletePair a) s fine answer next := by
  rcases kept.removable removable with ⟨i, low, front, x, back, good', shape, rfl, holds, linked, better⟩ | failed
  · have kept' : Kept cb s chains good' := ⟨holds, kept.enough⟩
    rcases hashDeletePair_ok holds low shape linked with ⟨next', run, after, leaves⟩
    rw [step, bind_ok run] at stepped
    cases stepped
    have after' := kept'.change low after leaves (by simp only [shape, List.length_append, List.length_cons]; omega)
    exact ⟨.inl ⟨_, _, after', fun right j => better j (all right.1 j)⟩, rfl, x, rfl,
      holds.items_dropped low shape after leaves.length, leaves.finished⟩
  · rw [step, hashDeletePair, run_bind, run_bind, failed] at stepped
    cases stepped

theorem Kept.deletePairNoFini (kept : Kept cb s chains good) (all : fine → ∀ i, good i)
    (system : Allocator (MnHashItem K V)) (removable : Removable s a)
    (stepped : step cb system (.deletePairNoFini a) s = .ok (answer, next)) :
    Does cb (.deletePairNoFini a) s fine answer next := by
  rcases kept.removable removable with ⟨i, low, front, x, back, good', shape, rfl, holds, linked, better⟩ | failed
  · have kept' : Kept cb s chains good' := ⟨holds, kept.enough⟩
    rcases hashDeletePairNoFini_ok holds low shape linked with ⟨next', run, after, leaves⟩
    rw [step, bind_ok run] at stepped
    cases stepped
    have after' := kept'.change low after leaves (by simp only [shape, List.length_append, List.length_cons]; omega)
    exact ⟨.inl ⟨_, _, after', fun right j => better j (all right.1 j)⟩, rfl, x, rfl,
      holds.items_dropped low shape after leaves.length, leaves.finished⟩
  · rw [step, hashDeletePairNoFini, run_bind, run_bind, failed] at stepped
    cases stepped

theorem Void.emptied_kept (void : Void s) (cb : Callbacks K V) (sz : Nat) : Tabled cb (emptied sz s) fine := by
  cases sz with
  | zero => exact .inr ⟨rfl, void.counts⟩
  | succ sz =>
      have stored := void.emptied_stored cb sz.succ_pos
      exact .inl ⟨_, _, ⟨stored.toHolds, stored.counts.ge⟩, fun _ _ => trivial⟩

/-- Into no slots at all there is nothing that could be moved. -/
theorem rehash_none (stored : Stored cb s chains good) (run : hashRehash cb 0 s = .ok ((), next)) :
    next = emptied 0 s ∧ allOf s.vars.table.length chains = [] := by
  have countable := hashRehash_countable stored run
  rw [hashRehash_eq stored.toHolds, if_pos countable.1, if_pos stored.counts.symm, if_pos countable.2] at run
  cases shape : allOf s.vars.table.length chains with
  | nil =>
      rw [shape] at run
      exact ⟨(Prod.mk.inj (Except.ok.inj run)).2.symm, rfl⟩
  | cons x rest =>
      have inside : x ∈ allOf s.vars.table.length chains := shape ▸ List.mem_cons_self
      rcases mem_allOf.mp inside with ⟨i, low, there⟩
      rcases stored.cell low there with ⟨n, cell, -⟩
      have loaded : load (some x.1) (emptied 0 s) = .ok (n, emptied 0 s) := load_ok cell
      have failed : rehashItem cb 0 (some x.1) (emptied 0 s) = .error .abort := by
        rw [rehashItem, bind_ok loaded]
        simp only [run_bind, arrayGet, vars, emptied, List.replicate_zero, List.length_nil, Nat.not_lt_zero, if_false,
          run_pure, if_true]
        rfl
      rw [shape, List.map_cons, rehashItems, run_bind, failed] at run
      cases run

/-- A rehash that returns has found as many items as are counted. -/
theorem Kept.rehash (kept : Kept cb s chains good) (system : Allocator (MnHashItem K V))
    (stepped : step cb system (.rehash sz) s = .ok (answer, next)) : Does cb (.rehash sz) s fine answer next := by
  rw [step, run_bind] at stepped
  cases run : hashRehash cb sz s with
  | error kind =>
      rw [run] at stepped
      cases stepped
  | ok result =>
      rcases result with ⟨⟨⟩, next'⟩
      rw [run] at stepped
      cases stepped
      have stored : Stored cb s chains good := by
        refine ⟨kept.toHolds, ?_⟩
        rw [hashRehash_eq kept.toHolds] at run
        split at run
        · split at run
          · rename_i counted
            exact counted.symm
          · cases run
        · cases run
      cases sz with
      | succ sz =>
          rcases hashRehash_ok stored sz.succ_pos (hashRehash_countable stored run) with
            ⟨next', run', after, size, perm, counts, finished⟩
          rcases Prod.mk.inj (Except.ok.inj (run.symm.trans run')) with ⟨-, rfl⟩
          refine ⟨.inl ⟨_, _, ⟨after.toHolds, after.counts.ge⟩, fun _ _ => trivial⟩, rfl, ?_, finished⟩
          rw [after.items, size, stored.items]
          exact perm
      | zero =>
          rcases rehash_none stored run with ⟨rfl, empty⟩
          have counts := stored.counts
          rw [empty, List.length_nil] at counts
          have void : Void (emptied 0 s) := ⟨rfl, counts⟩
          refine ⟨.inr void, rfl, ?_, rfl⟩
          rw [void.items, stored.items, empty]

theorem Kept.traverse (kept : Kept cb s chains good) (all : fine → ∀ i, good i) (system : Allocator (MnHashItem K V))
    (stepped : step cb system .traverse s = .ok (answer, next)) : Does cb .traverse s fine answer next := by
  rw [step, run_bind, hashTraverse_ok kept.toHolds] at stepped
  by_cases small : s.vars.table.length < 2 ^ 32
  · rw [if_pos small] at stepped
    cases stepped
    refine ⟨.inl ⟨chains, good, kept, fun right => all right.1⟩, rfl, ?_⟩
    rw [kept.items]
  · rw [if_neg small] at stepped
    cases stepped

theorem Kept.cleanup (kept : Kept cb s chains good) (system : Allocator (MnHashItem K V)) :
    ∃ answer next, step cb system .cleanup s = .ok (answer, next) ∧ Does cb .cleanup s fine answer next := by
  rcases hashCleanup_tallied kept.toHolds with ⟨next, run, after, drained⟩
  have nothing : allOf next.vars.table.length (fun _ => ([] : List (Entry K V))) = [] :=
    List.flatMap_eq_nil_iff.mpr fun _ _ => rfl
  refine ⟨.done, next, ?_, .inl ⟨_, _, ⟨after, ?_⟩, fun _ _ => trivial⟩, rfl, ?_, ?_⟩
  · rw [step, bind_ok run]
    rfl
  · rw [nothing]
    exact Nat.zero_le _
  · rw [after.items, nothing]
  · rw [kept.items]
    exact drained.finished

theorem Void.traverse (void : Void s) :
    hashTraverse (fun key value acc => pure (0, acc ++ [(key, value)])) [] s = .ok ((0, []), s) := by
  rcases s with ⟨heap, ⟨data, table, elnum, finished⟩, tick⟩
  rcases void with ⟨rfl, rfl⟩
  rfl

theorem Void.cleanup (void : Void s) : hashCleanup cb s = .ok ((), s) := by
  rcases s with ⟨heap, ⟨data, table, elnum, finished⟩, tick⟩
  rcases void with ⟨rfl, rfl⟩
  rfl

/-- What is known after an operation on a table without slots. -/
theorem Void.does (void : Void s) (deletes : Deletes op s)
    (stepped : step cb system op s = .ok (answer, next)) : Does cb op s fine answer next := by
  have kept : Tabled cb s (fine ∧ Straight cb op s) := .inr void
  cases op with
  | setItem | setItemUniq | removeItem => exact absurd stepped (void.not_stepped trivial)
  | getItem key =>
      rw [step, bind_ok (void.getItem key)] at stepped
      cases stepped
      exact ⟨kept, rfl, none, rfl, by simp⟩
  | deletePair | deletePairNoFini =>
      rcases deletes with ⟨i, head, -, -, -, -, slot, -⟩
      exact absurd slot (void.no_slot i head)
  | rehash sz =>
      rw [step, bind_ok (void.rehash sz)] at stepped
      cases stepped
      refine ⟨void.emptied_kept cb sz, rfl, ?_, rfl⟩
      have nothing : itemsOf (emptied sz s) = [] := by
        rw [itemsOf]
        apply List.flatMap_eq_nil_iff.mpr
        intro head inside
        rw [List.eq_of_mem_replicate inside]
        rfl
      rw [nothing, void.items]
  | traverse =>
      rw [step, bind_ok void.traverse] at stepped
      cases stepped
      refine ⟨kept, rfl, ?_⟩
      rw [void.items]
      rfl
  | cleanup =>
      rw [step, bind_ok void.cleanup] at stepped
      cases stepped
      refine ⟨kept, rfl, void.items, [], (List.append_nil _).symm, List.nil_sublist _⟩

/-- One operation. -/
theorem Tabled.step (tabled : Tabled cb s fine) (deletes : Deletes op s)
    (stepped : step cb system op s = .ok (answer, next)) : Does cb op s fine answer next := by
  rcases tabled with ⟨chains, good, kept, all⟩ | void
  · cases op with
    | setItem k v =>
        rcases kept.setItem all system k v with ⟨answer', next', run, does⟩
        cases stepped.symm.trans run
        exact does
    | setItemUniq k v =>
        rcases kept.setItemUniq all system k v with ⟨answer', next', run, does⟩
        cases stepped.symm.trans run
        exact does
    | getItem key =>
        rcases kept.getItem all system key with ⟨answer', next', run, does⟩
        cases stepped.symm.trans run
        exact does
    | removeItem key =>
        rcases kept.removeItem all system key with ⟨answer', next', run, does⟩
        cases stepped.symm.trans run
        exact does
    | deletePair a => exact kept.deletePair all system deletes stepped
    | deletePairNoFini a => exact kept.deletePairNoFini all system deletes stepped
    | rehash sz => exact kept.rehash system stepped
    | traverse => exact kept.traverse all system stepped
    | cleanup =>
        rcases kept.cleanup system with ⟨answer', next', run, does⟩
        cases stepped.symm.trans run
        exact does
  · exact void.does deletes stepped

end MnCommon.Hash
