import MnCommon.Hash.BackLinks
import MnCommon.Memory.Records

/-! Traversals of a table by a callback that changes it: deleting items while the table is traversed. -/

namespace MnCommon.Hash

open Memory

section Visits

variable {K V A : Type} {cb : Callbacks K V} {system : Allocator (MnHashItem K V)} {s next : HashStore K V}
  {chains : Chains K V} {i size : Nat} {xs : List (Entry K V)} {x : Entry K V} {acc : A}
  {call : Ptr → A → HashProg K V (Int × A)}

/-- What holds of the items that have been seen is carried on by each call. The link to the next item is
read before the call. -/
theorem traverseChain_carries {I : List (Entry K V) → HashStore K V → A → Prop}
    (each : ∀ front x back s acc, xs = front ++ x :: back → I front s acc →
      ∃ n acc' next, s.heap.lookup x.1 = some n ∧ n.next = back.head?.map Prod.fst ∧
        call (some x.1) acc s = .ok ((0, acc'), next) ∧ I (front ++ [x]) next acc')
    (front back : List (Entry K V)) (whole : xs = front ++ back) (here : I front s acc) (fuel : Nat)
    (enough : back.length ≤ fuel) :
    ∃ acc' next, traverseChain call fuel (back.head?.map Prod.fst) acc s = .ok ((0, acc'), next) ∧ I xs next acc' := by
  induction back generalizing front s acc fuel with
  | nil =>
      rw [List.append_nil] at whole
      subst whole
      refine ⟨acc, s, ?_, here⟩
      cases fuel with
      | zero => rfl
      | succ fuel => rfl
  | cons x back ih =>
      rcases each front x back s acc whole here with ⟨n, acc', next, cell, link, called, onward⟩
      cases fuel with
      | zero => exact absurd enough (Nat.not_succ_le_zero _)
      | succ fuel =>
          have whole' : xs = front ++ [x] ++ back := by rw [List.append_assoc, List.singleton_append, whole]
          rcases ih (front ++ [x]) whole' onward fuel (Nat.le_of_succ_le_succ enough) with ⟨last, final, run, after⟩
          refine ⟨last, final, ?_, after⟩
          rw [List.head?_cons, Option.map_some, traverseChain, bind_ok (load_ok cell), bind_ok called, link]
          exact run

/-- The same slot by slot. -/
theorem traverseSlots_carries {J : Nat → HashStore K V → A → Prop}
    (each : ∀ i s acc, i < size → J i s acc →
      ∃ p acc' next, s.vars.table[i]? = some p ∧ traverseChain call s.bound p acc s = .ok ((0, acc'), next) ∧
        J (i + 1) next acc')
    (start more : Nat) (whole : start + more = size) (here : J start s acc) :
    ∃ acc' next, J size next acc' ∧
      traverseSlots call (List.range' start more) acc s =
        if next.vars.table.length < 2 ^ 32 then .ok ((0, acc'), next) else .error .outOfFuel := by
  induction more generalizing start s acc with
  | zero =>
      rw [Nat.add_zero] at whole
      subst whole
      refine ⟨acc, s, here, ?_⟩
      rw [List.range'_zero, traverseSlots, run_bind]
      simp only [vars]
      rw [run_ite]
      rfl
  | succ more ih =>
      rcases each start s acc (by omega) here with ⟨p, acc', next, slot, chain, onward⟩
      rcases ih (start + 1) (by omega) onward with ⟨last, final, after, run⟩
      refine ⟨last, final, after, ?_⟩
      rw [List.range'_succ, traverseSlots, run_bind]
      simp only [vars]
      rw [bind_ok (readSlot_ok slot), bound_bind, bind_ok chain, ← run]
      rfl

theorem hashTraverseItem_carries {J : Nat → HashStore K V → A → Prop}
    (each : ∀ i s' acc, i < s.vars.table.length → J i s' acc →
      ∃ p acc' next, s'.vars.table[i]? = some p ∧ traverseChain call s'.bound p acc s' = .ok ((0, acc'), next) ∧
        J (i + 1) next acc')
    (here : J 0 s acc) :
    ∃ acc' next, J (min s.vars.table.length (2 ^ 32)) next acc' ∧
      hashTraverseItem call acc s =
        if next.vars.table.length < 2 ^ 32 then .ok ((0, acc'), next) else .error .outOfFuel := by
  have low : ∀ i s' acc, i < min s.vars.table.length (2 ^ 32) → J i s' acc →
      ∃ p acc' next, s'.vars.table[i]? = some p ∧ traverseChain call s'.bound p acc s' = .ok ((0, acc'), next) ∧
        J (i + 1) next acc' := by
    intro i s' acc inside
    exact each i s' acc (lt_of_lt_of_le inside (min_le_left _ _))
  rcases traverseSlots_carries low 0 _ (Nat.zero_add _) here with ⟨acc', next, after, run⟩
  refine ⟨acc', next, after, ?_⟩
  rw [hashTraverseItem, run_bind]
  simp only [vars]
  rw [List.range_eq_range', run]

theorem Void.traverseItem (void : Void s) (call : Ptr → A → HashProg K V (Int × A)) (acc : A) :
    hashTraverseItem call acc s = .ok ((0, acc), s) := by
  rcases s with ⟨heap, ⟨data, table, elnum, finished⟩, tick⟩
  rcases void with ⟨rfl, rfl⟩
  rfl

end Visits

variable {K V : Type} {cb : Callbacks K V} {system : Allocator (MnHashItem K V)} {s next : HashStore K V}
  {chains : Chains K V} {good : Nat → Prop} {i size : Nat} {front back xs : List (Entry K V)} {x : Entry K V}
  {P : Ptr → K → V → Bool} {seen : List Ptr}

/-- A callback that deletes what it is called with where the predicate holds, and notes that it has been called. -/
def deleteWhere (cb : Callbacks K V) (P : Ptr → K → V → Bool) (hit : Ptr) (seen : List Ptr) :
    HashProg K V (Int × List Ptr) := do
  let n ← load hit
  if P hit n.key n.value then
    hashDeletePair cb hit
    return (0, seen ++ [hit])
  else
    return (0, seen ++ [hit])

def chosen (P : Ptr → K → V → Bool) (x : Entry K V) : Bool := P (some x.1) x.2.1 x.2.2

def kept (P : Ptr → K → V → Bool) (xs : List (Entry K V)) : List (Entry K V) := xs.filter fun x => !chosen P x

/-- Each item has been visited once, and those for which the predicate holds have gone. -/
structure Sifted (P : Ptr → K → V → Bool) (s : HashStore K V) (seen : List Ptr) (next : HashStore K V) : Prop where
  visits : seen = (itemsOf s).map fun x => some x.1
  once : seen.Nodup
  items : itemsOf next = kept P (itemsOf s)
  counts : next.vars.elnum = (itemsOf next).length
  links : RightLinks next

/-- The operations that the table has been built with; deletions are of stored items. -/
def Builds (op : HashOp K V) (s : HashStore K V) : Prop :=
  match op with
  | .setItem _ _ => True
  | .rehash _ => True
  | .deletePair a => a ∈ (itemsOf s).map Prod.fst
  | _ => False

/-- The chains with all links in order, or no table at all. -/
def Built (cb : Callbacks K V) (s : HashStore K V) : Prop :=
  (∃ chains, Stored cb s chains fun _ => True) ∨ Void s

/-- One item less. -/
theorem Stored.dropped {good' : Nat → Prop} {log : List (K × V)} (stored : Stored cb s chains good)
    (low : i < s.vars.table.length) (shape : chains i = front ++ x :: back)
    (after : Holds cb next (Function.update chains i (front ++ back)) good')
    (leaves : Leaves (s.vars.elnum - 1) log s next) :
    Stored cb next (Function.update chains i (front ++ back)) good' := by
  have there : x ∈ allOf s.vars.table.length chains :=
    mem_allOf.mpr ⟨i, low, shape ▸ List.mem_append_right _ List.mem_cons_self⟩
  have some : 0 < s.vars.elnum := by
    rw [stored.counts]
    exact List.length_pos_of_mem there
  apply stored.change low after leaves
  simp only [shape, List.length_append, List.length_cons]
  omega

theorem Stored.delete (stored : Stored cb s chains fun _ => True) (low : i < s.vars.table.length)
    (shape : chains i = front ++ x :: back) :
    ∃ next, hashDeletePair cb (some x.1) s = .ok ((), next) ∧
      Stored cb next (Function.update chains i (front ++ back)) (fun _ => True) ∧
      next.vars.table.length = s.vars.table.length := by
  rcases hashDeletePair_ok stored.toHolds low shape fun _ => trivial with ⟨next, run, after, leaves⟩
  exact ⟨next, run, stored.dropped low shape after leaves, leaves.length⟩

theorem Stored.mono {good' : Nat → Prop} (stored : Stored cb s chains good) (within : ∀ i, good' i → good i) :
    Stored cb s chains good' :=
  ⟨stored.toHolds.mono within, stored.counts⟩

/-- The links of the other chains stay as they are, and a new item is linked in order. -/
theorem Stored.setItem (stored : Stored cb s chains good) (system : Allocator (MnHashItem K V)) (k : K) (v : V) :
    ∃ next chains', hashSetItem cb system k v s = .ok ((), next) ∧ Stored cb next chains' good := by
  have low := place_lt cb stored.nonempty k
  rcases hashSetItem_ok stored.toHolds system k v with ⟨a, next, run, -, after, leaves⟩
  have counts : s.vars.elnum + 1 + (chains (place cb s.vars.table.length k)).length =
      s.vars.elnum + ((a, k, v) :: chains (place cb s.vars.table.length k)).length := by
    rw [List.length_cons]
    omega
  refine ⟨next, _, run, (stored.change low after leaves counts).mono fun i right => ?_⟩
  by_cases here : i = place cb s.vars.table.length k
  · rw [here, Function.update_self]
    trivial
  · rwa [Function.update_of_ne here]

theorem Stored.rehash (stored : Stored cb s chains good) (run : hashRehash cb size s = .ok ((), next)) :
    Built cb next := by
  cases size with
  | zero =>
      rcases rehash_none stored run with ⟨same, empty⟩
      have counts := stored.counts
      rw [empty, List.length_nil] at counts
      rw [same]
      exact .inr ⟨rfl, counts⟩
  | succ size =>
      rcases hashRehash_ok stored size.succ_pos (hashRehash_countable stored run) with ⟨next', run', stored', -⟩
      cases run.symm.trans run'
      exact .inl ⟨_, stored'⟩

theorem Void.rehashed (void : Void s) (run : hashRehash cb size s = .ok ((), next)) : Built cb next := by
  cases (void.rehash size).symm.trans run
  cases size with
  | zero => exact .inr ⟨rfl, void.counts⟩
  | succ size => exact .inl ⟨_, void.emptied_stored cb size.succ_pos⟩

theorem builds_built {op : HashOp K V} {answer : Answer K V} (built : Built cb s) (builds : Builds op s)
    (stepped : step cb system op s = .ok (answer, next)) : Built cb next := by
  rcases built with ⟨chains, stored⟩ | void
  · cases op with
    | setItem k v =>
        rcases stored.setItem system k v with ⟨next', chains', run, stored'⟩
        rw [step, bind_ok run] at stepped
        cases stepped
        exact .inl ⟨_, stored'⟩
    | rehash sz =>
        rcases of_run_bind stepped with ⟨⟨⟩, middle, run, later⟩
        cases later
        exact stored.rehash run
    | deletePair a =>
        rcases List.mem_map.mp builds with ⟨x, inside, rfl⟩
        rcases stored.split inside with ⟨i, low, front, back, shape⟩
        rcases stored.delete low shape with ⟨next', run, stored', -⟩
        rw [step, bind_ok run] at stepped
        cases stepped
        exact .inl ⟨_, stored'⟩
    | _ => exact builds.elim
  · cases op with
    | setItem k v => exact absurd stepped (void.not_stepped trivial)
    | rehash sz =>
        rcases of_run_bind stepped with ⟨⟨⟩, middle, run, later⟩
        cases later
        exact void.rehashed run
    | deletePair a =>
        rw [Builds, void.items] at builds
        cases builds
    | _ => exact builds.elim

theorem Initialised.built (initialised : Initialised s) : Built cb s := by
  rcases initialised.stored cb with ⟨stored, -⟩ | ⟨void, -⟩
  · exact .inl ⟨_, stored⟩
  · exact .inr void

theorem reachable_built (reached : Reachable (step cb system) Initialised Builds s) : Built cb s := by
  apply reached.invariant (Built cb)
  · exact fun s initialised => initialised.built
  · intro op s answer next built builds stepped
    exact builds_built built builds stepped

/-- The chains when the traversal comes to a slot. -/
def cut (P : Ptr → K → V → Bool) (chains : Chains K V) (i : Nat) : Chains K V :=
  fun j => if j < i then kept P (chains j) else chains j

theorem cut_here (P : Ptr → K → V → Bool) (chains : Chains K V) (i : Nat) : cut P chains i i = chains i :=
  if_neg (Nat.lt_irrefl i)

theorem cut_done (P : Ptr → K → V → Bool) (chains : Chains K V) (i : Nat) :
    Function.update (cut P chains i) i (kept P (chains i)) = cut P chains (i + 1) := by
  funext j
  rw [Function.update_apply, cut, cut]
  by_cases here : j = i
  · rw [if_pos here, if_pos (by omega), here]
  · rw [if_neg here]
    by_cases before : j < i
    · rw [if_pos before, if_pos (by omega)]
    · rw [if_neg before, if_neg (by omega)]

theorem allOf_succ (chains : Chains K V) (i : Nat) : allOf (i + 1) chains = allOf i chains ++ chains i := by
  rw [allOf, List.range_succ, List.flatMap_append, List.flatMap_singleton, allOf]

theorem allOf_cut (P : Ptr → K → V → Bool) (chains : Chains K V) (size : Nat) :
    allOf size (cut P chains size) = kept P (allOf size chains) := by
  rw [allOf, allOf, kept, List.filter_flatMap]
  apply List.flatMap_congr
  intro j inside
  exact if_pos (List.mem_range.mp inside)

def address (x : Entry K V) : Ptr := some x.1

/-- In front of `back` in the chain of slot `i`. -/
structure Sifting (cb : Callbacks K V) (P : Ptr → K → V → Bool) (chains : Chains K V) (size i : Nat)
    (front back : List (Entry K V)) (s : HashStore K V) (seen : List Ptr) : Prop where
  stored : Stored cb s (Function.update (cut P chains i) i (kept P front ++ back)) fun _ => True
  length : s.vars.table.length = size
  visited : seen = (allOf i chains ++ front).map address

theorem Sifting.low (sifting : Sifting cb P chains size i front back s seen) (low : i < size) :
    i < s.vars.table.length := sifting.length ▸ low

/-- One call of the callback. -/
theorem Sifting.call (sifting : Sifting cb P chains size i front (x :: back) s seen)
    (low : i < size) :
    ∃ n seen' next, s.heap.lookup x.1 = some n ∧ n.next = back.head?.map Prod.fst ∧
      deleteWhere cb P (some x.1) seen s = .ok ((0, seen'), next) ∧
      Sifting cb P chains size i (front ++ [x]) back next seen' := by
  have low' := sifting.low low
  have seg := sifting.stored.seg low'
  rw [Function.update_self] at seg
  rcases seg.middle with ⟨n, cell, pair, -, tail⟩
  have link : n.next = back.head?.map Prod.fst := tail.head_eq
  have same : chosen P x = P (some x.1) n.key n.value := by
    rw [chosen, ← pair]
    rfl
  have noted : seen ++ [some x.1] = (allOf i chains ++ (front ++ [x])).map address := by
    rw [← List.append_assoc, List.map_append, ← sifting.visited]
    rfl
  by_cases goes : P (some x.1) n.key n.value = true
  · have shape : Function.update (cut P chains i) i (kept P front ++ x :: back) i = kept P front ++ x :: back :=
      Function.update_self ..
    have left : kept P (front ++ [x]) = kept P front := by
      rw [← same] at goes
      simp [kept, goes]
    rcases sifting.stored.delete low' shape with ⟨next, run, stored, length⟩
    rw [Function.update_idem] at stored
    refine ⟨n, _, next, cell, link, ?_, ?_, length.trans sifting.length, noted⟩
    · rw [deleteWhere, bind_ok (load_ok cell), run_ite, if_pos goes, bind_ok run]
      rfl
    · rw [left]
      exact stored
  · have left : kept P (front ++ [x]) ++ back = kept P front ++ x :: back := by
      rw [← same] at goes
      simp [kept, goes]
    refine ⟨n, _, s, cell, link, ?_, ?_, sifting.length, noted⟩
    · rw [deleteWhere, bind_ok (load_ok cell), run_ite, if_neg goes]
      rfl
    · rw [left]
      exact sifting.stored

/-- The whole chain of a slot. -/
theorem Sifting.chain (stored : Stored cb s (cut P chains i) fun _ => True) (length : s.vars.table.length = size)
    (low : i < size) (visited : seen = (allOf i chains).map address) :
    ∃ p seen' next, s.vars.table[i]? = some p ∧
      traverseChain (deleteWhere cb P) s.bound p seen s = .ok ((0, seen'), next) ∧
      Stored cb next (cut P chains (i + 1)) (fun _ => True) ∧ next.vars.table.length = size ∧
      seen' = (allOf (i + 1) chains).map address := by
  have low' : i < s.vars.table.length := length ▸ low
  have first : Sifting cb P chains size i [] (chains i) s seen := by
    refine ⟨?_, length, ?_⟩
    · rw [kept, List.filter_nil, List.nil_append, ← cut_here P chains i, Function.update_eq_self]
      exact stored
    · rw [List.append_nil, visited]
  have head := stored.head low'
  have short := stored.short low'
  rw [cut_here] at head short
  have each : ∀ front x back s seen, chains i = front ++ x :: back →
      (∃ back, chains i = front ++ back ∧ Sifting cb P chains size i front back s seen) →
      ∃ n seen' next, s.heap.lookup x.1 = some n ∧ n.next = back.head?.map Prod.fst ∧
        deleteWhere cb P (some x.1) seen s = .ok ((0, seen'), next) ∧
        ∃ back, chains i = front ++ [x] ++ back ∧ Sifting cb P chains size i (front ++ [x]) back next seen' := by
    intro front x back s seen shape here
    rcases here with ⟨rest, shape', sifting⟩
    obtain rfl : rest = x :: back := List.append_cancel_left (shape'.symm.trans shape)
    rcases sifting.call low with ⟨n, seen', next, cell, link, run, after⟩
    refine ⟨n, seen', next, cell, link, run, back, ?_, after⟩
    rw [List.append_assoc, List.singleton_append, shape]
  rcases traverseChain_carries each [] (chains i) rfl ⟨chains i, rfl, first⟩ s.bound
    (short.trans (Nat.le_succ _)) with ⟨seen', next, run, back, shape, last⟩
  obtain rfl : back = [] := List.append_right_eq_self.mp shape.symm
  refine ⟨_, seen', next, head, run, ?_, last.length, ?_⟩
  · have stored' := last.stored
    rwa [List.append_nil, cut_done] at stored'
  · rw [last.visited, ← allOf_succ]

theorem Stored.sifted (stored : Stored cb s chains fun _ => True) (P : Ptr → K → V → Bool) :
    ∃ seen next, hashTraverseItem (deleteWhere cb P) [] s =
        (if s.vars.table.length < 2 ^ 32 then .ok ((0, seen), next) else .error .outOfFuel) ∧
      (s.vars.table.length < 2 ^ 32 → Sifted P s seen next) := by
  have start : cut P chains 0 = chains := funext fun j => if_neg (Nat.not_lt_zero j)
  have each : ∀ i s' seen, i < s.vars.table.length →
      (Stored cb s' (cut P chains i) (fun _ => True) ∧ s'.vars.table.length = s.vars.table.length ∧
        seen = (allOf i chains).map address) →
      ∃ p seen' next, s'.vars.table[i]? = some p ∧
        traverseChain (deleteWhere cb P) s'.bound p seen s' = .ok ((0, seen'), next) ∧
        Stored cb next (cut P chains (i + 1)) (fun _ => True) ∧ next.vars.table.length = s.vars.table.length ∧
        seen' = (allOf (i + 1) chains).map address := by
    intro i s' seen low here
    exact Sifting.chain here.1 here.2.1 low here.2.2
  rw [← start] at stored
  rcases hashTraverseItem_carries each ⟨stored, rfl, rfl⟩ with ⟨seen, next, ⟨after, length, visited⟩, run⟩
  rw [length] at run
  refine ⟨seen, next, run, fun small => ?_⟩
  rw [Nat.min_eq_left small.le] at after visited
  rw [start] at stored
  have same : seen = (itemsOf s).map address := by rw [visited, stored.items]
  have items : itemsOf next = kept P (itemsOf s) := by rw [after.items, stored.items, length, allOf_cut]
  refine ⟨same, ?_, items, ?_, after.toHolds.rightLinks⟩
  · have distinct := stored.distinct
    rw [← stored.items] at distinct
    rw [same]
    have lifted := distinct.map (Option.some_injective Addr)
    rwa [List.map_map] at lifted
  · rw [after.counts, after.items]

/-- A run without faults and the size of the table behind it. -/
theorem execute_sized {ops : List (HashOp K V)} {answers : List (Answer K V)}
    (ran : (execute (step cb system) ops s).map (fun done => (done.1, done.2.vars.table.length)) =
      .ok (answers, size)) :
    ∃ next, execute (step cb system) ops s = .ok (answers, next) ∧ next.vars.table.length = size := by
  cases shape : execute (step cb system) ops s with
  | error fault =>
      rw [shape] at ran
      cases ran
  | ok done =>
      rw [shape] at ran
      rcases Prod.mk.inj (Except.ok.inj ran) with ⟨told, length⟩
      exact ⟨done.2, congrArg (fun all => Except.ok (all, done.2)) told, length⟩

/-- Three items, two of them in one chain. -/
def trioOps : List (HashOp UInt64 UInt64) := [.setItem 1 10, .setItem 3 31, .setItem 2 20]

theorem newTable_endless {sz : Nat} (large : 2 ^ 32 ≤ sz) :
    hashTraverseItem (deleteWhere (wordKeys none) fun _ _ _ => true) [] (newTable sz) = .error .outOfFuel := by
  have length : (newTable sz).vars.table.length = sz := List.length_replicate
  have empty : allOf (newTable sz).vars.table.length (fun _ => ([] : List (Entry UInt64 UInt64))) = [] :=
    List.flatMap_eq_nil_iff.mpr fun _ _ => rfl
  have stored : Stored (wordKeys none) (newTable sz) (fun _ => []) fun _ => True := by
    refine ⟨holds_cleared _ (by omega : 0 < sz) rfl, ?_⟩
    rw [empty]
    rfl
  rcases stored.sifted fun _ _ _ => true with ⟨seen, next, run, -⟩
  rw [run, length]
  exact if_neg (Nat.not_lt.mpr large)

end MnCommon.Hash
