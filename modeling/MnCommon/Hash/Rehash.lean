import MnCommon.Hash.Sweep

/-! Moving all items into a new table. -/

namespace MnCommon.Hash

open Memory

variable {K V A : Type} {cb : Callbacks K V} {system : Allocator (MnHashItem K V)} {s next : HashStore K V}
  {chains : Chains K V} {good : Nat → Prop} {i sz : Nat} {a : Addr} {n : MnHashItem K V} {key : K} {p : Ptr}
  {xs rest : List (Entry K V)} {call : Ptr → A → HashProg K V (Int × A)} {f : A → Entry K V → A}

/-- A callback that leaves the table alone and never ends the traversal. -/
def Quiet (call : Ptr → A → HashProg K V (Int × A)) (f : A → Entry K V → A) (s : HashStore K V)
    (xs : List (Entry K V)) : Prop :=
  ∀ x ∈ xs, ∀ acc, call (some x.1) acc s = .ok ((0, f acc x), s)

theorem Quiet.answers (quiet : Quiet call f s xs) : Answers call (fun acc x => (0, f acc x)) s xs := quiet

/-- Over a table that is not too long the callback sees each item once, slot by slot. -/
theorem hashTraverseItem_ok (holds : Holds cb s chains good)
    (quiet : Quiet call f s (allOf s.vars.table.length chains)) (acc : A) :
    hashTraverseItem call acc s =
      if s.vars.table.length < 2 ^ 32 then .ok ((0, (allOf s.vars.table.length chains).foldl f acc), s)
      else .error .outOfFuel := by
  have indices : ∀ i ∈ List.range (min s.vars.table.length (2 ^ 32)), i < s.vars.table.length := fun i inside =>
    (List.mem_range.mp inside).trans_le (Nat.min_le_left _ _)
  have fewer : Quiet call f s ((List.range (min s.vars.table.length (2 ^ 32))).flatMap chains) := by
    intro x inside
    rcases List.mem_flatMap.mp inside with ⟨i, member, there⟩
    exact quiet x (mem_allOf.mpr ⟨i, indices i member, there⟩)
  rw [hashTraverseItem, run_bind]
  simp only [vars]
  rw [traverseSlots_sweep holds _ indices fewer.answers, sweep_fold]
  simp only [ne_eq, not_true_eq_false, false_or]
  by_cases small : s.vars.table.length < 2 ^ 32
  · rw [if_pos small, if_pos small, Nat.min_eq_left small.le, allOf]
  · rw [if_neg small, if_neg small]

/-- A fold that collects. -/
theorem foldl_collect {B C : Type} (g : B → C) (xs : List B) (acc : List C) :
    xs.foldl (fun acc x => acc ++ [g x]) acc = acc ++ xs.map g := by
  induction xs generalizing acc with
  | nil => rw [List.foldl_nil, List.map_nil, List.append_nil]
  | cons x rest ih => rw [List.foldl_cons, ih, List.map_cons, List.append_assoc, List.singleton_append]

theorem hashTraverse_ok (holds : Holds cb s chains good) :
    hashTraverse (fun key value acc => pure (0, acc ++ [(key, value)])) [] s =
      if s.vars.table.length < 2 ^ 32 then .ok ((0, (allOf s.vars.table.length chains).map Prod.snd), s)
      else .error .outOfFuel := by
  have quiet : Quiet (fun hit acc => do
      let n ← load hit
      pure (0, acc ++ [(n.key, n.value)])) (fun acc x => acc ++ [x.2]) s (allOf s.vars.table.length chains) := by
    intro x inside acc
    rcases mem_allOf.mp inside with ⟨i, low, there⟩
    rcases holds.cell low there with ⟨n, cell, pair⟩
    apply (bind_ok (load_ok cell) _).trans
    have same : (n.key, n.value) = x.2 := pair
    rw [run_pure, same]
  rw [hashTraverse, hashTraverseItem_ok holds quiet, foldl_collect Prod.snd, List.nil_append]

/-- The items in the order in which `hash_rehash` goes through them. -/
theorem myRehash_ok (holds : Holds cb s chains good) :
    hashTraverseItem myRehash [] s =
      if s.vars.table.length < 2 ^ 32 then
        .ok ((0, (allOf s.vars.table.length chains).map fun x => some x.1), s)
      else .error .outOfFuel := by
  have quiet : Quiet (K := K) (V := V) myRehash (fun tmp x => tmp ++ [some x.1]) s
      (allOf s.vars.table.length chains) := fun x _ tmp => rfl
  rw [hashTraverseItem_ok holds quiet, foldl_collect fun x : Entry K V => some x.1, List.nil_append]

/-- One turn of the loop: an item that is in no chain comes to the front of its own. -/
theorem rehashItem_ok (holds : Holds cb s chains fun _ => True) (cell : s.heap.lookup a = some n)
    (away : ∀ x ∈ allOf s.vars.table.length chains, x.1 ≠ a) :
    ∃ next, rehashItem cb s.vars.table.length (some a) s = .ok ((), next) ∧
      Holds cb next (Function.update chains (place cb s.vars.table.length n.key)
        ((a, pairOf n) :: chains (place cb s.vars.table.length n.key))) (fun _ => True) ∧
      (∀ c, c ≠ a → (∀ x ∈ allOf s.vars.table.length chains, x.1 ≠ c) → next.heap.lookup c = s.heap.lookup c) ∧
      Leaves s.vars.elnum s.vars.finished s next := by
  have low := place_lt cb holds.nonempty n.key
  generalize here : place cb s.vars.table.length n.key = i at low
  have got : arrayGet ((cb.hashfn n.key).toNat % s.vars.table.length) s = .ok (some (s.vars.data, i), s) := by
    have inside := low
    rw [← here, place] at inside
    simp only [arrayGet, run_bind, vars, run_pure, if_pos inside, ← here, place]
  have head := holds.fresh_head low away
  have stable : ∀ h, readSlot (some (s.vars.data, i)) { s with heap := h } =
      .ok ((chains i).head?.map Prod.fst, { s with heap := h }) := fun h => readSlot_ok (holds.head low)
  rcases linkFirst_ok (some (s.vars.data, i)) cell (stable s.heap) stable head (holds.head_cell low) with
    ⟨h, linked, cell', pushed⟩
  have written := writeSlot_ok (s := { s with heap := h }) low (some a)
  have all : Function.update (fun _ => True) i True = fun _ : Nat => True := Function.update_eq_self i _
  let next : HashStore K V := ⟨h, { s.vars with table := s.vars.table.set i (some a) }, s.tick⟩
  refine ⟨next, ?_, ?_, fun c other apart => ?_, rfl, List.length_set .., rfl, rfl⟩
  · rw [rehashItem, bind_ok (load_ok cell), bind_ok got, run_ite, if_neg (Option.some_ne_none _), bind_ok linked]
    exact written
  · let last : MnHashItem K V :=
      { n with bucket := some (s.vars.data, i), prev := none, next := (chains i).head?.map Prod.fst }
    have after : Holds cb next (Function.update chains i ((a, pairOf last) :: chains i))
        (Function.update (fun _ => True) i True) :=
      holds.push low rfl rfl pushed cell' rfl (fun _ => ⟨rfl, rfl⟩) here away
    rwa [all] at after
  · refine pushed.2 c other fun first => ?_
    rcases Option.map_eq_some_iff.mp first with ⟨x, top, same⟩
    exact apart x (mem_allOf.mpr ⟨i, low, List.mem_of_head? top⟩) same

/-- What the loop of `hash_rehash` makes of the chains: later items come first. -/
def rechained (cb : Callbacks K V) (sz : Nat) (xs : List (Entry K V)) (chains : Chains K V) : Chains K V :=
  fun i => (xs.filter fun x => place cb sz x.2.1 = i).reverse ++ chains i

theorem rechained_cons (cb : Callbacks K V) (sz : Nat) (x : Entry K V) (xs : List (Entry K V)) (chains : Chains K V) :
    rechained cb sz (x :: xs) chains = rechained cb sz xs
      (Function.update chains (place cb sz x.2.1) (x :: chains (place cb sz x.2.1))) := by
  funext i
  rw [rechained, rechained, Function.update_apply]
  by_cases here : place cb sz x.2.1 = i
  · rw [List.filter_cons, if_pos (decide_eq_true here), List.reverse_cons, List.append_assoc, if_pos here.symm, here,
      List.singleton_append]
  · rw [List.filter_cons, if_neg (mt of_decide_eq_true here), if_neg (Ne.symm here)]

theorem rehashItems_ok (holds : Holds cb s chains fun _ => True) (once : (xs.map Prod.fst).Nodup)
    (cells : ∀ x ∈ xs, ∃ n, s.heap.lookup x.1 = some n ∧ pairOf n = x.2)
    (away : ∀ x ∈ xs, ∀ y ∈ allOf s.vars.table.length chains, y.1 ≠ x.1) :
    ∃ next, rehashItems cb s.vars.table.length (xs.map fun x => some x.1) s = .ok ((), next) ∧
      Holds cb next (rechained cb s.vars.table.length xs chains) (fun _ => True) ∧
      (allOf s.vars.table.length (rechained cb s.vars.table.length xs chains)).Perm
        (xs ++ allOf s.vars.table.length chains) ∧
      Leaves s.vars.elnum s.vars.finished s next := by
  induction xs generalizing s chains with
  | nil =>
      have same : rechained cb s.vars.table.length [] chains = chains := rfl
      exact ⟨s, rfl, same ▸ holds, .refl _, rfl, rfl, rfl, rfl⟩
  | cons x rest ih =>
      rcases List.nodup_cons.mp once with ⟨new, once⟩
      rcases cells x List.mem_cons_self with ⟨n, cell, pair⟩
      have key_eq : n.key = x.2.1 := congrArg Prod.fst pair
      rcases rehashItem_ok holds cell (away x List.mem_cons_self) with ⟨mid, turn, after, kept, leaves⟩
      have low := place_lt cb holds.nonempty x.2.1
      have whole : ((x.1, pairOf n) : Entry K V) = x := by rw [pair]
      rw [key_eq, whole] at after
      have moved : (allOf s.vars.table.length (Function.update chains (place cb s.vars.table.length x.2.1)
          (x :: chains (place cb s.vars.table.length x.2.1)))).Perm (x :: allOf s.vars.table.length chains) := by
        apply (List.perm_append_right_iff (chains (place cb s.vars.table.length x.2.1))).mp
        exact (allOf_update chains low _).trans List.perm_middle
      have further : ∀ y ∈ rest, y.1 ≠ x.1 := fun y inside same => new (same ▸ List.mem_map_of_mem inside)
      rw [← leaves.length] at moved after
      have cells' : ∀ y ∈ rest, ∃ n, mid.heap.lookup y.1 = some n ∧ pairOf n = y.2 := by
        intro y inside
        rw [kept y.1 (further y inside) (away y (List.mem_cons_of_mem _ inside))]
        exact cells y (List.mem_cons_of_mem _ inside)
      have away' : ∀ y ∈ rest, ∀ z ∈ allOf mid.vars.table.length (Function.update chains
          (place cb mid.vars.table.length x.2.1) (x :: chains (place cb mid.vars.table.length x.2.1))), z.1 ≠ y.1 := by
        intro y inside z there
        rcases List.mem_cons.mp (moved.mem_iff.mp there) with rfl | old
        · exact (further y inside).symm
        · rw [leaves.length] at old
          exact away y (List.mem_cons_of_mem _ inside) z old
      rcases ih after once cells' away' with ⟨next, run, later, perm, leaves'⟩
      rw [leaves.length] at run later perm moved
      rw [← rechained_cons] at later perm
      refine ⟨next, ?_, later, ?_, leaves'.data.trans leaves.data, leaves'.length.trans leaves.length,
        leaves'.elnum.trans leaves.elnum, leaves'.finished.trans leaves.finished⟩
      · rw [List.map_cons, rehashItems, bind_ok turn]
        exact run
      · exact perm.trans ((moved.append_left rest).trans List.perm_middle)

theorem Holds.distinct (holds : Holds cb s chains good) : ((allOf s.vars.table.length chains).map Prod.fst).Nodup := by
  rw [allOf, List.map_flatMap, List.nodup_flatMap]
  constructor
  · exact fun i inside => holds.once i (List.mem_range.mp inside)
  · have indices : (List.range s.vars.table.length).Pairwise fun i j =>
        (i < s.vars.table.length ∧ j < s.vars.table.length) ∧ i ≠ j := by
      apply List.Pairwise.imp_of_mem (R := (· ≠ ·)) _ List.nodup_range
      exact fun first second other => ⟨⟨List.mem_range.mp first, List.mem_range.mp second⟩, other⟩
    apply indices.imp
    rintro i j ⟨⟨low, low'⟩, other⟩ b first second
    rcases List.mem_map.mp first with ⟨x, here, rfl⟩
    rcases List.mem_map.mp second with ⟨y, there, same⟩
    exact holds.apart _ low _ low' other x here y there same.symm

/-- Neither the slots nor the items are too many for the counters of the loops. -/
def Countable (s : HashStore K V) : Prop := s.vars.table.length < 2 ^ 32 ∧ s.vars.elnum < 2 ^ 32

instance (s : HashStore K V) : Decidable (Countable s) := inferInstanceAs (Decidable (_ ∧ _))

/-- The state of `hash_rehash` when its loop begins. -/
def emptied (sz : Nat) (s : HashStore K V) : HashStore K V where
  heap := s.heap
  vars := { s.vars with data := s.vars.data + 1, table := List.replicate sz none }
  tick := s.tick

theorem hashRehash_eq (holds : Holds cb s chains good) (sz : Nat) :
    hashRehash cb sz s =
      if s.vars.table.length < 2 ^ 32 then
        if (allOf s.vars.table.length chains).length = s.vars.elnum then
          if s.vars.elnum < 2 ^ 32 then
            rehashItems cb sz ((allOf s.vars.table.length chains).map fun x => some x.1) (emptied sz s)
          else .error .outOfFuel
        else .error .assertion
      else .error .outOfFuel := by
  rw [hashRehash, run_bind, myRehash_ok holds]
  by_cases small : s.vars.table.length < 2 ^ 32
  · rw [if_pos small, if_pos small]
    by_cases counted : (allOf s.vars.table.length chains).length = s.vars.elnum
    · have checked : check (((allOf s.vars.table.length chains).map fun x => some x.1).length == s.vars.elnum)
          (emptied sz s) = .ok ((), emptied sz s) := by
        rw [List.length_map, counted, beq_self_eq_true]
        rfl
      rw [if_pos counted]
      simp only [ne_eq, not_true_eq_false, if_false]
      apply (bind_ok (rfl : arrayReset sz s = .ok ((), emptied sz s)) _).trans
      apply (bind_ok (rfl : vars (emptied sz s) = .ok ((emptied sz s).vars, emptied sz s)) _).trans
      apply (bind_ok checked _).trans
      rw [run_ite, List.length_map, counted]
      rfl
    · have miscounted : (allOf s.vars.table.length chains).length ≠ (emptied sz s).vars.elnum := counted
      have checked : check (((allOf s.vars.table.length chains).map fun x => some x.1).length ==
          (emptied sz s).vars.elnum) (emptied sz s) = .error .assertion := by
        rw [List.length_map, beq_false_of_ne miscounted]
        rfl
      rw [if_neg counted]
      simp only [ne_eq, not_true_eq_false, if_false]
      apply (bind_ok (rfl : arrayReset sz s = .ok ((), emptied sz s)) _).trans
      apply (bind_ok (rfl : vars (emptied sz s) = .ok ((emptied sz s).vars, emptied sz s)) _).trans
      apply (run_bind _ _ _).trans
      rw [checked]
  · rw [if_neg small, if_neg small]

/-- The items of the table in their new chains. -/
abbrev movedTo (cb : Callbacks K V) (sz : Nat) (s : HashStore K V) (chains : Chains K V) : Chains K V :=
  rechained cb sz (allOf s.vars.table.length chains) fun _ => []

theorem hashRehash_ok (stored : Stored cb s chains good) (positive : 0 < sz) (countable : Countable s) :
    ∃ next, hashRehash cb sz s = .ok ((), next) ∧ Stored cb next (movedTo cb sz s chains) (fun _ => True) ∧
      next.vars.table.length = sz ∧
      (allOf sz (movedTo cb sz s chains)).Perm (allOf s.vars.table.length chains) ∧
      next.vars.elnum = s.vars.elnum ∧ next.vars.finished = s.vars.finished := by
  have length : (emptied sz s).vars.table.length = sz := List.length_replicate
  have empty : allOf (emptied sz s).vars.table.length (fun _ => ([] : List (Entry K V))) = [] :=
    List.flatMap_eq_nil_iff.mpr fun _ _ => rfl
  have cells : ∀ x ∈ allOf s.vars.table.length chains, ∃ n, (emptied sz s).heap.lookup x.1 = some n ∧
      pairOf n = x.2 := by
    intro x inside
    rcases mem_allOf.mp inside with ⟨i, low, there⟩
    exact stored.cell low there
  have away : ∀ x ∈ allOf s.vars.table.length chains, ∀ y : Entry K V,
      y ∈ allOf (emptied sz s).vars.table.length (fun _ => []) → y.1 ≠ x.1 := by
    rw [empty]
    exact fun _ _ _ => nofun
  rcases rehashItems_ok (holds_cleared cb positive rfl) stored.distinct cells away with ⟨next, run, after, perm, leaves⟩
  rw [length] at run after perm
  rw [length] at empty
  rw [empty, List.append_nil] at perm
  have size : next.vars.table.length = sz := leaves.length.trans length
  refine ⟨next, ?_, ⟨after, ?_⟩, size, perm, leaves.elnum, leaves.finished⟩
  · rw [hashRehash_eq stored.toHolds, if_pos countable.1, if_pos stored.counts.symm, if_pos countable.2]
    exact run
  · rw [leaves.elnum, size, perm.length_eq]
    exact stored.counts

theorem hashRehash_countable (stored : Stored cb s chains good) (run : hashRehash cb sz s = .ok ((), next)) :
    Countable s := by
  rw [hashRehash_eq stored.toHolds, if_pos stored.counts.symm] at run
  split at run
  · rename_i slots
    split at run
    · rename_i items
      exact ⟨slots, items⟩
    · cases run
  · cases run

/-- How the items under a key stand after a rehash. -/
theorem rehash_shadowed (stored : Stored cb s chains good) (agrees : Agrees cb)
    (after : Holds cb next (movedTo cb sz s chains) fun _ => True) (size : next.vars.table.length = sz) (key : K) :
    shadowed cb key next = (shadowed cb key s).reverse := by
  have same : ∀ x ∈ allOf s.vars.table.length chains,
      (hit cb key x && decide (place cb sz x.2.1 = place cb sz key)) = hit cb key x := by
    intro x _
    cases found : hit cb key x with
    | false => rfl
    | true =>
        have equal : cb.cmp key x.2.1 = 0 := of_decide_eq_true found
        rw [Bool.true_and, ← agrees.place_eq equal]
        exact decide_eq_true rfl
  calc shadowed cb key next
      = (movedTo cb sz s chains (place cb sz key)).filter (hit cb key) := by rw [after.shadowed agrees, size]
    _ = (((allOf s.vars.table.length chains).filter fun x => place cb sz x.2.1 = place cb sz key).filter
          (hit cb key)).reverse := by
        rw [movedTo, rechained, List.append_nil, List.filter_reverse]
    _ = ((allOf s.vars.table.length chains).filter (hit cb key)).reverse := by
        rw [List.filter_filter, List.filter_congr same]
    _ = (shadowed cb key s).reverse := by rw [shadowed, stored.items]

/-- A table without slots, as `hash_init` with the size zero leaves it. -/
structure Void (s : HashStore K V) : Prop where
  table : s.vars.table = []
  counts : s.vars.elnum = 0

theorem Void.items (void : Void s) : itemsOf s = [] := by
  rw [itemsOf, void.table, List.flatMap_nil]

theorem Void.slotOf_fails (void : Void s) (key : K) : slotOf cb key s = .error .abort := by
  simp only [slotOf, run_bind, vars, arrayGet, void.table, List.length_nil, Nat.not_lt_zero, if_false, run_pure,
    if_true]
  rfl

theorem Void.getItem (void : Void s) (key : K) : hashGetItem cb key s = .ok (none, s) := by
  rw [hashGetItem, run_bind]
  simp only [vars]
  rw [run_ite, if_pos void.counts, run_pure]

theorem Void.step_fails (void : Void s) {op : HashOp K V} (stores : Stores op) :
    step cb system op s = .error .abort := by
  cases op with
  | setItem k v => rw [step, hashSetItem, run_bind, run_bind, void.slotOf_fails]
  | setItemUniq k v => rw [step, hashSetItemUniq, run_bind, run_bind, void.slotOf_fails]
  | removeItem k => rw [step, hashRemoveItem, run_bind, run_bind, void.slotOf_fails]
  | _ => exact stores.elim

theorem Void.not_stepped (void : Void s) {op : HashOp K V} {answer : Answer K V} {next : HashStore K V}
    (stores : Stores op) : step cb system op s ≠ .ok (answer, next) := by
  rw [void.step_fails stores]
  simp

/-- No slot leads to an item. -/
theorem Void.no_slot (void : Void s) (i : Nat) (head : Ptr) : s.vars.table[i]? ≠ some head := by
  rw [void.table, List.getElem?_nil]
  simp

theorem Void.rehash (void : Void s) (sz : Nat) : hashRehash cb sz s = .ok ((), emptied sz s) := by
  rcases s with ⟨heap, ⟨data, table, elnum, finished⟩, tick⟩
  rcases void with ⟨rfl, rfl⟩
  rfl

theorem Void.emptied_stored (void : Void s) (cb : Callbacks K V) (positive : 0 < sz) :
    Stored cb (emptied sz s) (fun _ => []) (fun _ => True) := by
  refine ⟨holds_cleared cb positive rfl, ?_⟩
  have nothing : allOf (emptied sz s).vars.table.length (fun _ => ([] : List (Entry K V))) = [] :=
    List.flatMap_eq_nil_iff.mpr fun _ _ => rfl
  rw [nothing]
  exact void.counts

/-- The states right after `hash_init`. -/
def Initialised (s : HashStore K V) : Prop := ∃ sz start, hashInit sz start = .ok ((), s)

theorem Initialised.stored (initialised : Initialised s) (cb : Callbacks K V) :
    (Stored cb s (fun _ => []) (fun _ => True) ∧ s.vars.finished = []) ∨ (Void s ∧ s.vars.finished = []) := by
  rcases initialised with ⟨sz, start, init⟩
  cases sz with
  | zero =>
      right
      cases init
      exact ⟨⟨rfl, rfl⟩, rfl⟩
  | succ sz =>
      left
      rcases hashInit_ok cb sz.succ_pos start with ⟨next, run, stored, fresh⟩
      rcases Prod.mk.inj (Except.ok.inj (init.symm.trans run)) with ⟨-, rfl⟩
      exact ⟨stored, fresh⟩

theorem reachable_stored (agrees : Agrees cb)
    (reached : Reachable (step cb system) Initialised (fun op _ => Stores op) s) :
    (∃ chains good, Stored cb s chains good) ∨ Void s := by
  have first : ∀ s : HashStore K V, Initialised s → (∃ chains good, Stored cb s chains good) ∨ Void s := by
    intro s initialised
    rcases initialised.stored cb with ⟨stored, -⟩ | ⟨void, -⟩
    · exact .inl ⟨_, _, stored⟩
    · exact .inr void
  apply reached.invariant _ first
  intro op s answer next held stores stepped
  rcases held with stored | void
  · exact .inl (step_stored agrees system op s answer next stored stores stepped)
  · rw [void.step_fails stores] at stepped
    cases stepped

/-- What a client can see of the items under `key` and of all items stays as it is. -/
structure Invisible (cb : Callbacks K V) (key : K) (s next : HashStore K V) : Prop where
  found : ∃ p, hashGetItem cb key s = .ok (p, s) ∧ hashGetItem cb key next = .ok (p, next)
  items : (itemsOf next).Perm (itemsOf s)
  counts : next.vars.elnum = s.vars.elnum

/-- A list with both ends the same, where nothing occurs twice. -/
theorem short_iff_ends (once : (xs.map Prod.fst).Nodup) :
    xs.reverse.head?.map Prod.fst = xs.head?.map Prod.fst ↔ xs.length ≤ 1 := by
  cases xs with
  | nil => exact ⟨fun _ => Nat.zero_le _, fun _ => rfl⟩
  | cons x rest =>
      rw [List.head?_reverse]
      cases rest with
      | nil => exact ⟨fun _ => Nat.le_refl _, fun _ => rfl⟩
      | cons y others =>
          rw [List.getLast?_cons_cons, List.head?_cons]
          constructor
          · intro same
            rcases Option.map_eq_some_iff.mp same with ⟨z, last, equal⟩
            have inside : z ∈ y :: others := List.mem_of_getLast? last
            exact absurd (equal ▸ List.mem_map_of_mem inside) (List.nodup_cons.mp once).1
          · intro short
            rw [List.length_cons, List.length_cons] at short
            omega

theorem Holds.shadowed_distinct (holds : Holds cb s chains good) (key : K) :
    ((Hash.shadowed cb key s).map Prod.fst).Nodup := by
  have once := holds.distinct
  rw [← holds.items] at once
  exact once.sublist (List.filter_sublist.map Prod.fst)

/-- Two items under one key. -/
def twinOps : List (HashOp UInt64 UInt64) := [.setItem 1 10, .setItem 1 11]

theorem twinOps_answers : (execute (step (wordKeys none) wordAllocator) twinOps (newTable 2)).map Prod.fst =
    .ok [.done, .done] := by
  decide +kernel

end MnCommon.Hash
