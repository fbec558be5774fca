import MnCommon.IndexedList.Runs
import MnCommon.Memory.Visit

/-! Indexed lists over runs in which requests are refused and `init` fails, and what their iterators show. -/

namespace MnCommon.IndexedList

open Memory

variable {D : Type} {s next : ListStore D} {rows : Nat → List Addr}

/-- The call returns and leaves every list in order, whether it succeeds or not. -/
def Usable (system : System D) (op : ListOp D) (s : ListStore D) : Prop :=
  ∃ answer next, step system op s = .ok (answer, next) ∧ ∀ l, next.vars.live l = true → InOrder next l

/-- A call that is allowed, and if it fails, does so where that is harmless. -/
def Careful (system : System D) (op : ListOp D) (s : ListStore D) : Prop :=
  Permitted op s ∧ Fits op ∧ Harmless system op s

theorem Sound.usable (system : System D) (sound : Sound s rows) (op : ListOp D) (careful : Careful system op s) :
    ∃ answer next, step system op s = .ok (answer, next) ∧ ∃ rows', Sound next rows' := by
  rcases step_spec system sound op careful.1 careful.2.1 with ⟨answer, next, stepped, ends⟩
  exact ⟨answer, next, stepped, ends.sound careful.2.2⟩

/-- Lists are in order after all calls of a run whose failures are harmless. -/
theorem usable_of_careful (system : System D) {ops : List (ListOp D)} (start : ∀ l, s.vars.live l = false)
    (run : Along (step system) (Careful system) ops s) : Along (step system) (Usable system) ops s := by
  have down : ∀ l, s.vars.live l ≠ true := fun l up => absurd ((start l).symm.trans up) nofun
  have first : ∃ rows, Sound s rows :=
    ⟨fun _ => [], fun l up => absurd up (down l), fun l _ up => absurd up (down l)⟩
  have locally : ∀ op s, (∃ rows, Sound s rows) → Careful system op s → Usable system op s := by
    intro op s ⟨rows, sound⟩ careful
    rcases sound.usable system op careful with ⟨answer, next, stepped, rows', sound'⟩
    exact ⟨answer, next, stepped, fun l up => ⟨rows' l, (sound'.linked l up).toConsistent⟩⟩
  have keeps : ∀ op s answer next, (∃ rows, Sound s rows) → Careful system op s →
      step system op s = .ok (answer, next) → ∃ rows, Sound next rows := by
    intro op s answer next ⟨rows, sound⟩ careful stepped
    rcases sound.usable system op careful with ⟨answer', next', stepped', sound'⟩
    cases stepped.symm.trans stepped'
    exact sound'
  exact Along.of_invariant locally keeps first run

instance (system : System D) (tick count : Nat) : Decidable (Granted system tick count) :=
  inferInstanceAs (Decidable (system.grants tick = true ∧ count < system.space))

instance (flags : UInt32) (lst : ListT D) (calls : Nat) : Decidable (Reinits flags lst calls) :=
  inferInstanceAs (Decidable (saves flags = true ∨ ∀ k < lst.elnum,
    initAnswer lst (calls + k * (finiCalls lst + initCalls lst) + finiCalls lst) = 0))

instance (system : System D) (n : Nat) (flags : UInt32) (lst : ListT D) (s : ListStore D) :
    Decidable (SafeGrowth system n flags lst s) :=
  inferInstanceAs (Decidable (¬ Reinits flags lst s.vars.calls ∨ system.grants s.tick = false ∨
    (lst.elnum = 0 ∧ ¬ Granted system (s.tick + 1) s.heap.keys.card) ∨
    (n < 2 ^ 32 ∧ ∀ k < n - lst.elnum, Granted system (s.tick + 1 + k) (s.heap.keys.card + k) ∧
      initAnswer lst (s.vars.calls + reinitCalls flags lst + k) = 0)))

instance (system : System D) (n : Nat) (flags : UInt32) (lst : ListT D) (s : ListStore D) :
    Decidable (SafeChange system n flags lst s) :=
  inferInstanceAs (Decidable ((lst.elnum < n → SafeGrowth system n flags lst s) ∧
    (0 < n → n < lst.elnum → system.grants s.tick = true)))

instance (system : System D) (op : ListOp D) (s : ListStore D) : Decidable (Harmless system op s) :=
  match op with
  | .init .. => isTrue trivial
  | .ensureLen l n flags => inferInstanceAs (Decidable (SafeChange system n flags (s.vars.lists l) s))
  | .incr l => inferInstanceAs (Decidable
      (SafeChange system ((s.vars.lists l).elnum + 1) LIST_FLAG_SAVE (s.vars.lists l) s))
  | .decr l => inferInstanceAs (Decidable
      (SafeChange system ((s.vars.lists l).elnum - 1) LIST_FLAG_SAVE (s.vars.lists l) s))
  | .move .. => isTrue trivial

instance (system : System D) (op : ListOp D) (s : ListStore D) : Decidable (Careful system op s) :=
  inferInstanceAs (Decidable (Permitted op s ∧ Fits op ∧ Harmless system op s))

/-- The first growth gets no memory for the index, a later one none for the first entry. -/
theorem sampleFailures_usable : Along (step (sampleSystem [2, 7])) (Usable (sampleSystem [2, 7]))
    [.init 0 8 1 none none, .ensureLen 0 3 LIST_FLAG_SAVE, .ensureLen 0 3 0, .ensureLen 0 0 0, .incr 0, .incr 0]
    noLists :=
  usable_of_careful (sampleSystem [2, 7]) (fun _ => rfl) (by decide +kernel)

/-- Of two new entries the second one gets no memory. -/
theorem failedGrowth_not_usable : ¬ Along (step (sampleSystem [4])) (Usable (sampleSystem [4]))
    [.init 0 8 1 none none, .ensureLen 0 3 LIST_FLAG_SAVE] noLists := by
  intro usable
  let front : List (ListOp Nat) := [.init 0 8 1 none none]
  let growth : ListOp Nat := .ensureLen 0 3 LIST_FLAG_SAVE
  have trace : ((execute (step (sampleSystem [4])) front noLists).map fun first =>
      (step (sampleSystem [4]) growth first.2).map fun last => (last.1, last.2.vars.live 0,
        (last.2.vars.lists 0).elnum, (last.2.vars.lists 0).tail)) =
          .ok (.ok (.code (.listEnsureLen 7), true, 1, none)) := by
    decide +kernel
  rcases of_map_ok trace with ⟨first, ran, known⟩
  have whole : Along (step (sampleSystem [4])) (Usable (sampleSystem [4])) (front ++ [growth]) noLists := usable
  rcases whole.last ran with ⟨answer, next, stepped, inOrder⟩
  rw [stepped] at known
  have fields := Except.ok.inj known
  have live : next.vars.live 0 = true := congrArg (fun x => x.2.1) fields
  have elnum : (next.vars.lists 0).elnum = 1 := congrArg (fun x => x.2.2.1) fields
  have tail : (next.vars.lists 0).tail = none := congrArg (fun x => x.2.2.2) fields
  rcases inOrder 0 live with ⟨xs, consistent⟩
  have last := consistent.chain.tail_eq
  rw [tail, eq_comm, List.getLast?_eq_none_iff] at last
  have count := consistent.count
  rw [elnum, last] at count
  exact absurd count (by decide)

/-! The iterators, which write nothing. -/

section Iterators

variable {S : Type}

/-- What `index` has at an iterator. -/
def entryAt (lst : ListT D) (it : UInt32) : ListProg D (Option Ptr) :=
  if it.toNat < lst.elnum then some <$> getIndex lst it.toNat else pure none

/-- The entry whose data are returned; a NULL in the index is no entry either. -/
def listGetIter (lst : ListT D) (it : UInt32) : ListProg D Ptr := Option.join <$> entryAt lst it

def listFirst (lst : ListT D) : UInt32 × Ptr := (0, lst.head)

/-- The difference becomes an `unsigned`. -/
def listLast (lst : ListT D) : UInt32 × Ptr := (UInt32.ofNat lst.elnum - 1, lst.tail)

def listNext (lst : ListT D) (it : UInt32) : ListProg D (UInt32 × Ptr) := Prod.mk (it + 1) <$> listGetIter lst (it + 1)

def listPrev (lst : ListT D) (it : UInt32) : ListProg D (UInt32 × Ptr) := Prod.mk (it - 1) <$> listGetIter lst (it - 1)

/-- `for (x = list_first(lst, &it); x != NULL; x = list_next(lst, &it))`, with a body that may leave the loop. -/
def forward (f : S → Addr → Int × S) (fuel : Nat) (lst : ListT D) (s : ListStore D) (acc : S) :
    Except Fault (Option (Int × S)) :=
  iterate (fun it => (listNext lst it s).map Prod.fst) f fuel (listFirst lst) acc

/-- The same with `list_last` and `list_prev`. -/
def backward (f : S → Addr → Int × S) (fuel : Nat) (lst : ListT D) (s : ListStore D) (acc : S) :
    Except Fault (Option (Int × S)) :=
  iterate (fun it => (listPrev lst it s).map Prod.fst) f fuel (listLast lst) acc

/-- Its counter is an `unsigned`, too. -/
def listTraverse (tr : S → Ptr → Int × S) (fuel : Nat) (lst : ListT D) (s : ListStore D) (udata : S) :
    Except Fault (Option (Int × S)) := do
  let (first, _) ← entryAt lst 0 s
  iterate (fun i => (entryAt lst (i + 1) s).map fun entry => (i + 1, entry.1)) tr fuel (0, first) udata

/-- All the ways through a list meet the same entries. -/
structure Shows (s : ListStore D) (lst : ListT D) (xs : List Addr) : Prop where
  forward : ∀ (S : Type) (f : S → Addr → Int × S) (acc : S), ∃ fuel,
    forward f fuel lst s acc = .ok (some (visit f xs acc))
  backward : ∀ (S : Type) (f : S → Addr → Int × S) (acc : S), ∃ fuel,
    backward f fuel lst s acc = .ok (some (visit f xs.reverse acc))
  traverse : ∀ (S : Type) (tr : S → Ptr → Int × S) (udata : S), ∃ fuel,
    listTraverse tr fuel lst s udata = .ok (some (visit tr (xs.map some) udata))

variable {lst : ListT D} {xs : List Addr}

theorem getIndex_ok {i : Nat} {p : Ptr} (there : lst.entries[i]? = some p) : getIndex lst i s = .ok (p, s) := by
  cases shape : lst.index with
  | none =>
      rw [ListT.entries, shape] at there
      cases there
  | some entries =>
      rw [ListT.entries, shape] at there
      exact getIndex_spec shape there

theorem map_ok {A B : Type} {x : ListProg D A} {a : A} (g : A → B) (ran : x s = .ok (a, next)) :
    (g <$> x) s = .ok (g a, next) := by
  rw [← bind_pure_comp, bind_ok ran]
  rfl

theorem entryAt_ok (consistent : Consistent s.heap lst xs) (it : UInt32) :
    entryAt lst it s = .ok ((xs.map some)[it.toNat]?, s) := by
  rw [entryAt]
  by_cases inside : it.toNat < lst.elnum
  · have there : lst.entries[it.toNat]? = (xs.map some)[it.toNat]? := by
      rw [← consistent.indexed, List.getElem?_take_of_lt inside]
    have bound : it.toNat < (xs.map some).length := by rwa [List.length_map, ← consistent.count]
    rw [List.getElem?_eq_getElem bound] at there
    rw [if_pos inside, map_ok some (getIndex_ok there), List.getElem?_eq_getElem bound]
  · rw [if_neg inside, List.getElem?_eq_none (by rw [List.length_map, ← consistent.count]; omega)]
    rfl

theorem listGetIter_ok (consistent : Consistent s.heap lst xs) (it : UInt32) :
    listGetIter lst it s = .ok (xs[it.toNat]?, s) := by
  rw [listGetIter, map_ok Option.join (entryAt_ok consistent it), List.getElem?_map]
  cases xs[it.toNat]? <;> rfl

theorem shows_of_consistent (consistent : Consistent s.heap lst xs) (short : lst.elnum < 2 ^ 32) : Shows s lst xs := by
  have few : xs.length < 2 ^ 32 := consistent.count ▸ short
  have next (it : UInt32) : (listNext lst it s).map Prod.fst = .ok (it + 1, xs[(it + 1).toNat]?) := by
    rw [listNext, map_ok _ (listGetIter_ok consistent (it + 1))]
    rfl
  have prev (it : UInt32) : (listPrev lst it s).map Prod.fst = .ok (it - 1, xs[(it - 1).toNat]?) := by
    rw [listPrev, map_ok _ (listGetIter_ok consistent (it - 1))]
    rfl
  have entry (i : UInt32) : ((entryAt lst (i + 1) s).map fun entry => (i + 1, entry.1)) =
      .ok (i + 1, (xs.map some)[(i + 1).toNat]?) := by
    rw [entryAt_ok consistent (i + 1)]
    rfl
  constructor
  · intro S f acc
    have first : listFirst lst = (0, xs[(0 : UInt32).toNat]?) := by
      rw [listFirst, consistent.chain.head_eq, List.head?_eq_getElem?]
      rfl
    refine ⟨xs.length, ?_⟩
    rw [forward, first]
    exact (yields_forward next few 0).iterate (Nat.le_refl _) acc
  · intro S f acc
    have last : listLast lst = (UInt32.ofNat xs.length - 1, xs[(UInt32.ofNat xs.length - 1).toNat]?) := by
      rw [listLast, consistent.chain.tail_eq, consistent.count, getElem?_last few]
    refine ⟨xs.reverse.length, ?_⟩
    rw [backward, last]
    exact (yields_backward prev few).iterate (Nat.le_refl _) acc
  · intro S tr udata
    have few' : (xs.map some).length < 2 ^ 32 := by rwa [List.length_map]
    refine ⟨(xs.map some).length, ?_⟩
    rw [listTraverse, entryAt_ok consistent 0]
    exact (yields_forward entry few' 0).iterate (Nat.le_refl _) udata

theorem sound_of_reachable (system : System D)
    (reached : Reachable (step system) (fun s => ∀ l, s.vars.live l = false) (Careful system) s) :
    ∃ rows, Sound s rows := by
  apply reached.invariant
  · intro s start
    have down : ∀ l, s.vars.live l ≠ true := fun l up => absurd ((start l).symm.trans up) nofun
    exact ⟨fun _ => [], fun l up => absurd up (down l), fun l _ up => absurd up (down l)⟩
  · rintro op s answer next ⟨rows, sound⟩ careful stepped
    rcases sound.usable system op careful with ⟨answer', next', stepped', sound'⟩
    cases stepped.symm.trans stepped'
    exact sound'

/-- After any run whose failures are harmless the iterators show the chain of every list. -/
theorem run_iterated (system : System D) {ops : List (ListOp D)} {answers : List Answer}
    (start : ∀ l, s.vars.live l = false) (run : Along (step system) (Careful system) ops s)
    (ran : execute (step system) ops s = .ok (answers, next)) (l : Nat) (up : next.vars.live l = true) :
    ∃ xs, Consistent next.heap (next.vars.lists l) xs ∧ Shows next (next.vars.lists l) xs := by
  rcases sound_of_reachable system ((Reachable.start start).execute run ran) with ⟨rows, sound⟩
  have linked := sound.linked l up
  exact ⟨rows l, linked.toConsistent, shows_of_consistent linked.toConsistent linked.short⟩

/-- The second growth is granted what the first one is refused. -/
def growingOps : List (ListOp Nat) :=
  [.init 0 8 1 none none, .ensureLen 0 3 LIST_FLAG_SAVE, .ensureLen 0 3 LIST_FLAG_SAVE]

theorem growingOps_iterated : ∃ next, execute (step (sampleSystem [2])) growingOps noLists =
      .ok ([.code .ok, .code (.listEnsureLen 2), .code .ok], next) ∧
    ∃ xs, Consistent next.heap (next.vars.lists 0) xs ∧ Shows next (next.vars.lists 0) xs := by
  have trace : ((execute (step (sampleSystem [2])) growingOps noLists).map fun last => (last.1, last.2.vars.live 0)) =
      .ok ([.code .ok, .code (.listEnsureLen 2), .code .ok], true) := by
    decide +kernel
  have along : Along (step (sampleSystem [2])) (Careful (sampleSystem [2])) growingOps noLists := by decide +kernel
  rcases of_map_ok trace with ⟨⟨answers, next⟩, ran, known⟩
  rcases Prod.mk.inj known with ⟨rfl, up⟩
  exact ⟨next, ran, run_iterated (sampleSystem [2]) (fun _ => rfl) along ran 0 up⟩

end Iterators

end MnCommon.IndexedList
