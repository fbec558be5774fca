import MnCommon.IndexedList.Lengths
import MnCommon.Memory.Run

/-! Indexed lists over whole runs. -/

namespace MnCommon.IndexedList

open Memory

variable {D : Type} {s next final : ListStore D} {lst lst' : ListT D} {rows : Nat → List Addr} {xs ys : List Addr}
  {l n : Nat} {b : Bool}

/-- Every list that is set up is in order, and no entry is in two of them. -/
structure Sound (s : ListStore D) (rows : Nat → List Addr) : Prop where
  linked : ∀ l, s.vars.live l = true → Linked s.heap (s.vars.lists l) (rows l)
  apart : ∀ l r, s.vars.live l = true → s.vars.live r = true → l ≠ r → ∀ a ∈ rows l, a ∉ rows r

/-- One list is replaced; it is set up if `b` says so. -/
theorem Sound.replace (sound : Sound s rows) (rebuilt : Rebuilt xs ys s next)
    (beside : ∀ k, k ≠ l → s.vars.live k = true → ∀ a ∈ rows k, a ∉ xs)
    (linked : b = true → Linked next.heap lst' ys) (heap : final.heap = next.heap)
    (lists : final.vars.lists = Function.update s.vars.lists l lst')
    (live : final.vars.live = Function.update s.vars.live l b) : Sound final (Function.update rows l ys) := by
  have cell : ∀ k, s.vars.live k = true → ∀ a ∈ rows k, ∃ e, s.heap.lookup a = some e := fun k up a inside =>
    (sound.linked k up).chain.cell inside
  have new : ∀ k, k ≠ l → s.vars.live k = true → ∀ a ∈ rows k, a ∉ ys := by
    intro k other up a inside there
    rcases rebuilt.new a there with old | fresh
    · exact beside k other up a inside old
    · rcases cell k up a inside with ⟨e, known⟩
      exact absurd (known.symm.trans fresh) nofun
  refine ⟨fun k up => ?_, fun k r up up' different => ?_⟩
  · rw [live] at up
    rw [heap, lists]
    by_cases here : k = l
    · subst here
      rw [Function.update_self] at up ⊢
      rw [Function.update_self]
      exact linked up
    · rw [Function.update_of_ne here] at up ⊢
      rw [Function.update_of_ne here]
      have before := sound.linked k up
      have chain : entryLinks.Chain next.heap (s.vars.lists k).head (s.vars.lists k).tail (rows k) := by
        apply before.chain.frame
        intro a inside
        rcases cell k up a inside with ⟨e, known⟩
        rw [Links.pair, Links.pair, rebuilt.others a e (beside k here up a inside) known, known]
      exact { before with chain := chain }
  · rw [live] at up up'
    by_cases here : k = l
    · subst here
      rw [Function.update_of_ne different.symm] at up' ⊢
      rw [Function.update_self]
      exact fun a inside there => new r different.symm up' a there inside
    · rw [Function.update_of_ne here] at up ⊢
      by_cases there : r = l
      · subst there
        rw [Function.update_self]
        exact new k here up
      · rw [Function.update_of_ne there] at up' ⊢
        exact sound.apart k r up up' different

/-- The list with the given entries is in order, with as many of them in its index. -/
def InOrder (s : ListStore D) (l : Nat) : Prop := ∃ xs, Consistent s.heap (s.vars.lists l) xs

/-- The index has no room beyond its entries. -/
def Exact (s : ListStore D) (l : Nat) : Prop := (s.vars.lists l).entries.length = (s.vars.lists l).elnum

/-- Both lists stay as they are. -/
def Untouched (s next : ListStore D) (l : Nat) : Prop :=
  next.vars.lists l = s.vars.lists l ∧ ∀ a, some a ∈ (s.vars.lists l).entries → next.heap.lookup a = s.heap.lookup a

/-- The list gets `n` entries. Those that are within both lengths stay, with their data
if they are saved. -/
def Keeps (saved : Bool) (l n : Nat) (s next : ListStore D) : Prop :=
  (next.vars.lists l).elnum = n ∧ ∀ i, i < (s.vars.lists l).elnum → i < n →
    ∃ a, (s.vars.lists l).entries[i]? = some (some a) ∧ (next.vars.lists l).entries[i]? = some (some a) ∧
      (saved = true → (next.heap.lookup a).map ListEntry.data = (s.heap.lookup a).map ListEntry.data)

/-- One list takes over the entries of the other, which is empty then. -/
def Moves (dst src : Nat) (s next : ListStore D) : Prop :=
  (next.vars.lists src).elnum = 0 ∧ (dst ≠ src → next.vars.lists dst = s.vars.lists src ∧
    ∀ a, some a ∈ (s.vars.lists src).entries → next.heap.lookup a = s.heap.lookup a)

def touched : ListOp D → List Nat
  | .init l .. => [l]
  | .ensureLen l .. => [l]
  | .incr l => [l]
  | .decr l => [l]
  | .move dst src => [dst, src]

def Kept (op : ListOp D) (s next : ListStore D) : Prop :=
  match op with
  | .init l _ n _ _ => (next.vars.lists l).elnum = n
  | .ensureLen l n flags => Keeps (saves flags) l n s next
  | .incr l => Keeps true l ((s.vars.lists l).elnum + 1) s next
  | .decr l => Keeps true l ((s.vars.lists l).elnum - 1) s next
  | .move dst src => Moves dst src s next

def Succeeds : Answer → Prop
  | .code res => res = .ok
  | .item p => p.isSome

/-- The calls that the assertions and the comments of the list allow. -/
def Permitted (op : ListOp D) (s : ListStore D) : Prop :=
  match op with
  | .init _ elsz _ _ _ => 0 < elsz
  | .ensureLen l _ _ => s.vars.live l = true
  | .incr l => s.vars.live l = true
  | .decr l => s.vars.live l = true ∧ (s.vars.lists l).elnum ≠ 0
  | .move dst src => s.vars.live dst = true ∧ s.vars.live src = true

/-- The sizes of the index and of an entry fit into a `size_t`. -/
def Fits : ListOp D → Prop
  | .init _ elsz n _ _ => sizeofEntry + elsz < 2 ^ 64 ∧ sizeofPtr * n < 2 ^ 64
  | .ensureLen _ n _ => sizeofPtr * n < 2 ^ 64
  | _ => True

/-- The call returns; where no request was refused and no `init` failed, it succeeds
and leaves every list in order. -/
def Upholds (system : System D) (op : ListOp D) (s : ListStore D) : Prop :=
  ∃ answer next, step system op s = .ok (answer, next) ∧ (next.vars.failed = false →
    Succeeds answer ∧ (∀ l, next.vars.live l = true → InOrder next l ∧ Exact next l) ∧ Kept op s next ∧
      ∀ l, s.vars.live l = true → l ∉ touched op → Untouched s next l)

/-- The state with one list replaced. -/
def stored (next : ListStore D) (l : Nat) (lst' : ListT D) : ListStore D :=
  { next with vars := { next.vars with lists := Function.update next.vars.lists l lst' } }

theorem stored_lists (lists : next.vars.lists = s.vars.lists) (l : Nat) (lst' : ListT D) :
    (stored next l lst').vars.lists = Function.update s.vars.lists l lst' := by
  rw [← lists]
  rfl

theorem stored_live (up : s.vars.live l = true) (live : next.vars.live = s.vars.live) (lst' : ListT D) :
    (stored next l lst').vars.live = Function.update s.vars.live l true := by
  rw [← up, Function.update_eq_self]
  exact live

theorem onList_ok {A : Type} {f : ListT D → ListProg D (A × ListT D)} {a : A}
    (ran : f (s.vars.lists l) s = .ok ((a, lst'), next)) : onList l f s = .ok (a, stored next l lst') := by
  rw [onList, bind_ok (show vars s = .ok (s.vars, s) from rfl), bind_ok ran]
  rfl

theorem onList_map {A B : Type} {f : ListT D → ListProg D (A × ListT D)} {a : A} (g : A → B)
    (ran : f (s.vars.lists l) s = .ok ((a, lst'), next)) : (g <$> onList l f) s = .ok (g a, stored next l lst') := by
  rw [← bind_pure_comp, bind_ok (onList_ok ran)]
  rfl

theorem Sound.store (sound : Sound s rows) (up : s.vars.live l = true) (rebuilt : Rebuilt (rows l) ys s next)
    (linked : Linked next.heap lst' ys) : Sound (stored next l lst') (Function.update rows l ys) := by
  apply sound.replace rebuilt
  · exact fun k other up' => sound.apart k l up' up other
  · exact fun _ => linked
  · rfl
  · exact stored_lists rebuilt.lists l lst'
  · exact stored_live up rebuilt.live lst'

/-- The state of the lists between two calls that have succeeded. -/
structure Orderly (s : ListStore D) (rows : Nat → List Addr) : Prop extends Sound s rows where
  exact : ∀ l, s.vars.live l = true → Exact s l

theorem Orderly.entries (orderly : Orderly s rows) (up : s.vars.live l = true) :
    (s.vars.lists l).entries = (rows l).map some := by
  rw [← (orderly.linked l up).indexed, List.take_of_length_le (Nat.le_of_eq (orderly.exact l up))]

theorem Orderly.inOrder (orderly : Orderly s rows) (up : s.vars.live l = true) : InOrder s l ∧ Exact s l :=
  ⟨⟨rows l, (orderly.linked l up).toConsistent⟩, orderly.exact l up⟩

/-- A list whose entries are not written. -/
theorem Orderly.untouched (orderly : Orderly s rows) (rebuilt : Rebuilt xs ys s next) (up : s.vars.live l = true)
    (beside : ∀ a ∈ rows l, a ∉ xs) (heap : final.heap = next.heap) (same : final.vars.lists l = s.vars.lists l) :
    Untouched s final l := by
  refine ⟨same, fun a inside => ?_⟩
  rw [orderly.entries up] at inside
  rcases List.mem_map.mp inside with ⟨c, there, equal⟩
  obtain rfl : c = a := Option.some.inj equal
  rcases (orderly.linked l up).chain.cell there with ⟨e, cell⟩
  rw [heap, cell]
  exact rebuilt.others c e (beside c there) cell

/-- The exactness of the lists where one has been replaced. -/
theorem Orderly.exact_replace (orderly : Orderly s rows) (exact : b = true → lst'.entries.length = lst'.elnum)
    (lists : final.vars.lists = Function.update s.vars.lists l lst')
    (live : final.vars.live = Function.update s.vars.live l b) (k : Nat) (up : final.vars.live k = true) :
    Exact final k := by
  rw [live] at up
  rw [Exact, lists]
  by_cases here : k = l
  · subst here
    rw [Function.update_self] at up ⊢
    exact exact up
  · rw [Function.update_of_ne here] at up ⊢
    exact orderly.exact k up

/-- What a call on one list has done. -/
structure Changed (saved : Bool) (l n : Nat) (s next : ListStore D) : Prop where
  orderly : ∃ rows, Orderly next rows
  keeps : Keeps saved l n s next
  others : ∀ k, s.vars.live k = true → k ≠ l → Untouched s next k

theorem Orderly.resize {saved : Bool} (orderly : Orderly s rows) (up : s.vars.live l = true)
    (resized : Resized saved n (s.vars.lists l) lst' (rows l) ys s next) :
    Changed saved l n s (stored next l lst') := by
  have sound := orderly.store up resized.toRebuilt resized.linked
  have length : lst'.elnum = n := resized.linked.count.trans resized.length
  have lists := stored_lists resized.lists l lst'
  have exact : lst'.entries.length = lst'.elnum := (resized.whole (orderly.exact l up)).trans length.symm
  have here : (stored next l lst').vars.lists l = lst' := by rw [lists, Function.update_self]
  refine ⟨⟨_, sound, orderly.exact_replace (fun _ => exact) lists (stored_live up resized.live lst')⟩,
    ⟨by rw [here, length], fun i low low' => ?_⟩, fun k up' other => ?_⟩
  · have inside : i < (rows l).length := (orderly.linked l up).count ▸ low
    have inside' : i < ys.length := resized.length.symm ▸ low'
    have same : ys[i] = (rows l)[i] := by
      have common := congrArg (fun zs => zs[i]?) resized.common
      rw [List.getElem?_take_of_lt inside, List.getElem?_take_of_lt low', List.getElem?_eq_getElem inside',
        List.getElem?_eq_getElem inside] at common
      exact Option.some.inj common
    have entries' : lst'.entries = ys.map some := by
      rw [← resized.linked.indexed, List.take_of_length_le (Nat.le_of_eq exact)]
    refine ⟨(rows l)[i], ?_, ?_, fun save => ?_⟩
    · rw [orderly.entries up, List.getElem?_map, List.getElem?_eq_getElem inside, Option.map_some]
    · rw [here, entries', List.getElem?_map, List.getElem?_eq_getElem inside', same, Option.map_some]
    · rcases (orderly.linked l up).chain.cell (List.getElem_mem inside) with ⟨e, cell⟩
      rcases resized.data save _ (same ▸ List.getElem_mem inside') e cell with ⟨e', cell', data⟩
      change (next.heap.lookup _).map ListEntry.data = _
      rw [cell', cell, Option.map_some, Option.map_some, data]
  · apply orderly.untouched resized.toRebuilt up'
    · exact orderly.apart k l up' up other
    · rfl
    · rw [lists, Function.update_of_ne other]

/-- What a call that has succeeded leaves behind. -/
structure Done (op : ListOp D) (s next : ListStore D) : Prop where
  orderly : ∃ rows, Orderly next rows
  kept : Kept op s next
  others : ∀ l, s.vars.live l = true → l ∉ touched op → Untouched s next l

/-- The failures of a call that leave every list in order. -/
def Harmless (system : System D) (op : ListOp D) (s : ListStore D) : Prop :=
  match op with
  | .ensureLen l n flags => SafeChange system n flags (s.vars.lists l) s
  | .incr l => SafeChange system ((s.vars.lists l).elnum + 1) LIST_FLAG_SAVE (s.vars.lists l) s
  | .decr l => SafeChange system ((s.vars.lists l).elnum - 1) LIST_FLAG_SAVE (s.vars.lists l) s
  | _ => True

/-- What is known of the end of a call. -/
structure Ends (system : System D) (op : ListOp D) (rows : Nat → List Addr) (s next : ListStore D) (answer : Answer) :
    Prop where
  succeeds : next.vars.failed = false → Succeeds answer
  done : Succeeds answer → Orderly s rows → Done op s next
  sound : Harmless system op s → ∃ rows', Sound next rows'

theorem Changed.done {op : ListOp D} {saved : Bool} (changed : Changed saved l n s next) (only : touched op = [l])
    (kept : Keeps saved l n s next → Kept op s next) : Done op s next := by
  refine ⟨changed.orderly, kept changed.keeps, fun k up away => changed.others k up ?_⟩
  rw [only] at away
  exact fun same => away (same ▸ List.mem_singleton_self k)

/-- A call that changes the length of one list. -/
theorem ends_of_change {system : System D} {op : ListOp D} {answer : Answer} {saved : Bool} (sound : Sound s rows)
    (up : s.vars.live l = true) (only : touched op = [l])
    (kept : Keeps saved l n s (stored next l lst') → Kept op s (stored next l lst'))
    (stops : ¬ Succeeds answer → next.vars.failed = true)
    (resized : Succeeds answer → ∃ ys, Resized saved n (s.vars.lists l) lst' (rows l) ys s next)
    (safe : Harmless system op s → ∃ ys, Linked next.heap lst' ys ∧ Rebuilt (rows l) ys s next) :
    Ends system op rows s (stored next l lst') answer := by
  refine ⟨fun fine => ?_, fun ok orderly => ?_, fun harmless => ?_⟩
  · by_contra bad
    exact absurd (fine.symm.trans (stops bad)) nofun
  · rcases resized ok with ⟨ys, done⟩
    exact (orderly.resize up done).done only kept
  · rcases safe harmless with ⟨ys, linked, rebuilt⟩
    exact ⟨_, sound.store up rebuilt linked⟩

theorem step_ensureLen (system : System D) (sound : Sound s rows) (up : s.vars.live l = true)
    (fits : sizeofPtr * n < 2 ^ 64) (flags : UInt32) :
    ∃ answer next, step system (.ensureLen l n flags) s = .ok (answer, next) ∧
      Ends system (.ensureLen l n flags) rows s next answer := by
  rcases listEnsureLen_spec system (sound.linked l up) fits flags with ⟨res, lst', next, ran, stops, resized, safe⟩
  exact ⟨.code res, stored next l lst', onList_map Answer.code ran, ends_of_change sound up rfl id stops resized safe⟩

theorem step_incr (system : System D) (sound : Sound s rows) (up : s.vars.live l = true) :
    ∃ answer next, step system (.incr l) s = .ok (answer, next) ∧ Ends system (.incr l) rows s next answer := by
  rcases listIncr_spec system (sound.linked l up) with ⟨p, lst', next, ran, stops, resized, safe⟩
  have some : Succeeds (.item p) ↔ p ≠ none := Option.isSome_iff_ne_none
  refine ⟨.item p, stored next l lst', onList_map Answer.item ran, ends_of_change sound up rfl id ?_ ?_ safe⟩
  · exact fun bad => stops (not_not.mp fun other => bad (some.mpr other))
  · exact fun ok => resized (some.mp ok)

theorem step_decr (system : System D) (sound : Sound s rows) (up : s.vars.live l = true)
    (nonempty : (s.vars.lists l).elnum ≠ 0) :
    ∃ answer next, step system (.decr l) s = .ok (answer, next) ∧ Ends system (.decr l) rows s next answer := by
  rcases listDecr_spec system (sound.linked l up) nonempty with ⟨res, lst', next, ran, stops, resized, safe⟩
  have run := onList_map (f := listDecr system) Answer.code ran
  exact ⟨.code res, stored next l lst', run, ends_of_change sound up rfl id stops resized safe⟩

theorem Grows.rebuilt (grows : Grows [] s next) (new : ∀ a ∈ ys, s.heap.lookup a = none) : Rebuilt [] ys s next := by
  refine ⟨fun a e outside cell => ?_, fun a inside => .inr (new a inside), grows.lists, grows.live⟩
  rcases grows.kept a e cell with ⟨e', cell', -, equal⟩
  rw [cell', equal outside]

theorem step_init (system : System D) (sound : Sound s rows) {elsz : Nat} (positive : 0 < elsz)
    (fits : sizeofPtr * n < 2 ^ 64) (sized : sizeofEntry + elsz < 2 ^ 64) (init fini : Option (Callback D)) (l : Nat) :
    ∃ answer next, step system (.init l elsz n init fini) s = .ok (answer, next) ∧
      Ends system (.init l elsz n init fini) rows s next answer := by
  rcases listInit_spec system positive fits sized init fini (s.vars.lists l) s
    with ⟨res, lst', next, ran, grows, stops, made⟩
  let first := stored next l lst'
  let final : ListStore D :=
    { first with vars := { first.vars with live := Function.update first.vars.live l (decide (res = .ok)) } }
  have run : step system (.init l elsz n init fini) s = .ok (.code res, final) := by
    rw [step, bind_ok (onList_ok ran)]
    rfl
  have lists : final.vars.lists = Function.update s.vars.lists l lst' := stored_lists grows.lists l lst'
  have live : final.vars.live = Function.update s.vars.live l (decide (res = .ok)) := by
    rw [← grows.live]
    rfl
  have heap : final.heap = next.heap := rfl
  refine ⟨.code res, final, run, fun fine => ?_, fun ok orderly => ?_, fun _ => ?_⟩
  · by_contra bad
    exact absurd (fine.symm.trans (stops bad)) (by simp)
  · rcases made ok with ⟨ys, linked, length, whole, new⟩
    have rebuilt := grows.rebuilt new
    have sound' := sound.replace rebuilt (fun _ _ _ _ _ => List.not_mem_nil) (fun _ => linked) heap lists live
    have count : lst'.elnum = n := linked.count.trans length
    refine ⟨⟨_, sound', orderly.exact_replace (fun _ => whole.trans count.symm) lists live⟩, ?_, fun k up away => ?_⟩
    · rw [Kept, lists, Function.update_self, count]
    · have other : k ≠ l := fun same => away (same ▸ List.mem_singleton_self k)
      apply orderly.untouched rebuilt up (fun _ _ => List.not_mem_nil) heap
      rw [lists, Function.update_of_ne other]
  · by_cases ok : res = .ok
    · rcases made ok with ⟨ys, linked, -, -, new⟩
      exact ⟨_, sound.replace (grows.rebuilt new) (fun _ _ _ _ _ => List.not_mem_nil) (fun _ => linked) heap lists live⟩
    · have rebuilt : Rebuilt [] [] s next := grows.rebuilt (by simp)
      refine ⟨_, sound.replace rebuilt (fun _ _ _ _ _ => List.not_mem_nil) (fun yes => ?_) heap lists live⟩
      exact absurd (of_decide_eq_true yes) ok

/-- A list as `list_move` leaves it. -/
def emptied : ListT D := ⟨0, 0, none, none, none, none, none⟩

theorem linked_emptied (h : Heap (ListEntry D)) : Linked h emptied [] := by
  apply linked_empty h rfl rfl rfl
  change 16 + 0 < 2 ^ 64
  decide

/-- The entries of one list are given to another one. -/
theorem Sound.move {dst src : Nat} (sound : Sound s rows) (up : s.vars.live dst = true) (up' : s.vars.live src = true)
    (heap : final.heap = s.heap)
    (lists : final.vars.lists = Function.update (Function.update s.vars.lists dst (s.vars.lists src)) src emptied)
    (live : final.vars.live = s.vars.live) : ∃ rows', Sound final rows' := by
  have none : Rebuilt (rows src) [] s s := ⟨fun _ _ _ cell => cell, nofun, rfl, rfl⟩
  by_cases same : dst = src
  · subst same
    rw [Function.update_idem] at lists
    have live' : final.vars.live = Function.update s.vars.live dst true := by rw [live, ← up, Function.update_eq_self]
    exact ⟨_, sound.replace none (fun k other up'' => sound.apart k dst up'' up other) (fun _ => linked_emptied s.heap)
      heap lists live'⟩
  · let given : ListStore D := { s with vars := { s.vars with lists := Function.update s.vars.lists src emptied } }
    have live' : given.vars.live = Function.update s.vars.live src true := by
      rw [← up', Function.update_eq_self]
    have first : Sound given (Function.update rows src []) :=
      sound.replace none (fun k other up'' => sound.apart k src up'' up' other) (fun _ => linked_emptied s.heap)
        rfl rfl live'
    have linked : Linked given.heap (s.vars.lists src) (rows src) := sound.linked src up'
    have beside : ∀ k, k ≠ dst → given.vars.live k = true → ∀ a ∈ Function.update rows src [] k, a ∉ rows src := by
      intro k _ up'' a inside
      by_cases here : k = src
      · rw [here, Function.update_self] at inside
        exact absurd inside List.not_mem_nil
      · rw [Function.update_of_ne here] at inside
        exact sound.apart k src up'' up' here a inside
    have lists' : final.vars.lists = Function.update given.vars.lists dst (s.vars.lists src) := by
      rw [lists]
      exact Function.update_comm same _ _ _
    have live'' : final.vars.live = Function.update given.vars.live dst true := by
      rw [live, ← up]
      exact (Function.update_eq_self dst s.vars.live).symm
    have self : Rebuilt (rows src) (rows src) given given := ⟨fun _ _ _ cell => cell, fun _ => .inl, rfl, rfl⟩
    exact ⟨_, first.replace self beside (fun _ => linked) heap lists' live''⟩

theorem Orderly.exact_move {dst src : Nat} (exact : ∀ k, k ≠ dst → s.vars.live k = true → Exact s k)
    (up' : s.vars.live src = true)
    (lists : final.vars.lists = Function.update (Function.update s.vars.lists dst (s.vars.lists src)) src emptied)
    (live : final.vars.live = s.vars.live) (k : Nat) (up : final.vars.live k = true) : Exact final k := by
  rw [live] at up
  rw [Exact, lists]
  by_cases here : k = src
  · rw [here, Function.update_self]
    rfl
  · rw [Function.update_of_ne here]
    by_cases there : k = dst
    · rw [there, Function.update_self]
      exact exact src (fun same => here (there.trans same.symm)) up'
    · rw [Function.update_of_ne there]
      exact exact k there up

theorem step_move (system : System D) (sound : Sound s rows) {dst src : Nat} (up : s.vars.live dst = true)
    (up' : s.vars.live src = true) :
    ∃ answer next, step system (.move dst src) s = .ok (answer, next) ∧
      Ends system (.move dst src) rows s next answer := by
  rcases listFini_spec (sound.linked dst up) with ⟨lst', next, ran, linked, rebuilt, index, -⟩
  let first := stored next dst lst'
  let final : ListStore D := { first with vars := { first.vars with
    lists := Function.update (Function.update first.vars.lists dst (first.vars.lists src)) src emptied } }
  have run : step system (.move dst src) s = .ok (.code .ok, final) := by
    have fini : onList dst (fun lst => listFini lst >>= fun lst => pure ((), lst)) s = .ok ((), first) :=
      onList_ok (bind_ok ran _)
    have move : listMove dst src s = .ok (.ok, final) := by
      rw [listMove, bind_ok fini]
      rfl
    rw [step, ← bind_pure_comp, bind_ok move]
    rfl
  have sound' : Sound first (Function.update rows dst []) := sound.store up rebuilt linked
  have live : first.vars.live = s.vars.live := rebuilt.live
  have heap : final.heap = next.heap := rfl
  have heap' : first.heap = next.heap := rfl
  have given : final.vars.lists =
      Function.update (Function.update first.vars.lists dst (first.vars.lists src)) src emptied := rfl
  have live' : final.vars.live = first.vars.live := rfl
  refine ⟨.code .ok, final, run, fun _ => rfl, fun _ orderly => ?_, fun _ => ?_⟩
  · have other : ∀ k, k ≠ dst → first.vars.lists k = s.vars.lists k := by
      intro k away
      rw [show first.vars.lists = _ from stored_lists rebuilt.lists dst lst', Function.update_of_ne away]
    have exact : ∀ k, k ≠ dst → first.vars.live k = true → Exact first k := by
      intro k away up''
      rw [Exact, other k away]
      exact orderly.exact k (live ▸ up'')
    have untouched : ∀ k, s.vars.live k = true → k ≠ dst → k ≠ src → Untouched s final k := by
      intro k up'' away away'
      apply orderly.untouched rebuilt up'' (sound.apart k dst up'' up away) heap
      rw [given, Function.update_of_ne away', Function.update_of_ne away, other k away]
    rcases sound'.move (live ▸ up) (live ▸ up') heap given live' with ⟨rows', moved⟩
    refine ⟨⟨rows', moved, Orderly.exact_move exact (live ▸ up') given live'⟩, ⟨?_, fun different => ⟨?_, ?_⟩⟩,
      fun k up'' away => ?_⟩
    · rw [given, Function.update_self]
      rfl
    · rw [given, Function.update_of_ne different, Function.update_self, other src (Ne.symm different)]
    · have same := other src (Ne.symm different)
      exact (orderly.untouched rebuilt up' (sound.apart src dst up' up (Ne.symm different)) heap' same).2
    · exact untouched k up'' (fun same => away (by simp [touched, same])) fun same => away (by simp [touched, same])
  · exact sound'.move (live ▸ up) (live ▸ up') heap given live'

/-- Every call on lists in order returns. -/
theorem step_spec (system : System D) (sound : Sound s rows) (op : ListOp D) (permitted : Permitted op s)
    (fits : Fits op) : ∃ answer next, step system op s = .ok (answer, next) ∧ Ends system op rows s next answer := by
  cases op with
  | init l elsz n init fini => exact step_init system sound permitted fits.2 fits.1 init fini l
  | ensureLen l n flags => exact step_ensureLen system sound permitted fits flags
  | incr l => exact step_incr system sound permitted
  | decr l => exact step_decr system sound permitted.1 permitted.2
  | move dst src => exact step_move system sound permitted.1 permitted.2

/-- The calls are made as they are allowed, and all those before have got their memory
and were not refused by an `init`. -/
def Smooth (op : ListOp D) (s : ListStore D) : Prop := Permitted op s ∧ s.vars.failed = false

theorem Ends.upholds {system : System D} {op : ListOp D} {answer : Answer} (orderly : Orderly s rows)
    (stepped : step system op s = .ok (answer, next)) (ends : Ends system op rows s next answer) :
    Upholds system op s := by
  refine ⟨answer, next, stepped, fun fine => ?_⟩
  have done := ends.done (ends.succeeds fine) orderly
  rcases done.orderly with ⟨rows', orderly'⟩
  exact ⟨ends.succeeds fine, fun l up => orderly'.inOrder up, done.kept, done.others⟩

/-- Lists are in order after all calls of a run that gets its memory and whose sizes fit. -/
theorem upholds_of_fits (system : System D) {ops : List (ListOp D)} (start : ∀ l, s.vars.live l = false)
    (run : Along (step system) (fun op s => Smooth op s ∧ Fits op) ops s) :
    Along (step system) (Upholds system) ops s := by
  let inv : ListStore D → Prop := fun s => s.vars.failed = false → ∃ rows, Orderly s rows
  have first : inv s := by
    have down : ∀ l, s.vars.live l ≠ true := fun l up => absurd ((start l).symm.trans up) nofun
    exact fun _ => ⟨fun _ => [], ⟨fun l up => absurd up (down l), fun l _ up => absurd up (down l)⟩,
      fun l up => absurd up (down l)⟩
  have locally : ∀ op s, inv s → Smooth op s ∧ Fits op → Upholds system op s := by
    intro op s orderly smooth
    rcases orderly smooth.1.2 with ⟨rows, orderly⟩
    rcases step_spec system orderly.toSound op smooth.1.1 smooth.2 with ⟨answer, next, stepped, ends⟩
    exact ends.upholds orderly stepped
  have keeps : ∀ op s answer next, inv s → Smooth op s ∧ Fits op → step system op s = .ok (answer, next) →
      inv next := by
    intro op s answer next orderly smooth stepped fine
    rcases orderly smooth.1.2 with ⟨rows, orderly⟩
    rcases step_spec system orderly.toSound op smooth.1.1 smooth.2 with ⟨answer', next', stepped', ends⟩
    cases stepped.symm.trans stepped'
    exact (ends.done (ends.succeeds fine) orderly).orderly
  exact Along.of_invariant locally keeps first run

instance (op : ListOp D) (s : ListStore D) : Decidable (Permitted op s) :=
  match op with
  | .init _ elsz _ _ _ => inferInstanceAs (Decidable (0 < elsz))
  | .ensureLen l _ _ => inferInstanceAs (Decidable (s.vars.live l = true))
  | .incr l => inferInstanceAs (Decidable (s.vars.live l = true))
  | .decr l => inferInstanceAs (Decidable (s.vars.live l = true ∧ (s.vars.lists l).elnum ≠ 0))
  | .move dst src => inferInstanceAs (Decidable (s.vars.live dst = true ∧ s.vars.live src = true))

instance (op : ListOp D) (s : ListStore D) : Decidable (Smooth op s) :=
  inferInstanceAs (Decidable (Permitted op s ∧ s.vars.failed = false))

instance : DecidablePred (Fits (D := D))
  | .init _ elsz n _ _ => inferInstanceAs (Decidable (sizeofEntry + elsz < 2 ^ 64 ∧ sizeofPtr * n < 2 ^ 64))
  | .ensureLen _ n _ => inferInstanceAs (Decidable (sizeofPtr * n < 2 ^ 64))
  | .incr _ => isTrue trivial
  | .decr _ => isTrue trivial
  | .move .. => isTrue trivial

/-- A system with room for 16 entries that refuses the requests given. -/
def sampleSystem (refused : List Nat) : System Nat where
  toAllocator := Allocator.bump ⟨none, none, 7⟩
  space := 16
  grants tick := decide (tick ∉ refused)
  stray _ _ := none

def noLists : ListStore Nat := ⟨∅, ⟨fun _ => emptied, fun _ => false, 0, false⟩, 0⟩

/-- An `init` that always succeeds. -/
def setUp : Callback Nat := ⟨fun _ => 0, fun calls _ => calls⟩

theorem sampleOps_upheld : Along (step (sampleSystem [])) (Upholds (sampleSystem []))
    [.init 0 8 2 (some setUp) none, .ensureLen 0 4 0, .incr 0, .decr 0, .init 1 4 0 none none, .move 1 0,
      .ensureLen 1 1 LIST_FLAG_SAVE] noLists :=
  upholds_of_fits (sampleSystem []) (fun _ => rfl) (by decide +kernel)

/-- The size of an index of 2 ^ 61 + 1 pointers wraps to that of one pointer. -/
theorem wrappedIndex_not_upheld :
    Along (step (sampleSystem [])) Smooth [.init 0 8 0 none none, .ensureLen 0 (2 ^ 61 + 1) LIST_FLAG_SAVE] noLists ∧
      ¬ Along (step (sampleSystem [])) (Upholds (sampleSystem []))
        [.init 0 8 0 none none, .ensureLen 0 (2 ^ 61 + 1) LIST_FLAG_SAVE] noLists := by
  refine ⟨by decide +kernel, fun upheld => ?_⟩
  let front : List (ListOp Nat) := [.init 0 8 0 none none]
  let wrapping : ListOp Nat := .ensureLen 0 (2 ^ 61 + 1) LIST_FLAG_SAVE
  have trace : ((execute (step (sampleSystem [])) front noLists).map fun first =>
      (step (sampleSystem []) wrapping first.2).map fun _ => ()) = .ok (.error .dangling) := by
    decide +kernel
  rcases of_map_ok trace with ⟨first, ran, faults⟩
  have whole : Along (step (sampleSystem [])) (Upholds (sampleSystem [])) (front ++ [wrapping]) noLists := upheld
  rcases whole.last ran with ⟨answer, next, stepped, -⟩
  rw [stepped] at faults
  exact absurd faults nofun

end MnCommon.IndexedList
