import MnCommon.IndexedList.Growth

/-! The length of an indexed list is changed. -/

namespace MnCommon.IndexedList

open Memory

/-- The index and the chain have the same entries, as many as `elnum` says. -/
structure Consistent {D : Type} (h : Heap (ListEntry D)) (lst : ListT D) (xs : List Addr) : Prop where
  chain : entryLinks.Chain h lst.head lst.tail xs
  count : lst.elnum = xs.length
  indexed : lst.entries.take lst.elnum = xs.map some

/-- A list in order, whose length fits into an `unsigned` and whose entries into a `size_t`. -/
structure Linked {D : Type} (h : Heap (ListEntry D)) (lst : ListT D) (xs : List Addr) : Prop
    extends Consistent h lst xs where
  short : lst.elnum < 2 ^ 32
  sized : sizeofEntry + lst.elsz < 2 ^ 64

variable {D : Type} {system : System D} {lst lst' : ListT D} {s middle next : ListStore D} {xs ys : List Addr}
  {a b : Addr} {e : ListEntry D} {n i : Nat} {flags : UInt32} {head tail : Ptr}

theorem Refills.linked (refills : Refills ys s next) (linked : Linked s.heap lst xs) : Linked next.heap lst xs :=
  { linked with chain := refills.chain linked.chain }

/-- Nothing but the entries of a list is written, which is made of them and of new ones. -/
structure Rebuilt (xs ys : List Addr) (s next : ListStore D) : Prop where
  others : ∀ a e, a ∉ xs → s.heap.lookup a = some e → next.heap.lookup a = some e
  new : ∀ a ∈ ys, a ∈ xs ∨ s.heap.lookup a = none
  lists : next.vars.lists = s.vars.lists
  live : next.vars.live = s.vars.live

/-- The existing entries that stay keep their data. -/
def KeepsData (ys : List Addr) (s next : ListStore D) : Prop :=
  ∀ a ∈ ys, ∀ e, s.heap.lookup a = some e → ∃ e', next.heap.lookup a = some e' ∧ e'.data = e.data

structure Resized (saved : Bool) (n : Nat) (lst lst' : ListT D) (xs ys : List Addr) (s next : ListStore D) : Prop
    extends Rebuilt xs ys s next where
  linked : Linked next.heap lst' ys
  length : ys.length = n
  common : ys.take xs.length = xs.take n
  whole : lst.entries.length = lst.elnum → lst'.entries.length = n
  data : saved = true → KeepsData ys s next

/-- Where the entries are initialised again, all of them are. -/
def Reinits (flags : UInt32) (lst : ListT D) (calls : Nat) : Prop :=
  saves flags = true ∨
    ∀ k < lst.elnum, initAnswer lst (calls + k * (finiCalls lst + initCalls lst) + finiCalls lst) = 0

def reinitCalls (flags : UInt32) (lst : ListT D) : Nat :=
  if saves flags then 0 else lst.elnum * (finiCalls lst + initCalls lst)

theorem reinitUnlessSaved_spec (linked : Linked s.heap lst xs) (flags : UInt32) :
    ∃ res next, reinitUnlessSaved flags lst s = .ok (res, next) ∧ Refills xs s next ∧
      (saves flags = true → next = s) ∧ (res ≠ .ok → next.vars.failed = true) ∧
      (res = .ok ↔ Reinits flags lst s.vars.calls) ∧
      (res = .ok → next.vars.failed = s.vars.failed ∧ next.vars.calls = s.vars.calls + reinitCalls flags lst) := by
  rw [reinitUnlessSaved, Reinits, reinitCalls]
  by_cases saved : saves flags = true
  · rw [if_pos saved, if_pos saved]
    exact ⟨.ok, s, rfl, Refills.refl xs s, fun _ => rfl, fun wrong => absurd rfl wrong, iff_of_true rfl (.inl saved),
      fun _ => ⟨rfl, rfl⟩⟩
  · rw [if_neg saved, if_neg saved, linked.count]
    rcases listDataReinit_spec linked.chain with ⟨res, next, ran, refills, stops, when, goes⟩
    exact ⟨res, next, ran, refills, fun yes => absurd yes saved, stops, when.trans (or_iff_right saved).symm, goes⟩

theorem reallocIndex_refused (index : Option (List Ptr)) (n : Nat) (no : ¬ system.grants s.tick = true) :
    reallocIndex system index n s = refuse s := if_neg no

theorem reallocIndex_granted (index : Option (List Ptr)) (fits : sizeofPtr * n < 2 ^ 64)
    (yes : system.grants s.tick = true) :
    ∃ entries, reallocIndex system index n s = .ok (some entries, { s with tick := s.tick + 1 }) ∧
      entries.length = n ∧ ∀ m ≤ n, m ≤ (index.getD []).length → entries.take m = (index.getD []).take m := by
  refine ⟨_, if_pos yes, ?_, fun m within there => ?_⟩
  · rw [List.length_map, List.length_range, Nat.mod_eq_of_lt fits, Nat.mul_div_cancel_left n (by decide)]
  · rw [Nat.mod_eq_of_lt fits, Nat.mul_div_cancel_left n (by decide)]
    apply List.ext_getElem
    · rw [List.length_take, List.length_map, List.length_range, List.length_take]
      omega
    · intro k low low'
      rw [List.length_take] at low'
      rw [List.getElem_take, List.getElem_take, List.getElem_map, List.getElem_range]
      exact List.getD_eq_getElem _ _ (by omega)

/-- The first entry of an empty list. -/
theorem growFirst_spec (index : lst.index = some lst.entries) (room : lst.entries.length = n) (positive : 0 < n)
    (sized : sizeofEntry + lst.elsz < 2 ^ 64) (yes : Granted system s.tick s.heap.keys.card) :
    ∃ a next, Adds [] a s next ∧ next.vars.calls = s.vars.calls + initCalls lst ∧
      (initAnswer lst s.vars.calls ≠ 0 → next.vars.failed = true ∧
        growFirst system lst s = .ok ((.listEnsureLen 4, { lst with head := some a, tail := some a }), next)) ∧
      (initAnswer lst s.vars.calls = 0 → next.vars.failed = s.vars.failed ∧
        ∃ lst', lst' = { lst with head := lst'.head, tail := lst'.tail, index := lst'.index } ∧
          Growing next lst' n 1 [a] ∧ growFirst system lst s = .ok ((.ok, lst'), next)) := by
  rcases firstEntry_spec system lst s with ⟨next, ran, chain, adds, calls, fine, wrong⟩
  let first : ListT D := { lst with head := some (fresh system s), tail := some (fresh system s) }
  have run : growFirst system lst s =
      (if initAnswer lst s.vars.calls ≠ 0 then pure (.listEnsureLen 4, first)
        else setIndex first 0 (some (fresh system s)) >>= fun lst => pure (.ok, lst) :
        ListProg D (Code × ListT D)) next := by
    rw [growFirst, bind_ok (mallocEntry_granted sized yes), if_neg nofun, bind_ok (update_entered _ _), bind_ok ran]
  refine ⟨fresh system s, next, adds, calls, fun bad => ⟨wrong bad, ?_⟩, fun good => ⟨fine good, ?_⟩⟩
  · rw [run, if_pos bad]
    rfl
  · let grown : ListT D := { first with index := some (lst.entries.set 0 (some (fresh system s))) }
    have set : setIndex first 0 (some (fresh system s)) next = .ok (grown, next) :=
      setIndex_spec index (room.symm ▸ positive)
    refine ⟨grown, rfl, growing_first chain room positive sized, ?_⟩
    rw [run, if_neg (not_not.mpr good), bind_ok set]
    rfl

/-- The loop leaves a list in order once `elnum` is the length. -/
theorem Grown.linked (grown : Grown s next lst lst' n xs) (sized : sizeofEntry + lst.elsz < 2 ^ 64) :
    ∃ news, Linked next.heap { lst' with elnum := n } (xs ++ news) ∧ (xs ++ news).length = n ∧
      lst'.entries.length = n ∧ ∀ a ∈ news, s.heap.lookup a = none := by
  rcases grown with ⟨short, same, -, news, chain, length, index, new⟩
  have full : lst'.entries = (xs ++ news).map some := by rw [ListT.entries, index, Option.getD_some]
  have whole : lst'.entries.length = n := by rw [full, List.length_map, length]
  refine ⟨news, ⟨⟨chain, length.symm, ?_⟩, short, ?_⟩, length, whole, new⟩
  · change lst'.entries.take n = _
    rw [← whole, List.take_length, full]
  · rw [same]
    exact sized

/-- The other entries, behind those that are there. -/
theorem growRest_spec (system : System D) (adjust : Nat)
    (growing : Growing s lst n ((lst.elnum + adjust) % 2 ^ 32) xs) :
    ∃ res lst' next, growRest system n adjust lst s = .ok ((res, lst'), next) ∧
      (res ≠ .ok → next.vars.failed = true) ∧
      (res = .ok → lst' = { lst with elnum := n, tail := lst'.tail, index := lst'.index } ∧
        Grows xs s next ∧ ∃ news, Linked next.heap lst' (xs ++ news) ∧ (xs ++ news).length = n ∧
          lst'.entries.length = n ∧ ∀ a ∈ news, s.heap.lookup a = none) ∧
      ((n < 2 ^ 32 ∧ ∀ k < n - (lst.elnum + adjust) % 2 ^ 32, Granted system (s.tick + k) (s.heap.keys.card + k) ∧
        initAnswer lst (s.vars.calls + k) = 0) → res = .ok) := by
  have enough : system.space < s.heap.keys.card + (system.space + 1) := by omega
  have refusal : Code.listEnsureLen (if lst.init.isSome then 5 else 7) ≠ .ok := nofun
  have breakage : Code.listEnsureLen 6 ≠ .ok := nofun
  rcases appendEntries_spec growing (system.space + 1) (Nat.succ_pos _) enough refusal breakage
    with ⟨res, lst', next, ran, grows, stops, grown, all⟩
  have tail : lst.tail.isSome = true := by
    rw [growing.chain.tail_eq, List.getLast?_isSome]
    exact growing.nonempty
  refine ⟨res, if res = .ok then { lst' with elnum := n } else lst', next, ?_, stops, fun ok => ?_, all⟩
  · rw [growRest, tail, check_bind, bind_ok ran]
    rfl
  · rw [if_pos ok]
    exact ⟨by rw [(grown ok).same], grows, (grown ok).linked growing.sized⟩

theorem Refills.lookup_none (refills : Refills xs s next) (new : next.heap.lookup a = none) :
    s.heap.lookup a = none := by
  by_contra there
  rcases Option.ne_none_iff_exists'.mp there with ⟨e, cell⟩
  rcases refills.cell cell with ⟨e', cell', -, -⟩
  exact absurd (cell'.symm.trans new) nofun

/-- A list whose entries are initialised again, if so, before others are put behind them. -/
theorem resized_of_grown {news : List Addr} (refills : Refills xs s middle) (same : saves flags = true → middle = s)
    (grows : Grows xs middle next) (linked : Linked next.heap lst' (xs ++ news)) (length : (xs ++ news).length = n)
    (whole : lst'.entries.length = n) (new : ∀ a ∈ news, middle.heap.lookup a = none) :
    Resized (saves flags) n lst lst' xs (xs ++ news) s next := by
  refine ⟨⟨fun a e outside cell => ?_, fun a inside => ?_, grows.lists.trans refills.lists,
    grows.live.trans refills.live⟩, linked, length, ?_, fun _ => whole, fun saved a _ e cell => ?_⟩
  · rcases grows.kept a e ((refills.others a outside).trans cell) with ⟨e', cell', -, equal⟩
    rw [cell', equal outside]
  · exact (List.mem_append.mp inside).imp_right fun later => refills.lookup_none (new a later)
  · rw [← length, List.take_left, List.take_of_length_le (by rw [List.length_append]; omega)]
  · rcases grows.kept a e (same saved ▸ cell) with ⟨e', cell', data, -⟩
    exact ⟨e', cell', data⟩

/-- A failing growth that leaves a list in order: the entries cannot be initialised
again, there is no memory for the index, or none for the first entry of an empty list. -/
def SafeGrowth (system : System D) (n : Nat) (flags : UInt32) (lst : ListT D) (s : ListStore D) : Prop :=
  ¬ Reinits flags lst s.vars.calls ∨ system.grants s.tick = false ∨
    (lst.elnum = 0 ∧ ¬ Granted system (s.tick + 1) s.heap.keys.card) ∨
    (n < 2 ^ 32 ∧ ∀ k < n - lst.elnum, Granted system (s.tick + 1 + k) (s.heap.keys.card + k) ∧
      initAnswer lst (s.vars.calls + reinitCalls flags lst + k) = 0)

theorem rebuilt_self (refills : Refills xs s next) : Rebuilt xs xs s next :=
  ⟨fun a _ outside cell => (refills.others a outside).trans cell, fun _ => .inl, refills.lists, refills.live⟩

theorem Rebuilt.grows (rebuilt : Rebuilt xs xs s middle) (grows : Grows xs middle next) : Rebuilt xs xs s next := by
  refine ⟨fun a e outside cell => ?_, fun _ => .inl, grows.lists.trans rebuilt.lists, grows.live.trans rebuilt.live⟩
  rcases grows.kept a e (rebuilt.others a e outside cell) with ⟨e', cell', -, equal⟩
  rw [cell', equal outside]

/-- What the request for the entries behind those that are there may come to. -/
structure Stretched (system : System D) (n : Nat) (lst lst' : ListT D) (xs : List Addr) (res : Code)
    (s next : ListStore D) : Prop where
  stops : res ≠ .ok → next.vars.failed = true
  grown : res = .ok → Grows xs s next ∧ ∃ news, Linked next.heap lst' (xs ++ news) ∧ (xs ++ news).length = n ∧
    lst'.entries.length = n ∧ ∀ a ∈ news, s.heap.lookup a = none
  void : lst.elnum = 0 → ¬ Granted system s.tick s.heap.keys.card → Linked next.heap lst' xs ∧ Grows xs s next
  all : n < 2 ^ 32 → (∀ k < n - lst.elnum, Granted system (s.tick + k) (s.heap.keys.card + k) ∧
    initAnswer lst (s.vars.calls + k) = 0) → res = .ok

/-- The others, once an empty list has got its first entry. -/
theorem growSecond_spec {lst₁ : ListT D} (empty : lst.elnum = 0)
    (same : lst₁ = { lst with head := lst₁.head, tail := lst₁.tail, index := lst₁.index })
    (yes : Granted system s.tick s.heap.keys.card) (adds : Adds [] a s middle)
    (calls : middle.vars.calls = s.vars.calls + initCalls lst) (growing : Growing middle lst₁ n 1 [a]) :
    ∃ res lst' next, growRest system n 1 lst₁ middle = .ok ((res, lst'), next) ∧
      Stretched system n lst lst' [] res s next := by
  have start : (lst₁.elnum + 1) % 2 ^ 32 = 1 := by
    rw [same]
    change (lst.elnum + 1) % 2 ^ 32 = 1
    rw [empty]
    rfl
  rw [← start] at growing
  rcases growRest_spec system 1 growing with ⟨res, lst', next, ran, stops, grown, all⟩
  refine ⟨res, lst', next, ran, stops, fun ok => ?_, fun _ no => absurd yes no, fun small granted => ?_⟩
  · rcases grown ok with ⟨-, grows, news, linked, length, whole, new⟩
    refine ⟨adds.trans grows fun b inside => ?_, a :: news, linked, length, whole, fun b inside => ?_⟩
    · exact .inr (List.mem_singleton.mp inside ▸ adds.new)
    · rcases List.mem_cons.mp inside with rfl | later
      · exact adds.new
      · exact adds.lookup_none (new b later)
  · apply all
    refine ⟨small, fun k low => ?_⟩
    rw [start] at low
    have later := granted (k + 1) (by omega)
    have same' : initAnswer lst₁ = initAnswer lst := by rw [same]; rfl
    rw [adds.granted, calls, same', initAnswer_calls]
    exact later

theorem growEmpty_spec (system : System D) (linked : Linked s.heap lst []) (empty : lst.elnum = 0) (more : 0 < n)
    (index : lst.index = some lst.entries) (room : lst.entries.length = n) :
    ∃ res lst' next, growEntries system n lst s = .ok ((res, lst'), next) ∧
      Stretched system n lst lst' [] res s next := by
  have further : 0 < n - lst.elnum := by rwa [empty]
  rw [growEntries, if_pos empty]
  by_cases yes : Granted system s.tick s.heap.keys.card
  · rcases growFirst_spec index room more linked.sized yes with ⟨a, middle, adds, calls, bad, good⟩
    by_cases fine : initAnswer lst s.vars.calls = 0
    · rcases good fine with ⟨-, lst₁, same, growing, run⟩
      rcases growSecond_spec empty same yes adds calls growing with ⟨res, lst', next, ran, stretched⟩
      refine ⟨res, lst', next, ?_, stretched⟩
      rw [bind_ok run]
      exact ran
    · rcases bad fine with ⟨failed, run⟩
      refine ⟨.listEnsureLen 4, { lst with head := some a, tail := some a }, middle, ?_, fun _ => failed, nofun,
        fun _ no => absurd yes no, fun _ all => ?_⟩
      · rw [bind_ok run]
        rfl
      · exact absurd (all 0 further).2 fine
  · have run : growFirst system lst s = .ok ((.listEnsureLen 3, { lst with head := none }),
        { s with vars := { s.vars with failed := true }, tick := s.tick + 1 }) := by
      rw [growFirst, bind_ok (mallocEntry_refused _ yes)]
      rfl
    refine ⟨.listEnsureLen 3, _, _, bind_ok run _, fun _ => rfl, nofun, fun _ _ => ⟨?_, ?_⟩, fun _ all => ?_⟩
    · exact { linked with chain := ⟨rfl, linked.chain.tail_eq, linked.chain.linked, linked.chain.distinct⟩ }
    · exact Grows.refused [] s
    · exact absurd (all 0 further).1 yes

/-- Behind the request for the index, which the list has already. -/
theorem growEntries_spec (system : System D) (linked : Linked s.heap lst xs) (more : lst.elnum < n)
    (index : lst.index = some lst.entries) (room : lst.entries.length = n) :
    ∃ res lst' next, growEntries system n lst s = .ok ((res, lst'), next) ∧
      Stretched system n lst lst' xs res s next := by
  by_cases empty : lst.elnum = 0
  · obtain rfl : xs = [] := List.length_eq_zero_iff.mp (linked.count.symm.trans empty)
    exact growEmpty_spec system linked empty (Nat.zero_lt_of_lt more) index room
  · have start : (lst.elnum + 0) % 2 ^ 32 = lst.elnum := Nat.mod_eq_of_lt linked.short
    have nonempty : xs ≠ [] := fun none => empty (by rw [linked.count, none, List.length_nil])
    have growing : Growing s lst n ((lst.elnum + 0) % 2 ^ 32) xs := by
      rw [start]
      exact ⟨linked.chain, nonempty, index, room, linked.short,
        fun _ => ⟨linked.count, Nat.le_of_lt more, linked.indexed⟩, linked.sized⟩
    rcases growRest_spec system 0 growing with ⟨res, lst', next, ran, stops, grown, all⟩
    rw [start] at all
    rw [growEntries, if_neg empty]
    refine ⟨res, lst', next, ran, stops, fun ok => ?_, fun here => absurd here empty, fun small granted => ?_⟩
    · rcases grown ok with ⟨-, grows, rest⟩
      exact ⟨grows, rest⟩
    · exact all ⟨small, granted⟩

/-- The branch for a larger length. -/
theorem growTo_spec (system : System D) (linked : Linked s.heap lst xs) (more : lst.elnum < n)
    (fits : sizeofPtr * n < 2 ^ 64) (flags : UInt32) :
    ∃ res lst' next, growTo system n flags lst s = .ok ((res, lst'), next) ∧
      (res ≠ .ok → next.vars.failed = true) ∧
      (res = .ok → ∃ ys, Resized (saves flags) n lst lst' xs ys s next) ∧
      (SafeGrowth system n flags lst s → ∃ ys, Linked next.heap lst' ys ∧ Rebuilt xs ys s next) := by
  rcases reinitUnlessSaved_spec linked flags with ⟨res, first, ran, refills, same, stops, when, goes⟩
  rw [growTo, bind_ok ran, run_ite]
  by_cases ok : res = .ok
  · rw [if_neg (not_not.mpr ok)]
    rcases goes ok with ⟨failed, calls⟩
    by_cases yes : system.grants first.tick = true
    · rcases reallocIndex_granted lst.index fits yes with ⟨entries, ran', room, kept⟩
      rw [bind_ok ran', if_neg nofun]
      have enough : lst.elnum ≤ lst.entries.length := by
        have length := congrArg List.length linked.indexed
        rw [List.length_take, List.length_map, ← linked.count] at length
        omega
      have linked' : Linked first.heap { lst with index := some entries } xs := by
        refine ⟨⟨refills.chain linked.chain, linked.count, ?_⟩, linked.short, linked.sized⟩
        exact (kept lst.elnum (Nat.le_of_lt more) enough).trans linked.indexed
      rcases growEntries_spec system (s := { first with tick := first.tick + 1 }) linked' more rfl room
        with ⟨res', lst', next, ran'', stretched⟩
      have resized : res' = .ok → ∃ ys, Resized (saves flags) n lst lst' xs ys s next := by
        intro ok'
        rcases stretched.grown ok' with ⟨grows, news, linked'', length, whole, new⟩
        have grows' : Grows xs first next := ⟨grows.kept, grows.lists, grows.live⟩
        exact ⟨xs ++ news, resized_of_grown refills same grows' linked'' length whole new⟩
      refine ⟨res', lst', next, ran'', stretched.stops, resized, fun safe => ?_⟩
      have done : res' = .ok → ∃ ys, Linked next.heap lst' ys ∧ Rebuilt xs ys s next := by
        intro ok'
        rcases resized ok' with ⟨ys, both⟩
        exact ⟨ys, both.linked, both.toRebuilt⟩
      rcases safe with broken | no | ⟨empty, no⟩ | ⟨small, granted⟩
      · exact absurd (when.mp ok) broken
      · rw [refills.tick, no] at yes
        exact absurd yes nofun
      · rw [← refills.tick, ← refills.keys] at no
        rcases stretched.void empty no with ⟨linked'', grows⟩
        have grows' : Grows xs first next := ⟨grows.kept, grows.lists, grows.live⟩
        exact ⟨xs, linked'', (rebuilt_self refills).grows grows'⟩
      · apply done
        apply stretched.all small
        intro k low
        have here := granted k low
        change Granted system (first.tick + 1 + k) (first.heap.keys.card + k) ∧
          initAnswer lst (first.vars.calls + k) = 0
        rw [refills.tick, refills.keys, calls]
        exact here
    · rw [bind_ok (reallocIndex_refused lst.index n yes), if_pos rfl]
      have rebuilt := rebuilt_self refills
      refine ⟨_, lst, _, rfl, fun _ => rfl, nofun, fun _ => ⟨xs, refills.linked linked, ?_⟩⟩
      exact ⟨rebuilt.others, rebuilt.new, rebuilt.lists, rebuilt.live⟩
  · rw [if_pos ok]
    exact ⟨_, lst, first, rfl, fun _ => stops ok, nofun, fun _ => ⟨xs, refills.linked linked, rebuilt_self refills⟩⟩

theorem getIndex_spec {entries : List Ptr} {p : Ptr} (index : lst.index = some entries) (here : entries[i]? = some p) :
    getIndex lst i s = .ok (p, s) := by
  rw [getIndex, index]
  simp only [here]
  rfl

/-- An entry of the list through its index. -/
theorem Consistent.entry (consistent : Consistent s.heap lst (ys ++ a :: xs)) :
    getIndex lst ys.length s = .ok (some a, s) := by
  have low : ys.length < lst.elnum := by
    rw [consistent.count, List.length_append, List.length_cons]
    omega
  have here : lst.entries[ys.length]? = some (some a) := by
    have taken := congrArg (fun l => l[ys.length]?) consistent.indexed
    rwa [List.getElem?_take_of_lt low, List.getElem?_map, List.getElem?_append_right le_rfl, Nat.sub_self] at taken
  cases index : lst.index with
  | none =>
      rw [ListT.entries, index] at here
      exact absurd here nofun
  | some entries =>
      apply getIndex_spec index
      rwa [ListT.entries, index] at here

/-- The entries behind a place are cut off, finalised and freed. -/
theorem shrinkTo_cut (system : System D) (linked : Linked s.heap lst (ys ++ a :: xs))
    (last : ys.getLast? = some b) (n : Nat) (place : ys.length = n) (flags : UInt32) :
    ∃ middle, shrinkTo system n flags lst s =
        (reallocIndex system lst.index n >>= fun index =>
          if index = none then pure (.listEnsureLen 8, { lst with tail := some b })
          else
            reinitUnlessSaved flags { lst with tail := some b, index, elnum := n } >>= fun res =>
            pure (if res ≠ .ok then .listEnsureLen 9 else .ok, { lst with tail := some b, index, elnum := n }) :
          ListProg D (Code × ListT D)) middle ∧
      entryLinks.Chain middle.heap lst.head (some b) ys ∧
      (∀ c e, c ∉ ys ++ a :: xs → s.heap.lookup c = some e → middle.heap.lookup c = some e) ∧
      KeepsData ys s middle ∧ middle.vars.lists = s.vars.lists ∧ middle.vars.live = s.vars.live ∧
      middle.tick = s.tick := by
  subst place
  have distinct := linked.chain.distinct
  rcases List.nodup_append.mp distinct with ⟨-, distinct', apart⟩
  have inside : b ∈ ys := List.mem_of_getLast? last
  rcases linked.chain.cell (List.mem_append_right ys List.mem_cons_self) with ⟨e, cell⟩
  rcases linked.chain.cell (List.mem_append_left _ inside) with ⟨eb, cellb⟩
  have links := linked.chain.linked ys a xs rfl
  rw [Links.pair_eq cell, last] at links
  have prev : e.prev = some b := congrArg Prod.fst (Option.some.inj links)
  let cut : ListStore D := { s with heap := s.heap.insert b { eb with next := none } }
  have elsewhere : ∀ c, c ≠ b → cut.heap.lookup c = s.heap.lookup c := fun c other => Finmap.lookup_insert_of_ne _ other
  have strand : Strand (wiring ListEntry.next cut.heap) (some a) (a :: xs) none := by
    apply (strand_of_chain linked.chain).frame
    intro c inside'
    have other : c ≠ b := fun same => apart b inside c inside' same.symm
    rw [wiring, wiring, elsewhere c other]
  have short : (a :: xs).length < cut.bound := by
    have most := linked.chain.short
    rw [List.length_append] at most
    rw [Store.bound]
    have card : cut.heap.keys.card = s.heap.keys.card := card_update cellb _
    omega
  rcases releaseEntries_spec lst strand distinct' cut.bound short
    with ⟨middle, ran, others, -, lists, live, -, -, tick⟩
  have same : ∀ c ∈ ys, middle.heap.lookup c = cut.heap.lookup c := by
    intro c inside'
    exact others c fun later => apart c inside' c later rfl
  have found : cut.heap.lookup b = some { eb with next := none } := Finmap.lookup_insert _
  refine ⟨middle, ?_, ?_, fun c e' outside cell' => ?_, fun c inside' e' cell' => ?_, lists, live, tick⟩
  · rw [shrinkTo, bind_ok linked.entry, bind_ok (load_ok cell), prev, bind_ok (update_ok _ cellb), bound_bind,
      bind_ok ran]
  · have head : lst.head = ys.head? := by
      rw [linked.chain.head_eq]
      cases ys with
      | nil => exact absurd last (by simp)
      | cons y ys => rfl
    rw [head, ← last]
    apply linked.chain.cut
    · intro c l last' pair
      obtain rfl : b = c := Option.some.inj (last.symm.trans last')
      rw [Links.pair_eq cellb] at pair
      rw [Links.pair, same b inside, found, ← Option.some.inj pair]
      rfl
    · intro c inside' notLast
      have other : c ≠ b := fun here => notLast (here ▸ last)
      rw [Links.pair, Links.pair, same c inside', elsewhere c other]
  · have other : c ≠ b := fun here => outside (here ▸ List.mem_append_left _ inside)
    rw [others c fun later => outside (List.mem_append_right _ later), elsewhere c other]
    exact cell'
  · rw [same c inside']
    by_cases here : c = b
    · subst here
      obtain rfl : eb = e' := Option.some.inj (cellb.symm.trans cell')
      exact ⟨_, found, rfl⟩
    · exact ⟨e', (elsewhere c here).trans cell', rfl⟩

theorem shrinkTo_spec (system : System D) (linked : Linked s.heap lst xs) (positive : 0 < n) (less : n < lst.elnum)
    (flags : UInt32) :
    ∃ res lst' next, shrinkTo system n flags lst s = .ok ((res, lst'), next) ∧
      (res ≠ .ok → next.vars.failed = true) ∧
      (res = .ok → ∃ ys, Resized (saves flags) n lst lst' xs ys s next) ∧
      (system.grants s.tick = true → ∃ ys, Linked next.heap lst' ys ∧ Rebuilt xs ys s next) := by
  have length : n < xs.length := linked.count ▸ less
  let ys := xs.take n
  have place : ys.length = n := List.length_take_of_le (Nat.le_of_lt length)
  have split : xs = ys ++ xs[n] :: xs.drop (n + 1) := by
    rw [← List.drop_eq_getElem_cons length, List.take_append_drop]
  rcases List.eq_nil_or_concat ys with empty | ⟨front, b, shape⟩
  · rw [empty, List.length_nil] at place
    exact absurd place (Nat.ne_of_lt positive)
  have last : ys.getLast? = some b := by rw [shape, List.concat_eq_append, List.getLast?_concat]
  have linked₀ : Linked s.heap lst (ys ++ xs[n] :: xs.drop (n + 1)) := split ▸ linked
  rcases shrinkTo_cut system linked₀ last n place flags
    with ⟨middle, run, chain, others, data, lists, live, tick⟩
  rw [← split] at others
  rw [run]
  by_cases yes : system.grants middle.tick = true
  · have fits : sizeofPtr * n < 2 ^ 64 := by
      have short := linked.short
      rw [sizeofPtr]
      omega
    rcases reallocIndex_granted lst.index fits yes with ⟨entries, ran, room, kept⟩
    rw [bind_ok ran, if_neg nofun]
    let shorter : ListT D := { lst with tail := some b, index := some entries, elnum := n }
    let cut : ListStore D := { middle with tick := middle.tick + 1 }
    have enough : n ≤ lst.entries.length := by
      have length' := congrArg List.length linked.indexed
      rw [List.length_take, List.length_map, ← linked.count] at length'
      omega
    have linked₁ : Linked cut.heap shorter ys := by
      refine ⟨⟨chain, place.symm, ?_⟩, Nat.lt_trans less linked.short, linked.sized⟩
      have whole := congrArg (List.take n) linked.indexed
      rw [List.take_take, Nat.min_eq_left (Nat.le_of_lt less), ← List.map_take] at whole
      exact (kept n le_rfl enough).trans whole
    rcases reinitUnlessSaved_spec linked₁ flags with ⟨res, next, ran', refills, same, stops, -, -⟩
    have linked' : Linked next.heap shorter ys := refills.linked linked₁
    have rebuilt : Rebuilt xs ys s next := by
      refine ⟨fun c e outside cell => ?_, fun c inside => .inl (List.mem_of_mem_take inside), refills.lists.trans lists,
        refills.live.trans live⟩
      have outside' : c ∉ ys := fun inside => outside (List.mem_of_mem_take inside)
      exact (refills.others c outside').trans (others c e outside cell)
    refine ⟨_, shorter, next, bind_ok ran' _, fun bad => stops fun ok => ?_, fun _ => ⟨ys, ?_⟩,
      fun _ => ⟨ys, linked', rebuilt⟩⟩
    · rw [ok] at bad
      exact bad (if_neg (not_not.mpr rfl))
    · refine ⟨rebuilt, linked', place, ?_, fun _ => room, fun saved => ?_⟩
      · exact List.take_of_length_le (place.symm ▸ Nat.le_of_lt length)
      · rw [same saved]
        exact data
  · rw [bind_ok (reallocIndex_refused lst.index n yes), if_pos rfl]
    exact ⟨_, _, _, rfl, fun _ => rfl, nofun, fun granted => absurd (tick ▸ granted) yes⟩

/-- The list is emptied. -/
theorem listDataFini_spec (linked : Linked s.heap lst xs) :
    ∃ next, listDataFini lst s =
        .ok ({ lst with tail := none, head := none, index := none, elnum := 0 }, next) ∧
      (∀ c, c ∉ xs → next.heap.lookup c = s.heap.lookup c) ∧ next.vars.lists = s.vars.lists ∧
      next.vars.live = s.vars.live ∧ next.vars.failed = s.vars.failed := by
  have short : xs.length < s.bound := Nat.lt_succ_of_le linked.chain.short
  rcases releaseEntries_spec lst (strand_of_head linked.chain) linked.chain.distinct s.bound short
    with ⟨next, ran, others, -, lists, live, failed, -, -⟩
  refine ⟨next, ?_, others, lists, live, failed⟩
  rw [listDataFini, bound_bind, bind_ok ran]
  rfl

theorem linked_empty (h : Heap (ListEntry D)) (empty : lst.elnum = 0) (head : lst.head = none) (tail : lst.tail = none)
    (sized : sizeofEntry + lst.elsz < 2 ^ 64) : Linked h lst [] := by
  refine ⟨⟨?_, empty, ?_⟩, ?_, sized⟩
  · rw [head, tail]
    exact Links.Chain.empty h
  · rw [empty]
    rfl
  · rw [empty]
    decide

/-- A list is set up. -/
theorem listDataInit_spec (system : System D) (lst : ListT D) (s : ListStore D) (fits : sizeofPtr * lst.elnum < 2 ^ 64)
    (sized : sizeofEntry + lst.elsz < 2 ^ 64) :
    ∃ res lst' next, listDataInit system lst s = .ok ((res, lst'), next) ∧ Grows [] s next ∧
      (res ≠ .ok → next.vars.failed = true) ∧
      (res = .ok → ∃ ys, Linked next.heap lst' ys ∧ ys.length = lst.elnum ∧ lst'.entries.length = lst.elnum ∧
        ∀ a ∈ ys, s.heap.lookup a = none) := by
  rw [listDataInit]
  by_cases positive : 0 < lst.elnum
  · rw [if_pos positive]
    by_cases yes : system.grants s.tick = true
    · rcases reallocIndex_granted none fits yes with ⟨entries, ran, room, -⟩
      let indexed : ListT D := { lst with index := some entries }
      let first : ListStore D := { s with tick := s.tick + 1 }
      rw [bind_ok ran, if_neg nofun]
      by_cases yes' : Granted system first.tick first.heap.keys.card
      · rcases firstEntry_spec system lst first with ⟨next, ran', chain, adds, -, fine, wrong⟩
        let begun : ListT D := { indexed with head := some (fresh system first), tail := some (fresh system first) }
        let grown : ListT D := { begun with index := some (entries.set 0 (some (fresh system first))) }
        rw [bind_ok (mallocEntry_granted sized yes'), if_neg nofun, bind_ok (update_entered _ _), bind_ok ran']
        by_cases good : initAnswer lst first.vars.calls = 0
        · have set : setIndex begun 0 (some (fresh system first)) next = .ok (grown, next) :=
            setIndex_spec rfl (room.symm ▸ positive : 0 < entries.length)
          have room' : indexed.entries.length = lst.elnum := room
          have growing : Growing next grown lst.elnum 1 [fresh system first] :=
            growing_first chain room' positive sized
          have enough : system.space < next.heap.keys.card + (system.space + 1) := by omega
          have refusal : Code.dlistInit 3 ≠ .ok := nofun
          have breakage : Code.dlistInit 4 ≠ .ok := nofun
          rcases appendEntries_spec growing (system.space + 1) (Nat.succ_pos _) enough refusal breakage
            with ⟨res, lst', last, ran'', grows, stops, done, -⟩
          rw [if_neg (not_not.mpr good), bind_ok set]
          have grows' : Grows [] s last := by
            have both := adds.further grows
            exact ⟨both.kept, both.lists, both.live⟩
          refine ⟨res, lst', last, ran'', grows', stops, fun ok => ?_⟩
          have count : { lst' with elnum := lst.elnum } = lst' := by rw [(done ok).same]
          rcases (done ok).linked sized with ⟨news, linked, length, whole, new⟩
          rw [count] at linked
          refine ⟨_, linked, length, whole, fun a inside => ?_⟩
          rcases List.mem_append.mp inside with here | later
          · exact List.mem_singleton.mp here ▸ adds.new
          · exact adds.lookup_none (new a later)
        · rw [if_pos good]
          exact ⟨_, _, next, rfl, ⟨adds.kept, adds.lists, adds.live⟩, fun _ => wrong good, nofun⟩
      · rw [bind_ok (mallocEntry_refused _ yes'), if_pos rfl]
        have refused := Grows.refused [] first
        exact ⟨_, _, _, rfl, ⟨refused.kept, refused.lists, refused.live⟩, fun _ => rfl, nofun⟩
    · rw [bind_ok (reallocIndex_refused none _ yes), if_pos rfl]
      exact ⟨_, _, _, rfl, Grows.refused [] s, fun _ => rfl, nofun⟩
  · rw [if_neg positive]
    have zero : lst.elnum = 0 := Nat.eq_zero_of_not_pos positive
    have linked : Linked s.heap { lst with index := none, head := none, tail := none } [] :=
      linked_empty s.heap zero rfl rfl sized
    exact ⟨.ok, _, s, rfl, Grows.refl [] s, fun wrong => absurd rfl wrong,
      fun _ => ⟨[], linked, zero.symm, zero.symm, nofun⟩⟩

/-- A change of the length that may fail leaves the list in order. -/
def SafeChange (system : System D) (n : Nat) (flags : UInt32) (lst : ListT D) (s : ListStore D) : Prop :=
  (lst.elnum < n → SafeGrowth system n flags lst s) ∧ (0 < n → n < lst.elnum → system.grants s.tick = true)

theorem listEnsureLen_spec (system : System D) (linked : Linked s.heap lst xs) (fits : sizeofPtr * n < 2 ^ 64)
    (flags : UInt32) :
    ∃ res lst' next, listEnsureLen system n flags lst s = .ok ((res, lst'), next) ∧
      (res ≠ .ok → next.vars.failed = true) ∧
      (res = .ok → ∃ ys, Resized (saves flags) n lst lst' xs ys s next) ∧
      (SafeChange system n flags lst s → ∃ ys, Linked next.heap lst' ys ∧ Rebuilt xs ys s next) := by
  rw [listEnsureLen]
  by_cases more : lst.elnum < n
  · rw [if_pos more]
    rcases growTo_spec system linked more fits flags with ⟨res, lst', next, ran, stops, resized, safe⟩
    exact ⟨res, lst', next, ran, stops, resized, fun both => safe (both.1 more)⟩
  rw [if_neg more]
  by_cases less : n < lst.elnum
  · rw [if_pos less]
    by_cases positive : 0 < n
    · rw [if_pos positive]
      rcases shrinkTo_spec system linked positive less flags
        with ⟨res, lst', next, ran, stops, resized, safe⟩
      exact ⟨res, lst', next, ran, stops, resized, fun both => safe (both.2 positive less)⟩
    · rw [if_neg positive]
      obtain rfl : n = 0 := Nat.eq_zero_of_not_pos positive
      rcases listDataFini_spec linked with ⟨next, ran, others, lists, live, -⟩
      have rebuilt : Rebuilt xs [] s next :=
        ⟨fun c _ outside cell => (others c outside).trans cell, nofun, lists, live⟩
      have linked' : Linked next.heap { lst with tail := none, head := none, index := none, elnum := 0 } [] :=
        linked_empty next.heap rfl rfl rfl linked.sized
      refine ⟨.ok, _, next, bind_ok ran _, fun wrong => absurd rfl wrong, fun _ => ⟨[], ?_⟩,
        fun _ => ⟨[], linked', rebuilt⟩⟩
      exact ⟨rebuilt, linked', rfl, by rw [List.take_nil, List.take_zero], fun _ => rfl, fun _ => nofun⟩
  · rw [if_neg less]
    obtain rfl : lst.elnum = n := by omega
    rcases reinitUnlessSaved_spec linked flags with ⟨res, next, ran, refills, same, stops, -, -⟩
    have linked' := refills.linked linked
    have rebuilt := rebuilt_self refills
    refine ⟨_, lst, next, bind_ok ran _, fun bad => stops fun ok => ?_, fun _ => ⟨xs, ?_⟩,
      fun _ => ⟨xs, linked', rebuilt⟩⟩
    · rw [ok] at bad
      exact bad (if_neg (not_not.mpr rfl))
    · refine ⟨rebuilt, linked', linked.count.symm, ?_, id, fun saved c _ e cell => ?_⟩
      · rw [linked.count]
      · rw [same saved]
        exact ⟨e, cell, rfl⟩

theorem save_saves : saves LIST_FLAG_SAVE = true := by decide

/-- The last entry, as `list_get` finds it. -/
theorem Linked.last (linked : Linked s.heap lst ys) (nonempty : ys ≠ []) :
    ∃ a, listGet lst ((lst.elnum + 2 ^ 64 - 1) % 2 ^ 32) s = .ok (some a, s) := by
  rcases List.eq_nil_or_concat ys with empty | ⟨front, a, shape⟩
  · exact absurd empty nonempty
  rw [List.concat_eq_append] at shape
  have count : lst.elnum = front.length + 1 := by
    rw [linked.count, shape, List.length_append, List.length_singleton]
  have place : (lst.elnum + 2 ^ 64 - 1) % 2 ^ 32 = front.length := by
    have short := linked.short
    omega
  have consistent : Consistent s.heap lst (front ++ a :: []) := shape ▸ linked.toConsistent
  refine ⟨a, ?_⟩
  rw [place, listGet, if_pos (by omega)]
  exact consistent.entry

theorem listIncr_spec (system : System D) (linked : Linked s.heap lst xs) :
    ∃ p lst' next, listIncr system lst s = .ok ((p, lst'), next) ∧ (p = none → next.vars.failed = true) ∧
      (p ≠ none → ∃ ys, Resized true (lst.elnum + 1) lst lst' xs ys s next) ∧
      (SafeChange system (lst.elnum + 1) LIST_FLAG_SAVE lst s →
        ∃ ys, Linked next.heap lst' ys ∧ Rebuilt xs ys s next) := by
  have short := linked.short
  have fits : sizeofPtr * (lst.elnum + 1) < 2 ^ 64 := by
    rw [sizeofPtr]
    omega
  rcases listEnsureLen_spec system linked fits LIST_FLAG_SAVE with ⟨res, lst', next, ran, stops, resized, safe⟩
  rw [listIncr, Nat.mod_eq_of_lt (by omega), bind_ok ran]
  dsimp only
  by_cases ok : res = .ok
  · rw [if_neg (not_not.mpr ok)]
    rcases resized ok with ⟨ys, done⟩
    have nonempty : ys ≠ [] := by
      intro empty
      have length := done.length
      rw [empty] at length
      exact absurd length.symm (Nat.succ_ne_zero _)
    rcases done.linked.last nonempty with ⟨a, found⟩
    rw [bind_ok found]
    exact ⟨some a, lst', next, rfl, nofun, fun _ => ⟨ys, save_saves ▸ done⟩, safe⟩
  · rw [if_pos ok]
    exact ⟨none, lst', next, rfl, fun _ => stops ok, fun wrong => absurd rfl wrong, safe⟩

theorem listDecr_spec (system : System D) (linked : Linked s.heap lst xs) (nonempty : lst.elnum ≠ 0) :
    ∃ res lst' next, listDecr system lst s = .ok ((res, lst'), next) ∧ (res ≠ .ok → next.vars.failed = true) ∧
      (res = .ok → ∃ ys, Resized true (lst.elnum - 1) lst lst' xs ys s next) ∧
      (SafeChange system (lst.elnum - 1) LIST_FLAG_SAVE lst s →
        ∃ ys, Linked next.heap lst' ys ∧ Rebuilt xs ys s next) := by
  have short := linked.short
  have fits : sizeofPtr * (lst.elnum - 1) < 2 ^ 64 := by
    rw [sizeofPtr]
    omega
  have less : (lst.elnum + 2 ^ 64 - 1) % 2 ^ 64 = lst.elnum - 1 := by omega
  rcases listEnsureLen_spec system linked fits LIST_FLAG_SAVE with ⟨res, lst', next, ran, stops, resized, safe⟩
  rw [listDecr, less, bind_ok ran]
  dsimp only
  by_cases ok : res = .ok
  · rw [if_neg (not_not.mpr ok)]
    exact ⟨.ok, lst', next, rfl, fun wrong => absurd rfl wrong, fun _ => save_saves ▸ resized ok, safe⟩
  · rw [if_pos ok]
    exact ⟨.listDecr 1, lst', next, rfl, fun _ => stops ok, nofun, safe⟩

theorem listInit_spec (system : System D) {elsz : Nat} (positive : 0 < elsz) (fits : sizeofPtr * n < 2 ^ 64)
    (sized : sizeofEntry + elsz < 2 ^ 64) (init fini : Option (Callback D)) (lst : ListT D) (s : ListStore D) :
    ∃ res lst' next, listInit system elsz n init fini lst s = .ok ((res, lst'), next) ∧ Grows [] s next ∧
      (res ≠ .ok → next.vars.failed = true) ∧
      (res = .ok → ∃ ys, Linked next.heap lst' ys ∧ ys.length = n ∧ lst'.entries.length = n ∧
        ∀ a ∈ ys, s.heap.lookup a = none) := by
  rcases listDataInit_spec system { lst with elsz, elnum := n, init, fini } s fits sized
    with ⟨res, lst', next, ran, grows, stops, done⟩
  have run : listInit system elsz n init fini lst s = .ok ((if res = .ok then .ok else .listInit 1, lst'), next) := by
    rw [listInit, decide_eq_true positive, check_bind, bind_ok ran]
    rfl
  by_cases ok : res = .ok
  · rw [if_pos ok] at run
    exact ⟨.ok, lst', next, run, grows, fun wrong => absurd rfl wrong, fun _ => done ok⟩
  · rw [if_neg ok] at run
    exact ⟨.listInit 1, lst', next, run, grows, fun _ => stops ok, nofun⟩

theorem listFini_spec (linked : Linked s.heap lst xs) :
    ∃ lst' next, listFini lst s = .ok (lst', next) ∧ Linked next.heap lst' [] ∧ Rebuilt xs [] s next ∧
      lst'.index = none ∧ next.vars.failed = s.vars.failed := by
  rcases listDataFini_spec linked with ⟨next, ran, others, lists, live, failed⟩
  refine ⟨_, next, bind_ok ran _, ?_, ⟨fun c _ outside cell => (others c outside).trans cell, nofun, lists, live⟩, rfl,
    failed⟩
  exact linked_empty next.heap rfl rfl rfl linked.sized

end MnCommon.IndexedList
