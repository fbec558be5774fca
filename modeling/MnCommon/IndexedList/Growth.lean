import MnCommon.IndexedList.Entries

/-! New entries at the end of a list. -/

namespace MnCommon.IndexedList

open Memory

variable {D : Type} {system : System D} {lst : ListT D} {s middle next : ListStore D} {xs ys : List Addr} {a b : Addr}
  {e : ListEntry D} {n i : Nat} {head tail : Ptr}

/-- The pointers of the index; none where it is NULL. -/
def ListT.entries (lst : ListT D) : List Ptr := lst.index.getD []

/-- The next request for an entry is granted. -/
def Granted (system : System D) (tick count : Nat) : Prop := system.grants tick = true ∧ count < system.space

/-- The address that it gets. -/
def fresh (system : System D) (s : ListStore D) : Addr := system.pick s.tick s.heap.keys

theorem fresh_new (system : System D) (s : ListStore D) : s.heap.lookup (fresh system s) = none := by
  have new := system.pick_fresh s.tick s.heap.keys
  rwa [Finmap.mem_keys, ← Finmap.lookup_eq_none] at new

theorem mallocEntry_refused (elsz : Nat) (no : ¬ Granted system s.tick s.heap.keys.card) :
    mallocEntry system elsz s = refuse s := if_neg no

/-- A new entry at that address. -/
def entered (system : System D) (s : ListStore D) (e : ListEntry D) : ListStore D :=
  { s with heap := s.heap.insert (fresh system s) e, tick := s.tick + 1 }

theorem mallocEntry_granted {elsz : Nat} (sized : sizeofEntry + elsz < 2 ^ 64)
    (yes : Granted system s.tick s.heap.keys.card) :
    mallocEntry system elsz s = .ok (some (fresh system s), entered system s (system.junk s.tick)) := by
  rw [mallocEntry]
  exact (if_pos yes).trans (if_pos sized)

theorem entered_lookup (system : System D) (s : ListStore D) (e : ListEntry D) :
    (entered system s e).heap.lookup (fresh system s) = some e := Finmap.lookup_insert _

theorem update_entered (f : ListEntry D → ListEntry D) (e : ListEntry D) :
    update (some (fresh system s)) f (entered system s e) = .ok ((), entered system s (f e)) := by
  rw [update_ok f (entered_lookup system s e), entered, entered, Finmap.insert_insert]

theorem card_insert {h : Heap (ListEntry D)} (new : h.lookup a = none) (e : ListEntry D) :
    (h.insert a e).keys.card = h.keys.card + 1 := by
  have same : (h.insert a e).keys = insert a h.keys := by
    ext b
    rw [Finmap.mem_keys, Finmap.mem_insert, Finset.mem_insert, Finmap.mem_keys]
  rw [same, Finset.card_insert_of_notMem]
  rw [Finmap.mem_keys]
  exact Finmap.lookup_eq_none.mp new

theorem card_update {h : Heap (ListEntry D)} {e' : ListEntry D} (cell : h.lookup a = some e') (e : ListEntry D) :
    (h.insert a e).keys.card = h.keys.card := by
  have same : (h.insert a e).keys = h.keys := by
    ext b
    rw [Finmap.mem_keys, Finmap.mem_insert, Finmap.mem_keys, or_iff_right_of_imp]
    rintro rfl
    exact Finmap.mem_of_lookup_eq_some cell
  rw [same]

/-- The entries that are there keep their data, and those not in the list are left alone. -/
structure Grows (xs : List Addr) (s next : ListStore D) : Prop where
  kept : ∀ a e, s.heap.lookup a = some e →
    ∃ e', next.heap.lookup a = some e' ∧ e'.data = e.data ∧ (a ∉ xs → e' = e)
  lists : next.vars.lists = s.vars.lists
  live : next.vars.live = s.vars.live

theorem Grows.refl (xs : List Addr) (s : ListStore D) : Grows xs s s :=
  ⟨fun _ e cell => ⟨e, cell, rfl, fun _ => rfl⟩, rfl, rfl⟩

/-- A request that is refused. -/
theorem Grows.refused (xs : List Addr) (s : ListStore D) :
    Grows xs s { s with vars := { s.vars with failed := true }, tick := s.tick + 1 } :=
  ⟨fun _ e cell => ⟨e, cell, rfl, fun _ => rfl⟩, rfl, rfl⟩

theorem Grows.trans (first : Grows xs s middle) (second : Grows ys middle next)
    (within : ∀ a ∈ ys, a ∈ xs ∨ s.heap.lookup a = none) : Grows xs s next := by
  refine ⟨fun a e cell => ?_, second.lists.trans first.lists, second.live.trans first.live⟩
  rcases first.kept a e cell with ⟨e', cell', data', same'⟩
  rcases second.kept a e' cell' with ⟨e'', cell'', data'', same''⟩
  refine ⟨e'', cell'', data''.trans data', fun outside => ?_⟩
  have outside' : a ∉ ys := by
    intro inside
    rcases within a inside with old | new
    · exact outside old
    · exact absurd (cell.symm.trans new) nofun
  exact (same'' outside').trans (same' outside)

theorem Grows.lookup_none (grows : Grows xs s next) (new : next.heap.lookup a = none) : s.heap.lookup a = none := by
  by_contra there
  rcases Option.ne_none_iff_exists'.mp there with ⟨e, cell⟩
  rcases grows.kept a e cell with ⟨e', cell', -, -⟩
  exact absurd (cell'.symm.trans new) nofun

/-- One more entry. -/
structure Adds (xs : List Addr) (a : Addr) (s next : ListStore D) : Prop extends Grows xs s next where
  new : s.heap.lookup a = none
  there : ∃ e, next.heap.lookup a = some e
  tick : next.tick = s.tick + 1
  card : next.heap.keys.card = s.heap.keys.card + 1

theorem Refills.grows (refills : Refills [a] middle next) (new : s.heap.lookup a = none) (grows : Grows xs s middle) :
    Grows xs s next := by
  refine ⟨fun b e cell => ?_, refills.lists.trans grows.lists, refills.live.trans grows.live⟩
  have outside : b ∉ [a] := by
    intro inside
    rw [List.mem_singleton.mp inside, new] at cell
    exact absurd cell nofun
  rw [refills.others b outside]
  exact grows.kept b e cell

theorem Adds.refill (adds : Adds xs a s middle) (refills : Refills [a] middle next) : Adds xs a s next := by
  rcases adds.there with ⟨e, cell⟩
  rcases refills.cell cell with ⟨e', cell', -, -⟩
  refine ⟨refills.grows adds.new adds.toGrows, adds.new, ⟨e', cell'⟩, refills.tick.trans adds.tick, ?_⟩
  rw [refills.keys, adds.card]

theorem adds_entered (system : System D) (s : ListStore D) (xs : List Addr) (e : ListEntry D) :
    Adds xs (fresh system s) s (entered system s e) := by
  refine ⟨⟨fun b e' cell => ⟨e', ?_, rfl, fun _ => rfl⟩, rfl, rfl⟩, fresh_new system s, ⟨e, entered_lookup system s e⟩,
    rfl, card_insert (fresh_new system s) e⟩
  have other : b ≠ fresh system s := by
    intro here
    rw [here, fresh_new] at cell
    exact absurd cell nofun
  exact (Finmap.lookup_insert_of_ne _ other).trans cell

/-- The first entry of a list. -/
theorem chain_first (system : System D) (s : ListStore D) (e : ListEntry D) (prev : e.prev = none)
    (forth : e.next = none) :
    entryLinks.Chain (entered system s e).heap (some (fresh system s)) (some (fresh system s)) [fresh system s] := by
  have here : entryLinks.pair (entered system s e).heap (fresh system s) = some (none, none) := by
    rw [Links.pair_eq (entered_lookup system s e)]
    exact congrArg some (Prod.ext prev forth)
  exact (Links.Chain.empty s.heap).snoc List.not_mem_nil here nofun nofun

/-- The last entry is made to point at the new one. -/
def pointed (system : System D) (s : ListStore D) (new last : ListEntry D) (b : Addr) : ListStore D :=
  let grown := entered system s new
  { grown with heap := grown.heap.insert b { last with next := some (fresh system s) } }

theorem update_pointed (new : ListEntry D) (cell : s.heap.lookup b = some e) :
    update (some b) (fun e => { e with next := some (fresh system s) }) (entered system s new) =
      .ok ((), pointed system s new e b) := by
  have other : b ≠ fresh system s := by
    intro here
    rw [here, fresh_new] at cell
    exact absurd cell nofun
  have cell' : (entered system s new).heap.lookup b = some e := (Finmap.lookup_insert_of_ne _ other).trans cell
  exact update_ok _ cell'

theorem adds_pointed (system : System D) (new : ListEntry D) (cell : s.heap.lookup b = some e) (inside : b ∈ xs) :
    Adds xs (fresh system s) s (pointed system s new e b) := by
  have adds := adds_entered system s xs new
  have other : fresh system s ≠ b := by
    intro here
    rw [← here, fresh_new] at cell
    exact absurd cell nofun
  rcases adds.kept b e cell with ⟨e', cell', -, -⟩
  refine ⟨⟨fun c e' found => ?_, rfl, rfl⟩, adds.new, ⟨new, ?_⟩, rfl, ?_⟩
  · rcases adds.kept c e' found with ⟨e'', found', data, same⟩
    by_cases here : c = b
    · subst here
      obtain rfl : e = e' := Option.some.inj (cell.symm.trans found)
      exact ⟨_, Finmap.lookup_insert _, rfl, fun outside => absurd inside outside⟩
    · exact ⟨e'', (Finmap.lookup_insert_of_ne _ here).trans found', data, same⟩
  · exact (Finmap.lookup_insert_of_ne _ other).trans (entered_lookup system s new)
  · exact (card_update cell' _).trans adds.card

theorem chain_pointed (chain : entryLinks.Chain s.heap head tail xs) (last : xs.getLast? = some b)
    (cell : s.heap.lookup b = some e) (new : ListEntry D) (prev : new.prev = some b) (forth : new.next = none) :
    entryLinks.Chain (pointed system s new e b).heap head (some (fresh system s)) (xs ++ [fresh system s]) := by
  have apart : fresh system s ∉ xs := by
    intro inside
    rcases chain.cell inside with ⟨e', cell'⟩
    exact absurd (cell'.symm.trans (fresh_new system s)) nofun
  have other : fresh system s ≠ b := fun here => apart (here ▸ List.mem_of_getLast? last)
  have head_eq : (xs ++ [fresh system s]).head? = head := by
    rw [chain.head_eq]
    cases xs with
    | nil => exact absurd last nofun
    | cons x xs => rfl
  rw [← head_eq]
  apply chain.snoc apart
  · have found : (pointed system s new e b).heap.lookup (fresh system s) = some new :=
      (Finmap.lookup_insert_of_ne _ other).trans (entered_lookup system s new)
    rw [Links.pair_eq found, last]
    exact congrArg some (Prod.ext prev forth)
  · intro c l last' pair
    obtain rfl : b = c := Option.some.inj (last.symm.trans last')
    have found : (pointed system s new e b).heap.lookup b = some { e with next := some (fresh system s) } :=
      Finmap.lookup_insert _
    rw [Links.pair_eq cell] at pair
    rw [Links.pair_eq found, ← Option.some.inj pair]
    rfl
  · intro c inside notLast
    have here : c ≠ b := fun same => notLast (same ▸ last)
    have apart' : c ≠ fresh system s := fun same => apart (same ▸ inside)
    have found : (pointed system s new e b).heap.lookup c = s.heap.lookup c :=
      (Finmap.lookup_insert_of_ne _ here).trans (Finmap.lookup_insert_of_ne _ apart')
    rw [Links.pair, Links.pair, found]

/-- The list at the head of the loop that makes its entries. Where the counter does not
wrap, the index has those that are there. -/
structure Growing (s : ListStore D) (lst : ListT D) (n i : Nat) (xs : List Addr) : Prop where
  chain : entryLinks.Chain s.heap lst.head lst.tail xs
  nonempty : xs ≠ []
  index : lst.index = some lst.entries
  room : lst.entries.length = n
  counter : i < 2 ^ 32
  indexed : n < 2 ^ 32 → i = xs.length ∧ i ≤ n ∧ lst.entries.take i = xs.map some
  sized : sizeofEntry + lst.elsz < 2 ^ 64

theorem Adds.granted (adds : Adds xs a s next) {k : Nat} :
    Granted system (next.tick + k) (next.heap.keys.card + k) ↔
      Granted system (s.tick + (k + 1)) (s.heap.keys.card + (k + 1)) := by
  rw [adds.tick, adds.card, Nat.add_right_comm, Nat.add_right_comm _ 1 k, Nat.add_assoc, Nat.add_assoc]

theorem setIndex_spec {p : Ptr} (index : lst.index = some lst.entries) (inside : i < lst.entries.length) :
    setIndex lst i p s = .ok ({ lst with index := some (lst.entries.set i p) }, s) := by
  rw [setIndex, index]
  exact congrArg (fun x : ListProg D (ListT D) => x s) (if_pos inside)

/-- A round whose request is granted. -/
theorem Growing.round (refused broken : Code) (growing : Growing s lst n i xs) (further : i < n) (fuel : Nat)
    (yes : Granted system s.tick s.heap.keys.card) :
    ∃ a next, Adds xs a s next ∧ next.vars.calls = s.vars.calls + initCalls lst ∧
      (initAnswer lst s.vars.calls ≠ 0 → next.vars.failed = true ∧
        appendEntries system refused broken n (fuel + 1) lst lst.tail i s =
          .ok ((broken, { lst with tail := some a }), next)) ∧
      (initAnswer lst s.vars.calls = 0 → next.vars.failed = s.vars.failed ∧
        ∃ lst', lst' = { lst with tail := lst'.tail, index := lst'.index } ∧
          Growing next lst' n ((i + 1) % 2 ^ 32) (xs ++ [a]) ∧
          appendEntries system refused broken n (fuel + 1) lst lst.tail i s =
            appendEntries system refused broken n fuel lst' lst'.tail ((i + 1) % 2 ^ 32) next) := by
  rcases List.eq_nil_or_concat xs with empty | ⟨front, b, whole⟩
  · exact absurd empty growing.nonempty
  rw [List.concat_eq_append] at whole
  have last : xs.getLast? = some b := by rw [whole, List.getLast?_concat]
  have inside : b ∈ xs := List.mem_of_getLast? last
  have tail : lst.tail = some b := growing.chain.tail_eq.trans last
  rcases growing.chain.cell inside with ⟨e, cell⟩
  let new : ListEntry D := { system.junk s.tick with next := none, prev := some b }
  have adds := adds_pointed system new cell inside
  rcases adds.there with ⟨e', there⟩
  rcases initEntry_spec lst there with ⟨next, ran, refills, fine, wrong, calls⟩
  have chain := refills.chain (chain_pointed growing.chain last cell new rfl rfl)
  have run : appendEntries system refused broken n (fuel + 1) lst lst.tail i s =
      (if initAnswer lst s.vars.calls ≠ 0 then pure (broken, { lst with tail := some (fresh system s) })
        else setIndex { lst with tail := some (fresh system s) } i (some (fresh system s)) >>= fun lst =>
          appendEntries system refused broken n fuel lst (some (fresh system s)) ((i + 1) % 2 ^ 32) :
        ListProg D (Code × ListT D)) next := by
    rw [appendEntries, if_pos further, bind_ok (mallocEntry_granted growing.sized yes)]
    rw [if_neg nofun, tail, bind_ok (update_entered _ _), bind_ok (update_pointed new cell), bind_ok ran]
    rfl
  refine ⟨fresh system s, next, adds.refill refills, calls, fun bad => ⟨wrong bad, ?_⟩, fun good => ⟨fine good, ?_⟩⟩
  · rw [run, if_pos bad]
    rfl
  · have room : i < lst.entries.length := growing.room.symm ▸ further
    let longer : ListT D := { lst with tail := some (fresh system s) }
    let grown : ListT D := { longer with index := some (lst.entries.set i (some (fresh system s))) }
    have set : setIndex longer i (some (fresh system s)) next = .ok (grown, next) := setIndex_spec growing.index room
    refine ⟨grown, rfl, ?_, ?_⟩
    rotate_left
    · rw [run, if_neg (not_not.mpr good)]
      exact bind_ok set _
    · refine ⟨chain, by simp, rfl, (List.length_set ..).trans growing.room, Nat.mod_lt _ (by decide), fun small => ?_,
        growing.sized⟩
      rcases growing.indexed small with ⟨count, within, indexed⟩
      rw [Nat.mod_eq_of_lt (Nat.lt_of_le_of_lt further small)]
      refine ⟨by rw [List.length_append, count, List.length_singleton], further, ?_⟩
      change (lst.entries.set i (some (fresh system s))).take (i + 1) = _
      rw [List.take_succ_eq_append_getElem (by rwa [List.length_set]), List.getElem_set_self,
        List.take_set_of_le le_rfl, indexed, List.map_append, List.map_singleton]

/-- What the loop has made where it comes to its end. -/
structure Grown (s next : ListStore D) (lst lst' : ListT D) (n : Nat) (xs : List Addr) : Prop where
  short : n < 2 ^ 32
  same : lst' = { lst with tail := lst'.tail, index := lst'.index }
  failed : next.vars.failed = s.vars.failed
  whole : ∃ news, entryLinks.Chain next.heap lst'.head lst'.tail (xs ++ news) ∧ (xs ++ news).length = n ∧
    lst'.index = some ((xs ++ news).map some) ∧ ∀ a ∈ news, s.heap.lookup a = none

theorem initAnswer_same {lst' : ListT D} (same : lst' = { lst with tail := lst'.tail, index := lst'.index })
    (calls : Nat) : initAnswer lst' calls = initAnswer lst calls := by
  rw [same]
  rfl

/-- Where there is no `init`, the number of calls does not matter. -/
theorem initAnswer_calls (lst : ListT D) (calls k : Nat) :
    initAnswer lst (calls + initCalls lst + k) = initAnswer lst (calls + (k + 1)) := by
  rw [initAnswer, initAnswer, initCalls]
  cases lst.init with
  | none => rfl
  | some init => exact congrArg init.answer (by change calls + 1 + k = _; omega)

theorem Adds.further (adds : Adds xs a s middle) (grows : Grows (xs ++ [a]) middle next) : Grows xs s next := by
  apply adds.trans grows
  intro b inside
  rcases List.mem_append.mp inside with old | here
  · exact .inl old
  · exact .inr (List.mem_singleton.mp here ▸ adds.new)

theorem Grown.behind {lst₁ lst' : ListT D} (grown : Grown middle next lst₁ lst' n (xs ++ [a]))
    (adds : Adds xs a s middle)
    (same : lst₁ = { lst with tail := lst₁.tail, index := lst₁.index }) (failed : middle.vars.failed = s.vars.failed) :
    Grown s next lst lst' n xs := by
  rcases grown.whole with ⟨news, chain, length, index, new⟩
  rw [List.append_assoc] at chain length index
  refine ⟨grown.short, ?_, grown.failed.trans failed, a :: news, chain, length, index, ?_⟩
  · rw [grown.same, same]
  · intro b inside
    rcases List.mem_cons.mp inside with rfl | later
    · exact adds.new
    · exact adds.lookup_none (new b later)

theorem rounds_left (small : n < 2 ^ 32) (further : i < n) : n - (i + 1) % 2 ^ 32 = n - i - 1 := by
  rw [Nat.mod_eq_of_lt (Nat.lt_of_le_of_lt further small), Nat.sub_sub]

/-- The loop ends, since every round takes memory. It makes all entries unless a request
is refused or `init` answers with an error. -/
theorem appendEntries_spec {refused broken : Code} (growing : Growing s lst n i xs) (fuel : Nat) (positive : 0 < fuel)
    (enough : system.space < s.heap.keys.card + fuel) (refusal : refused ≠ .ok) (breakage : broken ≠ .ok) :
    ∃ res lst' next, appendEntries system refused broken n fuel lst lst.tail i s = .ok ((res, lst'), next) ∧
      Grows xs s next ∧ (res ≠ .ok → next.vars.failed = true) ∧ (res = .ok → Grown s next lst lst' n xs) ∧
      ((n < 2 ^ 32 ∧ ∀ k < n - i, Granted system (s.tick + k) (s.heap.keys.card + k) ∧
        initAnswer lst (s.vars.calls + k) = 0) → res = .ok) := by
  induction fuel generalizing s lst i xs with
  | zero => exact absurd positive (Nat.lt_irrefl 0)
  | succ fuel ih =>
      by_cases further : i < n
      · by_cases yes : Granted system s.tick s.heap.keys.card
        · rcases growing.round refused broken further fuel yes
            with ⟨a, next, adds, calls, bad, good⟩
          by_cases fine : initAnswer lst s.vars.calls = 0
          · rcases good fine with ⟨failed, lst₁, same, growing', run⟩
            have left : system.space < next.heap.keys.card + fuel := by
              rw [adds.card]
              omega
            have positive' : 0 < fuel := by
              have below := yes.2
              rw [adds.card] at left
              omega
            rcases ih growing' positive' left with ⟨res, lst', last, ran, grows, stops, grown, all⟩
            refine ⟨res, lst', last, run.trans ran, adds.further grows, stops, fun ok => ?_, fun ⟨small, granted⟩ => ?_⟩
            · exact (grown ok).behind adds same failed
            · apply all
              refine ⟨small, fun k low => ?_⟩
              rw [rounds_left small further] at low
              have later := granted (k + 1) (Nat.add_lt_of_lt_sub low)
              rw [adds.granted, calls, initAnswer_same same, initAnswer_calls]
              exact later
          · rcases bad fine with ⟨failed, run⟩
            refine ⟨broken, _, next, run, adds.toGrows, fun _ => failed, fun wrong => absurd wrong breakage,
              fun ⟨_, all⟩ => ?_⟩
            exact absurd (all 0 (Nat.sub_pos_of_lt further)).2 fine
        · have run : appendEntries system refused broken n (fuel + 1) lst lst.tail i s =
              .ok ((refused, { lst with tail := none }),
                { s with vars := { s.vars with failed := true }, tick := s.tick + 1 }) := by
            rw [appendEntries, if_pos further, bind_ok (mallocEntry_refused _ yes)]
            rfl
          refine ⟨refused, _, _, run, Grows.refused xs s, fun _ => rfl,
            fun wrong => absurd wrong refusal, fun ⟨_, all⟩ => ?_⟩
          exact absurd (all 0 (Nat.sub_pos_of_lt further)).1 yes
      · have small : n < 2 ^ 32 := Nat.lt_of_le_of_lt (Nat.le_of_not_lt further) growing.counter
        rcases growing.indexed small with ⟨count, within, indexed⟩
        obtain rfl : i = n := Nat.le_antisymm within (Nat.le_of_not_lt further)
        have run : appendEntries system refused broken i (fuel + 1) lst lst.tail i s = .ok ((.ok, lst), s) := by
          rw [appendEntries, if_neg further]
          rfl
        refine ⟨.ok, lst, s, run, Grows.refl xs s, fun wrong => absurd rfl wrong, fun _ => ?_, fun _ => rfl⟩
        refine ⟨small, rfl, rfl, [], ?_⟩
        rw [List.append_nil, growing.index, ← indexed, List.take_of_length_le (Nat.le_of_eq growing.room)]
        exact ⟨growing.chain, count.symm, rfl, nofun⟩

/-- The first entry of a list, where its request is granted. -/
theorem firstEntry_spec (system : System D) (lst : ListT D) (s : ListStore D) :
    ∃ next, initEntry lst (some (fresh system s))
        (entered system s { system.junk s.tick with prev := none, next := none }) =
          .ok (initAnswer lst s.vars.calls, next) ∧
      entryLinks.Chain next.heap (some (fresh system s)) (some (fresh system s)) [fresh system s] ∧
      Adds [] (fresh system s) s next ∧ next.vars.calls = s.vars.calls + initCalls lst ∧
      (initAnswer lst s.vars.calls = 0 → next.vars.failed = s.vars.failed) ∧
      (initAnswer lst s.vars.calls ≠ 0 → next.vars.failed = true) := by
  let new : ListEntry D := { system.junk s.tick with prev := none, next := none }
  rcases initEntry_spec lst (entered_lookup system s new) with ⟨next, ran, refills, fine, wrong, calls⟩
  have chain := refills.chain (chain_first system s new rfl rfl)
  exact ⟨next, ran, chain, (adds_entered system s [] new).refill refills, calls, fine, wrong⟩

/-- The loop starts behind the first entry. -/
theorem growing_first (chain : entryLinks.Chain s.heap (some a) (some a) [a])
    (room : lst.entries.length = n) (positive : 0 < n) (sized : sizeofEntry + lst.elsz < 2 ^ 64) :
    Growing s { lst with head := some a, tail := some a, index := some (lst.entries.set 0 (some a)) } n 1 [a] := by
  refine ⟨chain, List.cons_ne_nil a [], rfl, ?_, by decide, fun _ => ⟨rfl, positive, ?_⟩, sized⟩
  · exact (List.length_set ..).trans room
  · change (lst.entries.set 0 (some a)).take 1 = _
    cases shape : lst.entries with
    | nil =>
        rw [shape, List.length_nil] at room
        exact absurd room (Nat.ne_of_lt positive)
    | cons p rest => rfl

end MnCommon.IndexedList
