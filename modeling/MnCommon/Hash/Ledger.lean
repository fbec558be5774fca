import Mathlib.Data.Multiset.OrderedMonoid
import MnCommon.Hash.BackLinks

/-! Who owns the keys and the values: an account of all pairs that a table is given. -/

namespace MnCommon.Hash

open Memory

variable {K V : Type} {cb : Callbacks K V} {system : Allocator (MnHashItem K V)} {s next : HashStore K V}
  {op : HashOp K V} {answer : Answer K V} {x : Entry K V} {k : K} {v : V}

/-- The pairs of the items in the table. -/
def held (s : HashStore K V) : Multiset (K × V) := ↑((itemsOf s).map Prod.snd)

/-- The calls of the finaliser. -/
def finalised (s : HashStore K V) : Multiset (K × V) := ↑s.vars.finished

/-- The pair that an operation gives to the table. -/
def gives : HashOp K V → Multiset (K × V)
  | .setItem k v => {(k, v)}
  | .setItemUniq k v => {(k, v)}
  | _ => 0

/-- The keys that the caller gets back: an old one, the key of the item that was found, or
all that a traversal meets. -/
def handedKeys (answer : Answer K V) (next : HashStore K V) : Multiset K :=
  match answer with
  | .item (some a) => (next.heap.lookup a).elim 0 fun n => {n.key}
  | .old key _ => ↑key.toList
  | .pairs all => ↑(all.map Prod.fst)
  | _ => 0

def handedValues (answer : Answer K V) (next : HashStore K V) : Multiset V :=
  match answer with
  | .item (some a) => (next.heap.lookup a).elim 0 fun n => {n.value}
  | .value v => ↑v.toList
  | .old _ value => ↑value.toList
  | .pairs all => ↑(all.map Prod.snd)
  | _ => 0

/-- The table and all pairs that it has been given. -/
structure Account (K V : Type) where
  table : HashStore K V
  given : Multiset (K × V)

def accountStep (cb : Callbacks K V) (system : Allocator (MnHashItem K V)) (op : HashOp K V) (c : Account K V) :
    Except Fault (Answer K V × Account K V) :=
  (step cb system op c.table).map fun (answer, next) => (answer, ⟨next, c.given + gives op⟩)

/-- No pair has been finalised more often than it was given, and what the caller gets back
are other keys and values than those that have been finalised. -/
structure Disciplined (answer : Answer K V) (c : Account K V) : Prop where
  once : finalised c.table ≤ c.given
  keys : (finalised c.table).map Prod.fst + handedKeys answer c.table ≤ c.given.map Prod.fst
  values : (finalised c.table).map Prod.snd + handedValues answer c.table ≤ c.given.map Prod.snd

/-- No replacement meets a finaliser, and deletions are of items that can be deleted. -/
def Careful (cb : Callbacks K V) (op : HashOp K V) (s : HashStore K V) : Prop :=
  match op with
  | .setItemUniq key _ => cb.fini = none ∨ ∀ x ∈ chainOf cb s key, hit cb key x = false
  | op => Deletes op s

theorem held_pushed {a : Addr} (perm : (itemsOf next).Perm ((a, k, v) :: itemsOf s)) :
    held next = held s + {(k, v)} := by
  rw [held, Multiset.coe_eq_coe.mpr (perm.map Prod.snd), List.map_cons, ← Multiset.cons_coe, held,
    ← Multiset.singleton_add, add_comm]

theorem held_dropped (perm : (itemsOf s).Perm (x :: itemsOf next)) : held s = held next + {x.2} :=
  held_pushed (k := x.2.1) (v := x.2.2) perm

/-- The pairs that have been finalised and those that have not, some of them handed out. -/
structure Books (op : HashOp K V) (s : HashStore K V) (answer : Answer K V) (next : HashStore K V)
    (out : Multiset (K × V)) : Prop where
  balance : finalised next + (held next + out) ≤ finalised s + held s + gives op
  keys : handedKeys answer next ≤ (held next + out).map Prod.fst
  values : handedValues answer next ≤ (held next + out).map Prod.snd

theorem Books.of_silent {out : Multiset (K × V)}
    (balance : finalised next + (held next + out) ≤ finalised s + held s + gives op)
    (silent : handedKeys answer next = 0 ∧ handedValues answer next = 0) : Books op s answer next out := by
  refine ⟨balance, ?_, ?_⟩
  · rw [silent.1]
    exact Multiset.zero_le _
  · rw [silent.2]
    exact Multiset.zero_le _

theorem finish_le (cb : Callbacks K V) (log : List (K × V)) (pair : K × V) :
    (↑(finish cb log pair) : Multiset (K × V)) ≤ ↑log + {pair} := by
  rw [finish]
  split
  · exact le_refl _
  · exact Multiset.le_add_right _ _

/-- Pairs of the table are handed out. -/
theorem Books.of_same {pairs : Multiset (K × V)} (inside : pairs ≤ held s)
    (keys : handedKeys answer s = pairs.map Prod.fst) (values : handedValues answer s = pairs.map Prod.snd) :
    Books op s answer s 0 := by
  refine ⟨?_, ?_, ?_⟩
  · rw [add_zero]
    exact Multiset.le_add_right _ _
  · rw [keys, add_zero]
    exact Multiset.map_le_map inside
  · rw [values, add_zero]
    exact Multiset.map_le_map inside

theorem held_replaced (perm : (x :: itemsOf next).Perm ((x.1, k, v) :: itemsOf s)) :
    held next + {x.2} = held s + {(k, v)} := by
  have whole := Multiset.coe_eq_coe.mpr (perm.map Prod.snd)
  rw [List.map_cons, List.map_cons, ← Multiset.cons_coe, ← Multiset.cons_coe, ← Multiset.singleton_add,
    ← Multiset.singleton_add] at whole
  rw [add_comm, add_comm (held s)]
  exact whole

theorem pushed_balance {a : Addr} (perm : (itemsOf next).Perm ((a, k, v) :: itemsOf s))
    (log : next.vars.finished = s.vars.finished) :
    finalised next + (held next + 0) ≤ finalised s + held s + {(k, v)} := by
  rw [finalised, log, held_pushed perm, add_zero, ← add_assoc]
  exact le_refl _

theorem deleted_balance (perm : (itemsOf s).Perm (x :: itemsOf next))
    (log : next.vars.finished = finish cb s.vars.finished x.2) :
    finalised next + (held next + 0) ≤ finalised s + held s := by
  rw [finalised, log, add_zero, held_dropped perm]
  calc ↑(finish cb s.vars.finished x.2) + held next
      ≤ ↑s.vars.finished + {x.2} + held next := add_le_add_left (finish_le cb _ _) _
    _ = finalised s + (held next + {x.2}) := by rw [finalised, add_assoc, add_comm {x.2}]

theorem cleaned_balance {log : List (K × V)} (empty : itemsOf next = [])
    (logs : next.vars.finished = s.vars.finished ++ log) (part : log.Sublist ((itemsOf s).map Prod.snd)) :
    finalised next + (held next + 0) ≤ finalised s + held s := by
  have nothing : held next = 0 := by
    rw [held, empty]
    rfl
  have some : (↑log : Multiset (K × V)) ≤ held s := Multiset.coe_le.mpr part.subperm
  rw [finalised, logs, nothing, add_zero, add_zero, ← Multiset.coe_add]
  exact add_le_add_right some _

/-- An old pair is handed out where another one is put in its place. -/
theorem Books.of_replaced (perm : (x :: itemsOf next).Perm ((x.1, k, v) :: itemsOf s))
    (log : next.vars.finished = s.vars.finished) :
    Books (.setItemUniq k v) s (.old (some x.2.1) (some x.2.2)) next {x.2} := by
  refine ⟨?_, ?_, ?_⟩
  · rw [finalised, log, held_replaced perm, ← add_assoc]
    exact le_refl _
  · rw [Multiset.map_add]
    exact Multiset.le_add_left _ _
  · rw [Multiset.map_add]
    exact Multiset.le_add_left _ _

/-- The item that has been found is in the table. -/
theorem Books.of_found {n : MnHashItem K V} (inside : x ∈ itemsOf s) (cell : s.heap.lookup x.1 = some n)
    (pair : pairOf n = x.2) : Books op s (.item (some x.1)) s 0 := by
  have there : ({x.2} : Multiset (K × V)) ≤ held s :=
    Multiset.singleton_le.mpr (Multiset.mem_coe.mpr (List.mem_map_of_mem inside))
  refine .of_same there ?_ ?_
  · rw [← pair]
    simp only [handedKeys, cell, Option.elim_some, Multiset.map_singleton, pairOf]
  · rw [← pair]
    simp only [handedValues, cell, Option.elim_some, Multiset.map_singleton, pairOf]

theorem Moves.books (moves : Moves cb op s answer next) (careful : Careful cb op s) :
    ∃ out, Books op s answer next out := by
  cases op with
  | setItem k v =>
      rcases moves with ⟨rfl, ⟨a, perm⟩, log⟩
      exact ⟨0, .of_silent (pushed_balance perm log) ⟨rfl, rfl⟩⟩
  | setItemUniq k v =>
      rcases moves with ⟨rfl, ⟨a, perm⟩, log⟩ | ⟨x, inside, found, rfl, perm, log⟩
      · exact ⟨0, .of_silent (pushed_balance perm log) ⟨rfl, rfl⟩⟩
      · have silent : cb.fini = none := by
          rcases careful with none_given | new
          · exact none_given
          · rw [new x inside] at found
            cases found
        rw [finish, silent] at log
        exact ⟨{x.2}, .of_replaced perm log⟩
  | getItem key =>
      rcases moves with ⟨rfl, found, rfl, stored⟩
      cases found with
      | none => exact ⟨0, .of_same (Multiset.zero_le _) rfl rfl⟩
      | some x =>
          rcases stored x rfl with ⟨inside, n, cell, pair⟩
          exact ⟨0, .of_found inside cell pair⟩
  | removeItem key =>
      rcases moves with ⟨rfl, rfl⟩ | ⟨x, rfl, perm, log⟩
      · exact ⟨0, .of_same (Multiset.zero_le _) rfl rfl⟩
      · refine ⟨{x.2}, ?_, Multiset.zero_le _, ?_⟩
        · rw [finalised, log, held_dropped perm]
          exact Multiset.le_add_right _ _
        · rw [Multiset.map_add]
          exact Multiset.le_add_left _ _
  | deletePair a =>
      rcases moves with ⟨rfl, x, -, perm, log⟩
      refine ⟨0, .of_silent ?_ ⟨rfl, rfl⟩⟩
      exact (deleted_balance perm log).trans (Multiset.le_add_right _ _)
  | deletePairNoFini a =>
      rcases moves with ⟨rfl, x, -, perm, log⟩
      refine ⟨{x.2}, .of_silent ?_ ⟨rfl, rfl⟩⟩
      rw [finalised, log, held_dropped perm]
      exact Multiset.le_add_right _ _
  | rehash sz =>
      rcases moves with ⟨rfl, perm, log⟩
      refine ⟨0, .of_silent ?_ ⟨rfl, rfl⟩⟩
      have same : held next = held s := Multiset.coe_eq_coe.mpr (perm.map Prod.snd)
      rw [finalised, log, same, add_zero]
      exact Multiset.le_add_right _ _
  | traverse =>
      rcases moves with ⟨rfl, rfl⟩
      exact ⟨0, .of_same (le_refl (held next)) rfl rfl⟩
  | cleanup =>
      rcases moves with ⟨rfl, empty, log, logs, part⟩
      refine ⟨0, .of_silent ?_ ⟨rfl, rfl⟩⟩
      exact (cleaned_balance empty logs part).trans (Multiset.le_add_right _ _)

/-- What the finaliser has been called with and what is in the table have all been given,
and are different. -/
structure Booked (cb : Callbacks K V) (c : Account K V) : Prop where
  tabled : Tabled cb c.table False
  balance : finalised c.table + held c.table ≤ c.given

theorem Books.disciplined {out : Multiset (K × V)} {c : Account K V} (books : Books op s answer c.table out)
    (balance : finalised s + held s + gives op ≤ c.given) : Disciplined answer c := by
  have all : finalised c.table + (held c.table + out) ≤ c.given := books.balance.trans balance
  refine ⟨(Multiset.le_add_right _ _).trans all, ?_, ?_⟩
  · calc (finalised c.table).map Prod.fst + handedKeys answer c.table
        ≤ (finalised c.table).map Prod.fst + (held c.table + out).map Prod.fst := add_le_add_right books.keys _
      _ = (finalised c.table + (held c.table + out)).map Prod.fst := (Multiset.map_add ..).symm
      _ ≤ c.given.map Prod.fst := Multiset.map_le_map all
  · calc (finalised c.table).map Prod.snd + handedValues answer c.table
        ≤ (finalised c.table).map Prod.snd + (held c.table + out).map Prod.snd := add_le_add_right books.values _
      _ = (finalised c.table + (held c.table + out)).map Prod.snd := (Multiset.map_add ..).symm
      _ ≤ c.given.map Prod.snd := Multiset.map_le_map all

theorem Careful.deletes (careful : Careful cb op s) : Deletes op s := by
  cases op with
  | setItemUniq k v => trivial
  | _ => exact careful

theorem Booked.step {c next : Account K V} (booked : Booked cb c) (careful : Careful cb op c.table)
    (stepped : accountStep cb system op c = .ok (answer, next)) : Booked cb next ∧ Disciplined answer next := by
  rw [accountStep] at stepped
  cases ran : Hash.step cb system op c.table with
  | error kind =>
      rw [ran] at stepped
      cases stepped
  | ok result =>
      rw [ran] at stepped
      cases stepped
      have does := booked.tabled.step careful.deletes ran
      rcases does.moves.books careful with ⟨out, books⟩
      have balance : finalised c.table + held c.table + gives op ≤ c.given + gives op :=
        add_le_add_left booked.balance _
      refine ⟨⟨?_, ?_⟩, books.disciplined balance⟩
      · rcases does.tabled with ⟨chains, good, kept, -⟩ | void
        · exact .inl ⟨chains, good, kept, False.elim⟩
        · exact .inr void
      · calc finalised result.2 + held result.2
            ≤ finalised result.2 + (held result.2 + out) := add_le_add_right (Multiset.le_add_right _ _) _
          _ ≤ c.given + gives op := books.balance.trans balance

theorem Initialised.booked (initialised : Initialised s) (cb : Callbacks K V) : Booked cb ⟨s, 0⟩ := by
  refine ⟨initialised.tabled cb False, ?_⟩
  have nothing : itemsOf s = [] ∧ s.vars.finished = [] := by
    rcases initialised.stored cb with ⟨stored, fresh⟩ | ⟨void, fresh⟩
    · rw [stored.items]
      exact ⟨List.flatMap_eq_nil_iff.mpr fun _ _ => rfl, fresh⟩
    · exact ⟨void.items, fresh⟩
  rw [finalised, held, nothing.1, nothing.2]
  exact le_refl _

/-- The operation leaves nothing with the caller that has been finalised. -/
def Accounted (cb : Callbacks K V) (system : Allocator (MnHashItem K V)) (op : HashOp K V) (c : Account K V) : Prop :=
  ∀ answer next, accountStep cb system op c = .ok (answer, next) → Disciplined answer next

/-- As long as the table does not replace a pair that it finalises, and deletes what can be
deleted, each pair is finalised at most once and not handed back afterwards. -/
theorem run_accounted {ops : List (HashOp K V)} (initialised : Initialised s)
    (careful : Along (accountStep cb system) (fun op c => Careful cb op c.table) ops ⟨s, 0⟩) :
    Along (accountStep cb system) (Accounted cb system) ops ⟨s, 0⟩ := by
  have locally : ∀ op c, Booked cb c → Careful cb op c.table → Accounted cb system op c :=
    fun op c booked careful answer next stepped => (booked.step careful stepped).2
  have keeps : ∀ op c answer next, Booked cb c → Careful cb op c.table →
      accountStep cb system op c = .ok (answer, next) → Booked cb next :=
    fun op c answer next booked careful stepped => (booked.step careful stepped).1
  exact careful.of_invariant locally keeps (initialised.booked cb)

/-- A finaliser that keeps odd values from being freed. -/
def oddKeeper : Callbacks UInt64 UInt64 := wordKeys (some fun _ _ value => if value % 2 = 1 then 1 else 0)

theorem sampleOps_accounted : Along (accountStep oddKeeper wordAllocator) (Accounted oddKeeper wordAllocator)
    [.setItem 1 10, .setItem 3 31, .getItem 1, .rehash 3, .cleanup, .traverse] ⟨newTable 2, 0⟩ :=
  run_accounted ⟨2, _, newTable_init 2⟩ ⟨trivial, fun _ _ _ => ⟨trivial, fun _ _ _ => ⟨trivial,
    fun _ _ _ => ⟨trivial, fun _ _ _ => ⟨trivial, fun _ _ _ => ⟨trivial, fun _ _ _ => trivial⟩⟩⟩⟩⟩⟩

/-- The old value is finalised and given back to the caller. -/
theorem replacedOps_not_accounted : ¬ Along (accountStep oddKeeper wordAllocator) (Accounted oddKeeper wordAllocator)
    [.setItem 1 10, .setItemUniq 1 12] ⟨newTable 2, 0⟩ := by
  intro run
  have trace : ((execute (accountStep oddKeeper wordAllocator) [.setItem 1 10] ⟨newTable 2, 0⟩).bind fun first =>
      accountStep oddKeeper wordAllocator (.setItemUniq 1 12) first.2).map (fun last =>
        (last.1, last.2.table.vars.finished, last.2.given)) =
      .ok (.old (some 1) (some 10), [(1, 10)], {(1, 10)} + {(1, 12)}) := by
    decide +kernel
  cases ran : execute (accountStep oddKeeper wordAllocator) [.setItem 1 10] ⟨newTable 2, 0⟩ with
  | error kind =>
      rw [ran] at trace
      cases trace
  | ok first =>
      rw [ran] at trace
      change (accountStep oddKeeper wordAllocator (.setItemUniq 1 12) first.2).map _ = _ at trace
      cases stepped : accountStep oddKeeper wordAllocator (.setItemUniq 1 12) first.2 with
      | error kind =>
          rw [stepped] at trace
          cases trace
      | ok last =>
          rw [stepped] at trace
          have whole : (last.1, last.2.table.vars.finished, last.2.given) =
              (.old (some 1) (some 10), [(1, 10)], {(1, 10)} + {(1, 12)}) := Except.ok.inj trace
          rcases Prod.mk.inj whole with ⟨answer, rest⟩
          rcases Prod.mk.inj rest with ⟨finished, given⟩
          have both : Along (accountStep oddKeeper wordAllocator) (Accounted oddKeeper wordAllocator)
              ([.setItem 1 10] ++ [.setItemUniq 1 12]) ⟨newTable 2, 0⟩ := run
          have values := (both.last ran last.1 last.2 stepped).values
          have back : handedValues (.old (some 1) (some 10)) last.2.table = {10} := rfl
          rw [finalised, finished, given, answer, back] at values
          exact absurd values (by decide)

end MnCommon.Hash
