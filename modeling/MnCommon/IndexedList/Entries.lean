import MnCommon.IndexedList.Model
import MnCommon.Memory.Chain
import MnCommon.Memory.Strand
import Mathlib.Tactic.Ring

/-! What the calls of callbacks and the loops over the chain of a list do to its entries. -/

namespace MnCommon.IndexedList

open Memory

def entryLinks {D : Type} : Links (ListEntry D) := ⟨ListEntry.prev, ListEntry.next⟩

variable {D : Type}

/-- What `init` answers to the call behind `calls` others; zero where there is none. -/
def initAnswer (lst : ListT D) (calls : Nat) : Int := lst.init.elim 0 fun init => init.answer calls

def finiCalls (lst : ListT D) : Nat := if lst.fini.isSome then 1 else 0

def initCalls (lst : ListT D) : Nat := if lst.init.isSome then 1 else 0

/-- Only the data of the entries of the list may differ. -/
structure Refills (xs : List Addr) (s next : ListStore D) : Prop where
  pairs : ∀ a, entryLinks.pair next.heap a = entryLinks.pair s.heap a
  others : ∀ a, a ∉ xs → next.heap.lookup a = s.heap.lookup a
  keys : next.heap.keys = s.heap.keys
  lists : next.vars.lists = s.vars.lists
  live : next.vars.live = s.vars.live
  tick : next.tick = s.tick

variable {lst : ListT D} {s middle next : ListStore D} {xs ys front back : List Addr} {a : Addr} {p : Ptr}
  {e : ListEntry D}

theorem Refills.refl (xs : List Addr) (s : ListStore D) : Refills xs s s :=
  ⟨fun _ => rfl, fun _ _ => rfl, rfl, rfl, rfl, rfl⟩

theorem Refills.trans (first : Refills xs s middle) (second : Refills xs middle next) : Refills xs s next where
  pairs a := (second.pairs a).trans (first.pairs a)
  others a outside := (second.others a outside).trans (first.others a outside)
  keys := second.keys.trans first.keys
  lists := second.lists.trans first.lists
  live := second.live.trans first.live
  tick := second.tick.trans first.tick

theorem Refills.mono (refills : Refills xs s next) (within : xs ⊆ ys) : Refills ys s next :=
  { refills with others := fun a outside => refills.others a fun inside => outside (within inside) }

/-- The same but for the counts. -/
theorem Refills.of_same (heap : next.heap = s.heap) (lists : next.vars.lists = s.vars.lists)
    (live : next.vars.live = s.vars.live) (tick : next.tick = s.tick) : Refills xs s next :=
  ⟨fun _ => by rw [heap], fun _ _ => by rw [heap], by rw [heap], lists, live, tick⟩

theorem Refills.cell (refills : Refills xs s next) (cell : s.heap.lookup a = some e) :
    ∃ e', next.heap.lookup a = some e' ∧ e'.prev = e.prev ∧ e'.next = e.next := by
  have pair := refills.pairs a
  rw [Links.pair_eq cell, Links.pair, Option.map_eq_some_iff] at pair
  rcases pair with ⟨e', cell', same⟩
  exact ⟨e', cell', (Prod.mk.inj same).1, (Prod.mk.inj same).2⟩

theorem Refills.wiring (refills : Refills xs s next) :
    wiring ListEntry.next next.heap = wiring ListEntry.next s.heap := by
  funext a
  have pair := congrArg (Option.map Prod.snd) (refills.pairs a)
  rwa [Links.pair, Links.pair, Option.map_map, Option.map_map] at pair

theorem Refills.chain {head tail : Ptr} (refills : Refills xs s next)
    (chain : entryLinks.Chain s.heap head tail ys) : entryLinks.Chain next.heap head tail ys :=
  chain.frame fun a _ => refills.pairs a

theorem call_spec (cb : Callback D) (cell : s.heap.lookup a = some e) :
    ∃ next, call cb (some a) s = .ok (cb.answer s.vars.calls, next) ∧ Refills [a] s next ∧
      next.vars.failed = s.vars.failed ∧ next.vars.calls = s.vars.calls + 1 := by
  let written : ListStore D := ⟨s.heap.insert a { e with data := cb.write s.vars.calls e.data },
    { s.vars with calls := s.vars.calls + 1 }, s.tick⟩
  have ran : call cb (some a) s = .ok (cb.answer s.vars.calls, written) := by
    rw [call, bind_ok (show vars s = .ok (s.vars, s) from rfl), bind_ok (update_ok _ cell)]
    rfl
  refine ⟨written, ran, ⟨fun b => ?_, fun b outside => ?_, ?_, rfl, rfl, rfl⟩, rfl, rfl⟩
  · by_cases here : b = a
    · subst here
      rw [Links.pair_eq (Finmap.lookup_insert _), Links.pair_eq cell]
      rfl
    · rw [Links.pair, Links.pair, Finmap.lookup_insert_of_ne _ here]
  · exact Finmap.lookup_insert_of_ne _ fun here : b = a => outside (here ▸ List.mem_singleton_self b)
  · have inside : a ∈ s.heap.keys := Finmap.mem_keys.mpr (Finmap.mem_of_lookup_eq_some cell)
    ext b
    change b ∈ (s.heap.insert a _).keys ↔ _
    rw [Finmap.mem_keys, Finmap.mem_insert, ← Finmap.mem_keys]
    constructor
    · intro either
      exact either.elim (fun here => here ▸ inside) id
    · exact Or.inr

theorem finiEntry_spec (lst : ListT D) (cell : s.heap.lookup a = some e) :
    ∃ next, finiEntry lst (some a) s = .ok ((), next) ∧ Refills [a] s next ∧
      next.vars.failed = s.vars.failed ∧ next.vars.calls = s.vars.calls + finiCalls lst := by
  rw [finiEntry, finiCalls]
  cases lst.fini with
  | none => exact ⟨s, rfl, Refills.refl _ s, rfl, rfl⟩
  | some fini =>
      rcases call_spec fini cell with ⟨next, ran, refills, failed, calls⟩
      exact ⟨next, bind_ok ran _, refills, failed, calls⟩

theorem initEntry_spec (lst : ListT D) (cell : s.heap.lookup a = some e) :
    ∃ next, initEntry lst (some a) s = .ok (initAnswer lst s.vars.calls, next) ∧ Refills [a] s next ∧
      (initAnswer lst s.vars.calls = 0 → next.vars.failed = s.vars.failed) ∧
      (initAnswer lst s.vars.calls ≠ 0 → next.vars.failed = true) ∧
      next.vars.calls = s.vars.calls + initCalls lst := by
  rw [initEntry, initAnswer, initCalls]
  cases lst.init with
  | none => exact ⟨s, rfl, Refills.refl _ s, fun _ => rfl, fun wrong => absurd rfl wrong, rfl⟩
  | some init =>
      rcases call_spec init cell with ⟨next, ran, refills, failed, calls⟩
      refine ⟨_, bind_ok ran _, refills.trans (.of_same rfl rfl rfl rfl), fun fine => ?_, fun wrong => ?_, calls⟩
      · change (next.vars.failed || init.answer s.vars.calls != 0) = s.vars.failed
        change init.answer s.vars.calls = 0 at fine
        rw [fine, failed]
        exact Bool.or_false _
      · change (next.vars.failed || init.answer s.vars.calls != 0) = true
        have nonzero : (init.answer s.vars.calls != 0) = true := bne_iff_ne.mpr wrong
        rw [nonzero, Bool.or_true]

theorem strand_of_chain {h : Heap (ListEntry D)} {head tail : Ptr}
    (chain : entryLinks.Chain h head tail (front ++ back)) :
    Strand (wiring ListEntry.next h) back.head? back none := by
  induction back generalizing front with
  | nil => rfl
  | cons a back ih =>
      have here := chain.linked front a back rfl
      rw [Links.pair, Option.map_eq_some_iff] at here
      rcases here with ⟨e, cell, same⟩
      have further : entryLinks.Chain h head tail ((front ++ [a]) ++ back) := by
        rwa [List.append_assoc, List.singleton_append]
      have forth : e.next = back.head? := (Prod.mk.inj same).2
      exact ⟨rfl, _, by rw [wiring_of_lookup cell, forth], ih further⟩

theorem strand_of_head {h : Heap (ListEntry D)} {head tail : Ptr} (chain : entryLinks.Chain h head tail xs) :
    Strand (wiring ListEntry.next h) head xs none := by
  have whole : entryLinks.Chain h head tail ([] ++ xs) := chain
  rw [chain.head_eq]
  exact strand_of_chain whole

/-- A new length that leaves the entries in place: all are finalised and initialised
again, up to the first one that `init` refuses. -/
theorem reinitEntries_spec (lst : ListT D) (strand : Strand (wiring ListEntry.next s.heap) p ys none) (fuel : Nat)
    (enough : ys.length < fuel) :
    ∃ res next, reinitEntries lst fuel p s = .ok (res, next) ∧ Refills ys s next ∧
      (res ≠ .ok → next.vars.failed = true) ∧
      (res = .ok ↔ ∀ k < ys.length,
        initAnswer lst (s.vars.calls + k * (finiCalls lst + initCalls lst) + finiCalls lst) = 0) ∧
      (res = .ok → next.vars.failed = s.vars.failed ∧
        next.vars.calls = s.vars.calls + ys.length * (finiCalls lst + initCalls lst)) := by
  induction ys generalizing p s fuel with
  | nil =>
      obtain rfl : p = none := strand
      have ran : reinitEntries lst fuel none s = .ok (.ok, s) := by
        cases fuel <;> rfl
      refine ⟨.ok, s, ran, Refills.refl _ s, fun wrong => absurd rfl wrong, iff_of_true rfl fun k low => ?_,
        fun _ => ?_⟩
      · exact absurd low (Nat.not_lt_zero k)
      · rw [List.length_nil, Nat.zero_mul]
        exact ⟨rfl, rfl⟩
  | cons a ys ih =>
      rcases strand with ⟨rfl, further, known, rest⟩
      rcases lookup_of_wiring known with ⟨e, cell, rfl⟩
      rcases fuel with - | fuel
      · exact absurd enough (Nat.not_lt_zero _)
      rcases finiEntry_spec lst cell with ⟨first, ran, refills, failed, calls⟩
      rcases refills.cell cell with ⟨e', cell', -, -⟩
      rcases initEntry_spec lst cell' with ⟨second, ran', refills', fine, wrong, calls'⟩
      have within : [a] ⊆ a :: ys := List.cons_subset_cons a (List.nil_subset ys)
      have both := (refills.trans refills').mono within
      rw [calls] at ran' fine wrong calls'
      have answers : (∀ k < (a :: ys).length,
          initAnswer lst (s.vars.calls + k * (finiCalls lst + initCalls lst) + finiCalls lst) = 0) ↔
          initAnswer lst (s.vars.calls + finiCalls lst) = 0 ∧ ∀ k < ys.length,
            initAnswer lst (second.vars.calls + k * (finiCalls lst + initCalls lst) + finiCalls lst) = 0 := by
        rw [List.length_cons, Nat.forall_lt_succ_left, Nat.zero_mul, Nat.add_zero, calls']
        refine and_congr_right fun _ => forall₂_congr fun k _ => ?_
        rw [Nat.succ_mul, Nat.add_comm (k * _), ← Nat.add_assoc, ← Nat.add_assoc]
      rw [reinitEntries, bind_ok ran, bind_ok ran', run_ite, answers]
      by_cases good : initAnswer lst (s.vars.calls + finiCalls lst) = 0
      · rw [if_neg (not_not.mpr good)]
        rcases both.cell cell with ⟨e'', cell'', -, forth⟩
        rw [bind_ok (load_ok cell''), forth]
        have rest' : Strand (wiring ListEntry.next second.heap) e.next ys none := by rwa [both.wiring]
        rcases ih rest' fuel (Nat.lt_of_succ_lt_succ enough) with ⟨res, next, ran'', refills'', stops, when, goes⟩
        refine ⟨res, next, ran'', both.trans (refills''.mono (List.subset_cons_self a ys)), stops, ?_, fun ok => ?_⟩
        · rw [when, and_iff_right good]
        · rcases goes ok with ⟨failed', calls''⟩
          refine ⟨failed'.trans ((fine good).trans failed), ?_⟩
          rw [calls'', calls', List.length_cons]
          ring
      · rw [if_pos good]
        refine ⟨_, second, rfl, both, fun _ => wrong good, ?_, nofun⟩
        exact iff_of_false nofun fun all => good all.1

theorem listDataReinit_spec (chain : entryLinks.Chain s.heap lst.head lst.tail xs) :
    ∃ res next, listDataReinit lst s = .ok (res, next) ∧ Refills xs s next ∧
      (res ≠ .ok → next.vars.failed = true) ∧
      (res = .ok ↔ ∀ k < xs.length,
        initAnswer lst (s.vars.calls + k * (finiCalls lst + initCalls lst) + finiCalls lst) = 0) ∧
      (res = .ok → next.vars.failed = s.vars.failed ∧
        next.vars.calls = s.vars.calls + xs.length * (finiCalls lst + initCalls lst)) := by
  rw [listDataReinit]
  by_cases idle : lst.fini.isNone ∧ lst.init.isNone
  · rw [if_pos idle]
    have fini : finiCalls lst = 0 := by rw [finiCalls, Option.isNone_iff_eq_none.mp idle.1]; rfl
    have init : lst.init = none := Option.isNone_iff_eq_none.mp idle.2
    refine ⟨.ok, s, rfl, Refills.refl _ s, fun wrong => absurd rfl wrong, iff_of_true rfl fun k _ => ?_, fun _ => ?_⟩
    · rw [initAnswer, init]
      rfl
    · rw [fini, initCalls, init]
      exact ⟨rfl, rfl⟩
  · rw [if_neg idle]
    exact reinitEntries_spec lst (strand_of_head chain) s.bound (Nat.lt_succ_of_le chain.short)

/-- The entries from `p` on are finalised and freed; all others are left alone. -/
theorem releaseEntries_spec (lst : ListT D) (strand : Strand (wiring ListEntry.next s.heap) p ys none)
    (distinct : ys.Nodup) (fuel : Nat) (enough : ys.length < fuel) :
    ∃ next, releaseEntries lst fuel p s = .ok ((), next) ∧
      (∀ a, a ∉ ys → next.heap.lookup a = s.heap.lookup a) ∧ (∀ a ∈ ys, next.heap.lookup a = none) ∧
      next.vars.lists = s.vars.lists ∧ next.vars.live = s.vars.live ∧ next.vars.failed = s.vars.failed ∧
      next.vars.calls = s.vars.calls + ys.length * finiCalls lst ∧ next.tick = s.tick := by
  induction ys generalizing p s fuel with
  | nil =>
      obtain rfl : p = none := strand
      have ran : releaseEntries lst fuel none s = .ok ((), s) := by
        cases fuel <;> rfl
      refine ⟨s, ran, fun _ _ => rfl, nofun, rfl, rfl, rfl, ?_, rfl⟩
      rw [List.length_nil, Nat.zero_mul]
      rfl
  | cons a ys ih =>
      rcases strand with ⟨rfl, further, known, rest⟩
      rcases lookup_of_wiring known with ⟨e, cell, rfl⟩
      rcases List.nodup_cons.mp distinct with ⟨apart, distinct⟩
      rcases fuel with - | fuel
      · exact absurd enough (Nat.not_lt_zero _)
      rcases finiEntry_spec lst cell with ⟨first, ran, refills, failed, calls⟩
      rcases refills.cell cell with ⟨e', cell', -, -⟩
      rw [releaseEntries, bind_ok (load_ok cell), bind_ok ran, bind_ok (free_ok cell')]
      have strand' : Strand (wiring ListEntry.next (first.heap.erase a)) e.next ys none := by
        apply rest.frame
        intro b inside
        have other : b ≠ a := fun same => apart (same ▸ inside)
        rw [wiring, Finmap.lookup_erase_ne other, ← wiring, refills.wiring]
      rcases ih (s := { first with heap := first.heap.erase a }) strand' distinct fuel (Nat.lt_of_succ_lt_succ enough)
        with ⟨next, ran', others, freed, lists, live, failed', calls', tick⟩
      refine ⟨next, ran', fun b outside => ?_, fun b inside => ?_, lists.trans refills.lists, live.trans refills.live,
        failed'.trans failed, ?_, tick.trans refills.tick⟩
      · have other : b ≠ a := fun same => outside (same ▸ List.mem_cons_self)
        rw [others b fun inside => outside (List.mem_cons_of_mem a inside), Finmap.lookup_erase_ne other]
        exact refills.others b fun same => other (List.mem_singleton.mp same)
      · by_cases later : b ∈ ys
        · exact freed b later
        · obtain rfl : b = a := (List.mem_cons.mp inside).resolve_right later
          rw [others b later, Finmap.lookup_erase]
      · rw [calls']
        change first.vars.calls + _ = _
        rw [calls, List.length_cons]
        ring

end MnCommon.IndexedList
