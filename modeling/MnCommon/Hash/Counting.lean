import MnCommon.Hash.Iterator
import MnCommon.Hash.Ledger
import MnCommon.Memory.Records

/-! The number of items that the table keeps, and what emptying it does to that number. -/

namespace MnCommon.Hash

open Memory

variable {K V : Type} {cb : Callbacks K V} {system : Allocator (MnHashItem K V)} {s next : HashStore K V}
  {chains : Chains K V} {good : Nat → Prop} {a : Addr} {key k : K} {v : V} {op : HashOp K V} {answer : Answer K V}

/-- All items are counted, whatever their links that point back. -/
def Counted (cb : Callbacks K V) (s : HashStore K V) : Prop := (∃ chains good, Stored cb s chains good) ∨ Void s

theorem Stored.counted (stored : Stored cb s chains good) : Counted cb s := .inl ⟨chains, good, stored⟩

theorem Built.counted (built : Built cb s) : Counted cb s := by
  rcases built with ⟨chains, stored⟩ | void
  · exact stored.counted
  · exact .inr void

theorem Stored.kept (stored : Stored cb s chains good) : Kept cb s chains good := ⟨stored.toHolds, stored.counts.ge⟩

theorem Counted.elnum (counted : Counted cb s) : s.vars.elnum = (itemsOf s).length := by
  rcases counted with ⟨chains, good, stored⟩ | void
  · rw [stored.counts, stored.items]
  · rw [void.counts, void.items]
    rfl

theorem Stored.setItemUniq (stored : Stored cb s chains good) (system : Allocator (MnHashItem K V)) (k : K) (v : V) :
    ∃ old next, hashSetItemUniq cb system k v s = .ok (old, next) ∧ Counted cb next := by
  have low := place_lt cb stored.nonempty k
  cases search : visible cb s.vars.table.length chains k with
  | none =>
      rcases hashSetItemUniq_new stored.toHolds system k v search with ⟨a, next, run, -, after, leaves⟩
      refine ⟨_, next, run, (stored.change low after leaves ?_).counted⟩
      rw [List.length_cons]
      omega
  | some x =>
      rcases hashSetItemUniq_old stored.toHolds system k v search with
        ⟨next, front, back, run, shape, -, -, after, leaves⟩
      refine ⟨_, next, run, (stored.change low after leaves ?_).counted⟩
      simp only [shape, List.length_append, List.length_cons]

theorem Stored.removeItem (stored : Stored cb s chains good) (key : K) :
    ∃ value next, hashRemoveItem cb key s = .ok (value, next) ∧ Counted cb next := by
  have low := place_lt cb stored.nonempty key
  cases search : visible cb s.vars.table.length chains key with
  | none => exact ⟨none, s, hashRemoveItem_none stored.toHolds key search, stored.counted⟩
  | some x =>
      rcases hashRemoveItem_some stored.toHolds key search with ⟨next, front, back, run, shape, -, -, after, leaves⟩
      exact ⟨_, next, run, (stored.dropped low shape after leaves).counted⟩

theorem Stored.deletePair (stored : Stored cb s chains good) (removable : Removable s a)
    (run : hashDeletePair cb (some a) s = .ok ((), next)) : Counted cb next := by
  rcases stored.kept.removable removable with ⟨i, low, front, x, back, good', shape, rfl, holds, linked, -⟩ | failed
  · rcases hashDeletePair_ok holds low shape linked with ⟨next', run', after, leaves⟩
    cases run.symm.trans run'
    exact (Stored.dropped ⟨holds, stored.counts⟩ low shape after leaves).counted
  · rw [hashDeletePair, run_bind, failed] at run
    cases run

theorem Stored.deletePairNoFini (stored : Stored cb s chains good) (removable : Removable s a)
    (run : hashDeletePairNoFini (some a) s = .ok ((), next)) : Counted cb next := by
  rcases stored.kept.removable removable with ⟨i, low, front, x, back, good', shape, rfl, holds, linked, -⟩ | failed
  · rcases hashDeletePairNoFini_ok holds low shape linked with ⟨next', run', after, leaves⟩
    cases run.symm.trans run'
    exact (Stored.dropped ⟨holds, stored.counts⟩ low shape after leaves).counted
  · rw [hashDeletePairNoFini, run_bind, failed] at run
    cases run

/-- The finaliser accepts whatever a cleanup gives to it. -/
def Accepted (cb : Callbacks K V) (op : HashOp K V) (s : HashStore K V) : Prop :=
  match op with
  | .cleanup => Accepts cb s.vars.finished (itemsOf s)
  | _ => True

/-- After a cleanup the count is that of the items that are left. -/
def Reconciled (cb : Callbacks K V) (system : Allocator (MnHashItem K V)) (op : HashOp K V) (s : HashStore K V) :
    Prop :=
  match op with
  | .cleanup => ∃ next, step cb system .cleanup s = .ok (.done, next) ∧ next.vars.elnum = (itemsOf next).length
  | _ => True

theorem Stored.cleanup (stored : Stored cb s chains good) (system : Allocator (MnHashItem K V)) :
    ∃ next, step cb system .cleanup s = .ok (.done, next) ∧
      (next.vars.elnum = (itemsOf next).length ↔ Accepts cb s.vars.finished (itemsOf s)) ∧
      (next.vars.elnum = (itemsOf next).length → Counted cb next) := by
  rcases hashCleanup_tallied stored.toHolds with ⟨next, run, after, tallied⟩
  have nothing : allOf next.vars.table.length (fun _ => ([] : List (Entry K V))) = [] :=
    List.flatMap_eq_nil_iff.mpr fun _ _ => rfl
  have left : (itemsOf next).length = 0 := by
    rw [after.items, nothing]
    rfl
  refine ⟨next, ?_, ?_⟩
  · rw [step, bind_ok run]
    rfl
  rw [left, stored.items]
  refine ⟨⟨fun empty => ?_, fun accepts => ?_⟩, fun empty => .inl ⟨_, _, after, ?_⟩⟩
  · by_contra refuses
    have more := tallied.refused stored.counts.ge refuses
    have counts := stored.counts
    omega
  · have fewer := (tallied.accepted stored.counts.ge accepts).1
    have counts := stored.counts
    omega
  · rw [nothing]
    exact empty

theorem reconciled_iff (counted : Counted cb s) (op : HashOp K V) :
    Reconciled cb system op s ↔ Accepted cb op s := by
  cases op with
  | cleanup =>
      rcases counted with ⟨chains, good, stored⟩ | void
      · rcases stored.cleanup system with ⟨next, run, exactly, -⟩
        refine Iff.trans ⟨fun reconciled => ?_, fun same => ⟨next, run, same⟩⟩ exactly
        rcases reconciled with ⟨next', run', same⟩
        cases run.symm.trans run'
        exact same
      · have accepts : Accepts cb s.vars.finished (itemsOf s) := by
          rw [void.items]
          trivial
        refine ⟨fun _ => accepts, fun _ => ⟨s, ?_, ?_⟩⟩
        · rw [step, bind_ok void.cleanup]
          rfl
        · rw [void.counts, void.items]
          rfl
  | _ => exact Iff.rfl

theorem Void.step_counted (void : Void s) (deletes : Deletes op s)
    (stepped : step cb system op s = .ok (answer, next)) : Counted cb next := by
  have does : Does cb op s False answer next := void.does deletes stepped
  cases op with
  | rehash sz =>
      rcases of_run_bind stepped with ⟨⟨⟩, middle, run, later⟩
      cases later
      exact (void.rehashed run).counted
  | getItem key =>
      rw [does.moves.1]
      exact .inr void
  | traverse =>
      rw [does.moves.1]
      exact .inr void
  | cleanup =>
      rw [Hash.step, bind_ok void.cleanup] at stepped
      cases stepped
      exact .inr void
  | setItem | setItemUniq | removeItem => exact absurd stepped (void.not_stepped trivial)
  | deletePair | deletePairNoFini =>
      rcases deletes with ⟨i, head, -, -, -, -, slot, -⟩
      exact absurd slot (void.no_slot i head)

theorem Counted.step (counted : Counted cb s) (deletes : Deletes op s) (reconciled : Reconciled cb system op s)
    (stepped : step cb system op s = .ok (answer, next)) : Counted cb next := by
  rcases counted with ⟨chains, good, stored⟩ | void
  · cases op with
    | setItem k v =>
        rcases stored.setItem system k v with ⟨next', chains', run, stored'⟩
        rw [Hash.step, bind_ok run] at stepped
        cases stepped
        exact stored'.counted
    | setItemUniq k v =>
        rcases stored.setItemUniq system k v with ⟨old, next', run, after⟩
        rw [Hash.step, bind_ok run] at stepped
        cases stepped
        exact after
    | getItem key =>
        have all : False → ∀ i, good i := False.elim
        rcases stored.kept.getItem all system key with ⟨answer', next', run, does⟩
        cases stepped.symm.trans run
        rw [does.moves.1]
        exact stored.counted
    | removeItem key =>
        rcases stored.removeItem key with ⟨value, next', run, after⟩
        rw [Hash.step, bind_ok run] at stepped
        cases stepped
        exact after
    | deletePair a =>
        rcases of_run_bind stepped with ⟨⟨⟩, middle, run, later⟩
        cases later
        exact stored.deletePair deletes run
    | deletePairNoFini a =>
        rcases of_run_bind stepped with ⟨⟨⟩, middle, run, later⟩
        cases later
        exact stored.deletePairNoFini deletes run
    | rehash sz =>
        rcases of_run_bind stepped with ⟨⟨⟩, middle, run, later⟩
        cases later
        exact (stored.rehash run).counted
    | traverse =>
        have does : Does cb .traverse s False answer next := stored.kept.traverse (by simp) system stepped
        rw [does.moves.1]
        exact stored.counted
    | cleanup =>
        rcases stored.cleanup system with ⟨next', run, -, settled⟩
        rcases reconciled with ⟨next'', run', same⟩
        cases run.symm.trans run'
        cases stepped.symm.trans run
        exact settled same
  · exact void.step_counted deletes stepped

/-- After every cleanup of a run the count is right exactly if the finaliser has accepted all
items that the cleanups met. -/
theorem cleanup_reconciled_iff {ops : List (HashOp K V)} (initialised : Initialised s)
    (within : Along (step cb system) Deletes ops s) :
    Along (step cb system) (Reconciled cb system) ops s ↔ Along (step cb system) (Accepted cb) ops s := by
  have first : Counted cb s := initialised.built.counted
  apply along_iff_within _ _ first within
  · exact fun op s _ counted => reconciled_iff counted op
  · exact fun op s answer next deletes counted reconciled => counted.step deletes reconciled

theorem accepts_of_zero (zero : ∀ log pair, verdict cb log pair = 0) (log : List (K × V)) (xs : List (Entry K V)) :
    Accepts cb log xs := by
  induction xs generalizing log with
  | nil => exact trivial
  | cons x rest ih => exact ⟨zero log x.2, ih _⟩

theorem sampleOps_reconciled :
    Along (step (wordKeys (some fun _ _ _ => 0)) wordAllocator)
      (Reconciled (wordKeys (some fun _ _ _ => 0)) wordAllocator)
      [.setItem 1 10, .setItem 3 31, .cleanup, .rehash 3] (newTable 2) := by
  have zero : ∀ log pair, verdict (wordKeys (some fun _ _ _ => 0)) log pair = 0 := fun _ _ => rfl
  apply (cleanup_reconciled_iff ⟨2, _, newTable_init 2⟩ _).mpr
  · exact ⟨trivial, fun _ _ _ => ⟨trivial, fun _ _ _ => ⟨accepts_of_zero zero _ _, fun _ _ _ => ⟨trivial,
      fun _ _ _ => trivial⟩⟩⟩⟩
  · exact ⟨trivial, fun _ _ _ => ⟨trivial, fun _ _ _ => ⟨trivial, fun _ _ _ => ⟨trivial, fun _ _ _ => trivial⟩⟩⟩⟩

/-- The item that the finaliser keeps is no longer in the table, but it is counted. -/
theorem keptItem_not_reconciled : ¬ Along (step oddKeeper wordAllocator) (Reconciled oddKeeper wordAllocator)
    [.setItem 1 31, .cleanup] (newTable 2) := by
  intro run
  have trace : ((execute (step oddKeeper wordAllocator) [.setItem 1 31] (newTable 2)).bind fun first =>
      step oddKeeper wordAllocator .cleanup first.2).map (fun last =>
        (last.2.vars.elnum, (itemsOf last.2).length)) = .ok (1, 0) := by
    decide +kernel
  cases ran : execute (step oddKeeper wordAllocator) [.setItem 1 31] (newTable 2) with
  | error kind =>
      rw [ran] at trace
      cases trace
  | ok first =>
      rw [ran] at trace
      have both : Along (step oddKeeper wordAllocator) (Reconciled oddKeeper wordAllocator)
          ([.setItem 1 31] ++ [.cleanup]) (newTable 2) := run
      rcases both.last ran with ⟨next, stepped, same⟩
      change (step oddKeeper wordAllocator .cleanup first.2).map _ = _ at trace
      rw [stepped] at trace
      have counts : (next.vars.elnum, (itemsOf next).length) = (1, 0) := Except.ok.inj trace
      rcases Prod.mk.inj counts with ⟨one, zero⟩
      rw [one, zero] at same
      cases same

end MnCommon.Hash
