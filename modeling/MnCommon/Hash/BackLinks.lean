import MnCommon.Hash.Steps

/-! The links that point back, which only deletions use. -/

namespace MnCommon.Hash

open Memory

variable {K V : Type} {cb : Callbacks K V} {system : Allocator (MnHashItem K V)} {s next : HashStore K V}
  {chains : Chains K V} {good : Nat → Prop} {i : Nat} {a : Addr} {front back : List (Entry K V)} {x : Entry K V}
  {op : HashOp K V} {answer : Answer K V}

/-- Each item points back at the one in front of it, and the first one of a chain at its slot. -/
def RightLinks (s : HashStore K V) : Prop :=
  ∀ i head, s.vars.table[i]? = some head → ∀ front x back, chainItems s head = front ++ x :: back →
    ∃ n, s.heap.lookup x.1 = some n ∧ n.prev = front.getLast?.map Prod.fst ∧
      (front = [] → n.bucket = some (s.vars.data, i))

/-- What deletions rely on, and what they do. -/
structure Intact (cb : Callbacks K V) (s : HashStore K V) : Prop where
  links : RightLinks s
  deletes : ∀ x ∈ itemsOf s, ∃ next, hashDeletePair cb (some x.1) s = .ok ((), next) ∧
    itemsOf next = (itemsOf s).filter fun y => y.1 ≠ x.1

/-- An operation that leaves all links in order; deletions are of stored items. -/
def Sound (cb : Callbacks K V) (op : HashOp K V) (s : HashStore K V) : Prop :=
  match op with
  | .deletePair a => a ∈ (itemsOf s).map Prod.fst
  | .deletePairNoFini a => a ∈ (itemsOf s).map Prod.fst
  | op => Straight cb op s

theorem Holds.rightLinks (holds : Holds cb s chains fun _ => True) : RightLinks s := by
  intro i head slot front x back shape
  have low : i < s.vars.table.length := (List.getElem?_eq_some_iff.mp slot).1
  obtain rfl : (chains i).head?.map Prod.fst = head := Option.some.inj ((holds.head low).symm.trans slot)
  rw [holds.chainItems low] at shape
  have seg := holds.seg low
  rw [shape] at seg
  rcases seg.middle with ⟨n, cell, -, link, -⟩
  refine ⟨n, cell, ?_, fun first => ?_⟩
  · have prev : n.prev = Links.lastOf none front := link (.inr trivial)
    rw [prev, Links.lastOf, Option.or_none]
  · subst first
    have top : x ∈ (chains i).head? := by
      rw [shape]
      rfl
    rcases holds.bucket i low trivial x top with ⟨m, known, bucket⟩
    obtain rfl : n = m := Option.some.inj (cell.symm.trans known)
    exact bucket

/-- Where an item stands in its chain. -/
theorem Holds.split (holds : Holds cb s chains good) (inside : x ∈ itemsOf s) :
    ∃ i < s.vars.table.length, ∃ front back, chains i = front ++ x :: back := by
  rw [holds.items] at inside
  rcases mem_allOf.mp inside with ⟨i, low, there⟩
  rcases List.append_of_mem there with ⟨front, back, shape⟩
  exact ⟨i, low, front, back, shape⟩

theorem Holds.removable (holds : Holds cb s chains fun _ => True) (stored : a ∈ (itemsOf s).map Prod.fst) :
    Removable s a := by
  rcases List.mem_map.mp stored with ⟨x, inside, rfl⟩
  rcases holds.split inside with ⟨i, low, front, back, shape⟩
  have chain : Hash.chainItems s ((chains i).head?.map Prod.fst) = front ++ x :: back := by
    rw [holds.chainItems low, shape]
  rcases holds.rightLinks i _ (holds.head low) front x back chain with ⟨n, cell, prev, bucket⟩
  refine ⟨i, _, front, x, back, n, holds.head low, chain, rfl, cell, fun first => ⟨?_, .inr (bucket first)⟩⟩
  rw [prev, first]
  rfl

/-- The items without one of them. -/
theorem Holds.items_without (holds : Holds cb s chains good) {good' : Nat → Prop} (low : i < s.vars.table.length)
    (shape : chains i = front ++ x :: back) (after : Holds cb next (Function.update chains i (front ++ back)) good')
    (length : next.vars.table.length = s.vars.table.length) :
    itemsOf next = (itemsOf s).filter fun y => y.1 ≠ x.1 := by
  have there : x ∈ chains i := shape ▸ List.mem_append_right _ List.mem_cons_self
  have once := holds.once i low
  rw [shape, List.map_append, List.map_cons, List.nodup_middle, ← List.map_append] at once
  have new := (List.nodup_cons.mp once).1
  have each : ∀ j ∈ List.range s.vars.table.length,
      Function.update chains i (front ++ back) j = (chains j).filter fun y => y.1 ≠ x.1 := by
    intro j inside
    have low' := List.mem_range.mp inside
    rw [Function.update_apply]
    split
    · rename_i here
      have kept : ∀ y ∈ front ++ back, decide (y.1 ≠ x.1) = true := fun y member =>
        decide_eq_true fun same => new (same ▸ List.mem_map_of_mem member)
      have gone : ¬ decide (x.1 ≠ x.1) = true := by simp
      rw [here, shape, List.filter_append, List.filter_cons, if_neg gone, ← List.filter_append,
        List.filter_eq_self.mpr kept]
    · rename_i other
      refine (List.filter_eq_self.mpr fun y member => decide_eq_true ?_).symm
      exact holds.apart j low' i low other y member x there
  rw [after.items, holds.items, length, allOf, allOf, List.filter_flatMap, List.flatMap_congr each]

theorem Holds.intact (holds : Holds cb s chains fun _ => True) : Intact cb s := by
  refine ⟨holds.rightLinks, fun x inside => ?_⟩
  rcases holds.split inside with ⟨i, low, front, back, shape⟩
  rcases hashDeletePair_ok holds low shape fun _ => trivial with ⟨next, run, after, leaves⟩
  exact ⟨next, run, holds.items_without low shape after leaves.length⟩

theorem Void.intact (void : Void s) : Intact cb s := by
  constructor
  · intro i head slot
    rw [void.table, List.getElem?_nil] at slot
    cases slot
  · rw [void.items]
    exact nofun

theorem Tabled.intact (tabled : Tabled cb s True) : Intact cb s := by
  rcases tabled with ⟨chains, good, kept, all⟩ | void
  · exact (kept.toHolds.mono fun i _ => all trivial i).intact
  · exact void.intact

theorem Sound.straight (sound : Sound cb op s) : Straight cb op s := by
  cases op with
  | deletePair a => trivial
  | deletePairNoFini a => trivial
  | _ => exact sound

theorem Sound.deletes (sound : Sound cb op s) (tabled : Tabled cb s True) : Deletes op s := by
  rcases tabled with ⟨chains, good, kept, all⟩ | void
  · have holds : Holds cb s chains fun _ => True := kept.toHolds.mono fun i _ => all trivial i
    cases op with
    | deletePair a => exact holds.removable sound
    | deletePairNoFini a => exact holds.removable sound
    | _ => trivial
  · cases op with
    | deletePair a =>
        rw [Sound, void.items] at sound
        cases sound
    | deletePairNoFini a =>
        rw [Sound, void.items] at sound
        cases sound
    | _ => trivial

theorem Initialised.tabled (initialised : Initialised s) (cb : Callbacks K V) (fine : Prop) : Tabled cb s fine := by
  rcases initialised.stored cb with ⟨stored, -⟩ | ⟨void, -⟩
  · exact .inl ⟨_, _, ⟨stored.toHolds, stored.counts.ge⟩, fun _ _ => trivial⟩
  · exact .inr void

/-- As long as no operation puts the links out of order, every stored item can be deleted. -/
theorem reachable_intact (reached : Reachable (step cb system) Initialised (Sound cb) s) : Intact cb s := by
  suffices tabled : Tabled cb s True from tabled.intact
  have first : ∀ s : HashStore K V, Initialised s → Tabled cb s True := fun s initialised =>
    initialised.tabled cb True
  apply reached.invariant _ first
  intro op s answer next tabled sound stepped
  rcases (tabled.step (sound.deletes tabled) stepped).tabled with ⟨chains, good, kept, all⟩ | void
  · exact .inl ⟨chains, good, kept, fun _ => all ⟨trivial, sound.straight⟩⟩
  · exact .inr void

/-- Two items in one chain. -/
def neighbourOps : List (HashOp UInt64 UInt64) := [.setItem 1 10, .setItem 3 30]

theorem neighbourOps_intact : ∃ s, execute (step (wordKeys none) wordAllocator) neighbourOps (newTable 2) =
    .ok ([.done, .done], s) ∧ Intact (wordKeys none) s := by
  have ran : (execute (step (wordKeys none) wordAllocator) neighbourOps (newTable 2)).map Prod.fst =
      .ok [.done, .done] := by
    decide +kernel
  rcases execute_of_answers ran with ⟨s, ran⟩
  have start : Initialised (newTable 2) := ⟨2, _, newTable_init 2⟩
  have run : Along (step (wordKeys none) wordAllocator) (Sound (wordKeys none)) neighbourOps (newTable 2) :=
    ⟨trivial, fun _ _ _ => ⟨trivial, fun _ _ _ => trivial⟩⟩
  exact ⟨s, ran, reachable_intact ((Reachable.start start).execute run ran)⟩

/-- The first item of the chain is removed; the other one can be found but not deleted. -/
theorem neighbourOps_asserts :
    (execute (step (wordKeys none) wordAllocator) (neighbourOps ++ [.removeItem 3, .getItem 1])
      (newTable 2)).map Prod.fst = .ok [.done, .done, .value (some 30), .item (some 1)] ∧
    (execute (step (wordKeys none) wordAllocator) (neighbourOps ++ [.removeItem 3, .deletePair 1])
      (newTable 2)).map Prod.fst = .error .assertion := by
  decide +kernel

end MnCommon.Hash
