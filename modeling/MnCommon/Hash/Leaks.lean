import MnCommon.Hash.Counting
import MnCommon.Memory.Records

/-! No item is lost: those that are allocated are those of the chains. -/

namespace MnCommon.Hash

open Memory

variable {K V A : Type} {cb : Callbacks K V} {system : Allocator (MnHashItem K V)} {s next : HashStore K V} {p : Ptr}
  {b c : Int}

/-- The count of the items against the items that are allocated. -/
abbrev Balanced (b c : Int) {A : Type} (x : HashProg K V A) : Prop := Balances MnHash.elnum b c x

abbrev Idle {A : Type} (x : HashProg K V A) : Prop := Neutral MnHash.elnum x

theorem arrayGet_idle (idx : Nat) : Idle (arrayGet idx : HashProg K V (Option Slot)) :=
  .bind .vars fun _ => .pure _

theorem readSlot_idle (phit : Option Slot) : Idle (readSlot phit : HashProg K V Ptr) := by
  cases phit with
  | none => exact .fault _
  | some slot =>
      refine .bind .vars fun t => ?_
      cases t.table[slot.2]? with
      | none => exact .fault _
      | some p => exact .ite (fun _ => .pure p) fun _ => .fault _

theorem writeSlot_idle (phit : Option Slot) (p : Ptr) : Idle (writeSlot phit p : HashProg K V Unit) := by
  cases phit with
  | none => exact .fault _
  | some slot => exact .bind .vars fun t => .ite (fun _ => .setVars fun _ => rfl) fun _ => .fault _

theorem arrayReset_idle (sz : Nat) : Idle (arrayReset sz : HashProg K V Unit) := .setVars fun _ => rfl

theorem slotOf_idle (cb : Callbacks K V) (key : K) : Idle (slotOf cb key) :=
  .bind .vars fun _ => .bind (arrayGet_idle _) fun _ => .ite (fun _ => .fault _) fun _ => .pure _

theorem callFini_idle (cb : Callbacks K V) (key : K) (value : V) : Idle (callFini cb key value) := by
  rw [callFini]
  cases cb.fini with
  | none => exact .pure 0
  | some fini => exact .bind .vars fun t => .bind (.setVars fun _ => rfl) fun _ => .pure _

theorem linkFirst_idle (phit : Option Slot) (hit : Ptr) : Idle (linkFirst phit hit : HashProg K V Unit) := by
  refine .bind (.update _ _) fun _ => .bind (.update _ _) fun _ => .bind (readSlot_idle phit) fun first => ?_
  apply Neutral.ite
  · exact fun _ => .update _ _
  · exact fun _ => .bind (.update _ _) fun _ => .bind (.update _ _) fun _ => .update _ _

theorem findItem_idle (cb : Callbacks K V) (key : K) (fuel : Nat) (p : Ptr) : Idle (findItem cb key fuel p) := by
  induction fuel generalizing p with
  | zero =>
      cases p with
      | none => exact .pure none
      | some _ => exact .fault _
  | succ fuel ih =>
      cases p with
      | none => exact .pure none
      | some hit => exact .bind (.load _) fun n => .ite (fun _ => .pure _) fun _ => ih n.next

theorem hashGetItem_idle (cb : Callbacks K V) (key : K) : Idle (hashGetItem cb key) := by
  refine .bind .vars fun t => .ite (fun _ => .pure none) fun _ => ?_
  refine .bind (slotOf_idle cb key) fun phit => .bind (readSlot_idle phit) fun first => ?_
  exact .ite (fun _ => .pure none) fun _ => .bind .bound fun fuel => findItem_idle cb key fuel first

theorem unlinkItem_idle (hit : Ptr) : Idle (unlinkItem hit : HashProg K V Unit) := by
  have last : Idle (do
      let n ← load hit
      if n.next ≠ none then
        update n.next fun x => { x with prev := n.prev }
        if n.prev = none then
          update n.next fun x => { x with bucket := n.bucket } : HashProg K V Unit) := by
    refine .bind (.load _) fun n => .ite (fun _ => .bind (.update _ _) fun _ => ?_) fun _ => .pure _
    exact .ite (fun _ => .update _ _) fun _ => .pure _
  refine .bind (.load _) fun n => ?_
  split
  · exact .bind (.update _ _) fun _ => last
  · exact .bind (.check _) fun _ => .bind (writeSlot_idle _ _) fun _ => last

section Traversal

variable {call : Ptr → A → HashProg K V (Int × A)} (idle : ∀ hit acc, Idle (call hit acc))
include idle

theorem traverseChain_idle (fuel : Nat) (p : Ptr) (acc : A) : Idle (traverseChain call fuel p acc) := by
  induction fuel generalizing p acc with
  | zero =>
      cases p with
      | none => exact .pure _
      | some _ => exact .fault _
  | succ fuel ih =>
      cases p with
      | none => exact .pure _
      | some hit =>
          exact .bind (.load _) fun n => .bind (idle _ acc) fun answer => .ite (fun _ => .pure _) fun _ => ih n.next _

theorem traverseSlots_idle (is : List Nat) (acc : A) : Idle (traverseSlots call is acc) := by
  induction is generalizing acc with
  | nil => exact .bind .vars fun _ => .ite (fun _ => .pure _) fun _ => .fault _
  | cons i rest ih =>
      refine .bind .vars fun t => .bind (readSlot_idle _) fun first => .bind .bound fun fuel => ?_
      exact .bind (traverseChain_idle idle fuel first acc) fun answer => .ite (fun _ => .pure _) fun _ => ih _

theorem hashTraverseItem_idle (acc : A) : Idle (hashTraverseItem call acc) :=
  .bind .vars fun _ => traverseSlots_idle idle _ acc

end Traversal

theorem rehashItem_idle (cb : Callbacks K V) (sz : Nat) (hit : Ptr) : Idle (rehashItem cb sz hit) := by
  refine .bind (.load _) fun n => .bind (arrayGet_idle _) fun phit => .ite (fun _ => .fault _) fun _ => ?_
  exact .bind (linkFirst_idle phit hit) fun _ => writeSlot_idle phit hit

theorem rehashItems_idle (cb : Callbacks K V) (sz : Nat) (tmp : List Ptr) : Idle (rehashItems cb sz tmp) := by
  induction tmp with
  | nil => exact .pure ()
  | cons hit rest ih => exact .bind (rehashItem_idle cb sz hit) fun _ => ih

theorem hashRehash_idle (cb : Callbacks K V) (sz : Nat) : Idle (hashRehash cb sz) := by
  refine .bind (hashTraverseItem_idle (fun _ _ => .pure _) []) fun answer => .ite (fun _ => .fault _) fun _ => ?_
  refine .bind (arrayReset_idle sz) fun _ => .bind .vars fun t => .bind (.check _) fun _ => ?_
  exact .ite (fun _ => rehashItems_idle cb sz _) fun _ => .fault _

/-! The operations that allocate and free. -/

theorem countUp_balanced : Balanced (1 : Int) 0 (countUp : HashProg K V Unit) :=
  Balances.countUp (b := 0) fun _ => rfl

theorem countDown_balanced : Balanced (-1 : Int) 0 (countDown : HashProg K V Unit) :=
  Balances.countDown (b := 0) (fun _ => rfl) (Int.le_refl 0)

theorem alloc_balanced (system : Allocator (MnHashItem K V)) : Balanced (0 : Int) 1 (alloc system : HashProg K V Ptr) :=
  Balances.alloc (b := 0) system

/-- An item is given back and counted off. -/
theorem freed_balanced (some : p ≠ none) (a : A) :
    Balanced 0 0 (do
      free p
      countDown
      return a : HashProg K V A) :=
  Balances.bind (c := -1) (Balances.free (b := 0) some) fun _ => countDown_balanced.bind fun _ => Neutral.pure a 0

theorem hashSetItem_balanced (cb : Callbacks K V) (system : Allocator (MnHashItem K V)) (key : K) (value : V) :
    Balanced 0 0 (hashSetItem cb system key value) := by
  refine (slotOf_idle cb key).then fun phit => (alloc_balanced system).bind fun hit => ?_
  refine (linkFirst_idle phit hit).then fun _ => (Neutral.update _ _).then fun _ => ?_
  exact (Neutral.update _ _).then fun _ => (writeSlot_idle phit hit).then fun _ => countUp_balanced

theorem addFirst_balanced (system : Allocator (MnHashItem K V)) (phit : Option Slot) (first : Ptr) (key : K)
    (value : V) : Balanced 0 0 (addFirst system phit first key value) := by
  refine (alloc_balanced system).bind fun hit => (Neutral.update _ _).then fun _ => ?_
  refine (Neutral.update _ _).then fun _ => (Neutral.update _ _).then fun _ => (Neutral.update _ _).then fun _ => ?_
  exact (Neutral.update _ _).then fun _ => (writeSlot_idle phit hit).then fun _ => countUp_balanced

theorem hashSetItemUniq_balanced (cb : Callbacks K V) (system : Allocator (MnHashItem K V)) (key : K) (value : V) :
    Balanced 0 0 (hashSetItemUniq cb system key value) := by
  refine (slotOf_idle cb key).then fun phit => (readSlot_idle phit).then fun first => Balances.ite ?_ ?_
  · intro _
    refine (alloc_balanced system).bind fun hit => (Neutral.update _ _).then fun _ => ?_
    exact (writeSlot_idle phit hit).then fun _ => countUp_balanced.bind fun _ => Neutral.pure _ 0
  · intro _
    refine Neutral.bound.then fun fuel => (findItem_idle cb key fuel first).then fun hit => Balances.ite ?_ ?_
    · intro _
      refine (Neutral.load hit).then fun n => (callFini_idle cb n.key n.value).then fun _ => ?_
      exact (Neutral.update _ _).then fun _ => (Neutral.update _ _).then fun _ => Neutral.pure _ 0
    · exact fun _ => (addFirst_balanced system phit first key value).bind fun _ => Neutral.pure _ 0

theorem removeBehind_balanced (cb : Callbacks K V) (key : K) (fuel : Nat) (before : Ptr) :
    Balanced 0 0 (removeBehind cb key fuel before) := by
  induction fuel generalizing before with
  | zero => exact Balances.fault _
  | succ fuel ih =>
      refine (Neutral.load before).then fun m => Balances.ite (fun _ => Neutral.pure _ 0) fun some => ?_
      refine (Neutral.load m.next).then fun n => Balances.ite ?_ fun _ => ih m.next
      intro _
      refine (Neutral.update _ _).then fun _ => ?_
      split
      · exact (Neutral.update _ _).then fun _ => freed_balanced some _
      · exact freed_balanced some _

theorem hashRemoveItem_balanced (cb : Callbacks K V) (key : K) : Balanced 0 0 (hashRemoveItem cb key) := by
  refine (slotOf_idle cb key).then fun phit => (readSlot_idle phit).then fun hit => ?_
  refine Balances.ite (fun _ => Neutral.pure _ 0) fun some => (Neutral.load hit).then fun n => Balances.ite ?_ ?_
  · intro _
    split
    · exact (Neutral.update _ _).then fun _ => (writeSlot_idle phit n.next).then fun _ => freed_balanced some _
    · exact (writeSlot_idle phit n.next).then fun _ => freed_balanced some _
  · exact fun _ => Neutral.bound.then fun fuel => removeBehind_balanced cb key fuel hit

theorem deletePair_balanced (cb : Callbacks K V) (a : Addr) : Balanced 0 0 (hashDeletePair cb (some a)) := by
  refine (unlinkItem_idle (some a)).then fun _ => (Neutral.load (some a)).then fun n => ?_
  exact (callFini_idle cb n.key n.value).then fun _ =>
    Balances.bind (c := -1) (Balances.free (b := 0) (by simp)) fun _ => countDown_balanced

theorem deletePairNoFini_balanced (a : Addr) : Balanced 0 0 (hashDeletePairNoFini (some a) : HashProg K V Unit) :=
  (unlinkItem_idle (some a)).then fun _ =>
    Balances.bind (c := -1) (Balances.free (b := 0) (by simp)) fun _ => countDown_balanced

theorem cleanupChain_balanced (cb : Callbacks K V) (fuel : Nat) (p : Ptr) : Balanced 0 0 (cleanupChain cb fuel p) := by
  induction fuel generalizing p with
  | zero =>
      cases p with
      | none => exact Neutral.pure () 0
      | some _ => exact Balances.fault _
  | succ fuel ih =>
      cases p with
      | none => exact Neutral.pure () 0
      | some hit =>
          refine (Neutral.load _).then fun n => (callFini_idle cb n.key n.value).then fun res => ?_
          refine Balances.ite (fun _ => Neutral.pure () 0) fun _ => ?_
          exact Balances.bind (c := -1) (Balances.free (b := 0) (by simp)) fun _ => countDown_balanced.bind fun _ =>
            ih n.next

theorem cleanupSlots_balanced (cb : Callbacks K V) (is : List Nat) : Balanced 0 0 (cleanupSlots cb is) := by
  induction is with
  | nil => exact Neutral.pure () 0
  | cons i rest ih =>
      refine Neutral.vars.then fun t => (readSlot_idle _).then fun first => Neutral.bound.then fun fuel => ?_
      exact (cleanupChain_balanced cb fuel first).bind fun _ => (writeSlot_idle _ _).then fun _ => ih

theorem hashCleanup_balanced (cb : Callbacks K V) : Balanced 0 0 (hashCleanup cb) :=
  Neutral.vars.then fun _ => cleanupSlots_balanced cb _

/-- Whatever is called, the count of the table is the number of its items that are allocated. -/
theorem step_balanced (cb : Callbacks K V) (system : Allocator (MnHashItem K V)) (op : HashOp K V) :
    Balanced 0 0 (step cb system op) := by
  cases op with
  | setItem key value => exact (hashSetItem_balanced cb system key value).bind fun _ => Neutral.pure _ 0
  | setItemUniq key value => exact (hashSetItemUniq_balanced cb system key value).bind fun _ => Neutral.pure _ 0
  | getItem key => exact (hashGetItem_idle cb key).then fun _ => Neutral.pure _ 0
  | removeItem key => exact (hashRemoveItem_balanced cb key).bind fun _ => Neutral.pure _ 0
  | deletePair a => exact (deletePair_balanced cb a).bind fun _ => Neutral.pure _ 0
  | deletePairNoFini a => exact (deletePairNoFini_balanced a).bind fun _ => Neutral.pure _ 0
  | rehash sz => exact (hashRehash_idle cb sz).then fun _ => Neutral.pure _ 0
  | traverse =>
      have idle : Idle (hashTraverse (fun key value acc => pure (0, acc ++ [(key, value)])) [] :
          HashProg K V (Int × List (K × V))) :=
        hashTraverseItem_idle (fun _ _ => .bind (.load _) fun _ => .pure _) []
      exact idle.then fun _ => Neutral.pure _ 0
  | cleanup => exact (hashCleanup_balanced cb).bind fun _ => Neutral.pure _ 0

/-- A table that has just been initialised, and nothing else is allocated. -/
structure Fresh (s : HashStore K V) : Prop where
  initialised : Initialised s
  empty : s.heap = ∅

theorem hashInit_elnum {sz : Nat} {start : HashStore K V} (init : hashInit sz start = .ok ((), s)) :
    s.vars.elnum = 0 := by
  cases init
  rfl

theorem Fresh.surplus (fresh : Fresh s) : surplus MnHash.elnum s = 0 := by
  rcases fresh.initialised with ⟨sz, start, init⟩
  rw [Memory.surplus, fresh.empty, hashInit_elnum init]
  simp

theorem elnum_of_surplus (balanced : surplus MnHash.elnum s = 0) : s.heap.keys.card = s.vars.elnum := by
  rw [surplus] at balanced
  omega

/-- The items of the chains lie at different addresses, and each is allocated. -/
theorem Counted.addresses (counted : Counted cb s) :
    ((itemsOf s).map Prod.fst).Nodup ∧ ∀ a ∈ (itemsOf s).map Prod.fst, a ∈ s.heap.keys := by
  rcases counted with ⟨chains, good, stored⟩ | void
  · rw [stored.items]
    refine ⟨stored.toHolds.distinct, ?_⟩
    intro a inside
    rcases List.mem_map.mp inside with ⟨x, member, rfl⟩
    rcases mem_allOf.mp member with ⟨i, low, here⟩
    rcases stored.cell low here with ⟨n, cell, -⟩
    exact Finmap.mem_keys.mpr (Finmap.mem_of_lookup_eq_some cell)
  · rw [void.items]
    simp

/-- As many as are counted, so all of them. -/
theorem Counted.noLeak (counted : Counted cb s) (balanced : surplus MnHash.elnum s = 0) :
    s.heap.keys = ((itemsOf s).map Prod.fst).toFinset := by
  rcases counted.addresses with ⟨distinct, inside⟩
  symm
  apply Finset.eq_of_subset_of_card_le
  · exact fun a member => inside a (List.mem_toFinset.mp member)
  · rw [List.toFinset_card_of_nodup distinct, List.length_map, elnum_of_surplus balanced, counted.elnum]

theorem heap_empty {h : Heap (MnHashItem K V)} (none : h.keys.card = 0) : h = ∅ := by
  apply Finmap.ext_lookup
  intro a
  have outside : a ∉ h.keys := by
    rw [Finset.card_eq_zero.mp none]
    exact Finset.notMem_empty a
  rw [Finmap.lookup_empty, Finmap.lookup_eq_none]
  exact fun inside => outside (Finmap.mem_keys.mpr inside)

/-- The finaliser has been given every pair, and everything is freed. -/
theorem Counted.fini (counted : Counted cb s) (balanced : surplus MnHash.elnum s = 0)
    (accepts : Accepts cb s.vars.finished (itemsOf s)) :
    ∃ next, hashFini cb s = .ok ((), next) ∧ next.heap = ∅ ∧
      next.vars.finished = finishAll cb s.vars.finished (itemsOf s) := by
  have cleaned : ∃ mid, hashCleanup cb s = .ok ((), mid) ∧ mid.vars.elnum = 0 ∧
      mid.vars.finished = finishAll cb s.vars.finished (itemsOf s) := by
    rcases counted with ⟨chains, good, stored⟩ | void
    · rcases hashCleanup_tallied stored.toHolds with ⟨mid, run, -, tallied⟩
      rw [stored.items] at accepts ⊢
      rcases tallied.accepted stored.counts.ge accepts with ⟨fewer, log⟩
      have counts := stored.counts
      exact ⟨mid, run, by omega, log⟩
    · refine ⟨s, void.cleanup, void.counts, ?_⟩
      rw [void.items]
      rfl
  rcases cleaned with ⟨mid, run, none, log⟩
  have even := hashCleanup_balanced cb s () mid balanced run
  have card := elnum_of_surplus even
  rw [none] at card
  refine ⟨{ mid with vars := { mid.vars with table := [] } }, ?_, heap_empty card, log⟩
  rw [hashFini, bind_ok run]
  rfl

theorem newTable_fresh (sz : Nat) : Fresh (newTable sz) := ⟨⟨sz, _, newTable_init sz⟩, rfl⟩

end MnCommon.Hash
