import MnCommon.Hash.Deletion

/-! Going through a table with an iterator. -/

namespace MnCommon.Hash

open Memory

variable {K V : Type} {cb : Callbacks K V} {system : Allocator (MnHashItem K V)} {s next : HashStore K V}
  {chains : Chains K V} {good : Nat → Prop} {i : Nat} {xs : List (Entry K V)} {x : Entry K V}

/-- `mnhash_iter_t`; `iter` is that of the iterator of the array, an `unsigned`. -/
structure MnHashIter where
  iter : Nat
  phit : Option Slot
  hit : Ptr
  deriving DecidableEq

/-- The slot at an index of the table, if there is one. -/
def slotAt (iter : Nat) : HashProg K V (Option Slot) := do
  let t ← vars
  return if iter < t.table.length then some (t.data, iter) else none

/-- The loops of `hash_first` and `hash_next`, up to a slot with items. Where the index comes round to the
first slot again and all slots are empty they go on forever. -/
def seekSlot : Nat → Nat → HashProg K V MnHashIter
  | 0, _ => fault .outOfFuel
  | fuel + 1, iter => do
      let phit ← slotAt iter
      if phit = none then
        return { iter := iter, phit := none, hit := none }
      else
        let hit ← readSlot phit
        if hit ≠ none then
          return { iter := iter, phit := phit, hit := hit }
        else
          seekSlot fuel ((iter + 1) % 2 ^ 32)

def hashFirst : HashProg K V MnHashIter := do
  seekSlot ((← vars).table.length + 1) 0

/-- The item behind this one, if there is one. -/
def itemBehind : Ptr → HashProg K V Ptr
  | none => pure none
  | some a => do return (← load (some a)).next

def hashNext (it : MnHashIter) : HashProg K V MnHashIter := do
  let hit ← itemBehind it.hit
  if hit = none then
    seekSlot ((← vars).table.length + 1) ((it.iter + 1) % 2 ^ 32)
  else
    return { it with hit := hit }

/-- A client that goes on until it gets NULL. -/
def followIter : Nat → MnHashIter → List Ptr → HashProg K V (List Ptr)
  | 0, _, _ => fault .outOfFuel
  | fuel + 1, it, seen =>
      if it.hit = none then
        return seen
      else do
        let next ← hashNext it
        followIter fuel next (seen ++ [it.hit])

def iterated : HashProg K V (List Ptr) := do
  let fuel ← bound
  let it ← hashFirst
  followIter fuel it []

def traversed : HashProg K V (Int × List Ptr) := hashTraverseItem (fun hit seen => pure (0, seen ++ [hit])) []

/-- Both meet the stored items, each of them once. -/
def Agree (s : HashStore K V) : Prop :=
  ∃ hits, iterated s = .ok (hits, s) ∧ traversed s = .ok ((0, hits), s) ∧ hits = (itemsOf s).map address ∧ hits.Nodup

/-- All items from a slot on. -/
def itemsFrom (size : Nat) (chains : Chains K V) (i : Nat) : List (Entry K V) :=
  (List.range' i (size - i)).flatMap chains

theorem itemsFrom_end (size : Nat) (chains : Chains K V) : itemsFrom size chains size = [] := by
  rw [itemsFrom, Nat.sub_self]
  rfl

theorem itemsFrom_slot {size : Nat} (chains : Chains K V) (low : i < size) :
    itemsFrom size chains i = chains i ++ itemsFrom size chains (i + 1) := by
  have more : size - i = (size - (i + 1)) + 1 := by omega
  rw [itemsFrom, more, List.range'_succ, List.flatMap_cons, itemsFrom]

/-- The items that an iterator is still to come to. -/
def Ahead (s : HashStore K V) (chains : Chains K V) (it : MnHashIter) (rest : List (Entry K V)) : Prop :=
  (rest = [] ∧ it.hit = none) ∨
    ∃ front x back, it.iter < s.vars.table.length ∧ chains it.iter = front ++ x :: back ∧ it.hit = some x.1 ∧
      rest = x :: back ++ itemsFrom s.vars.table.length chains (it.iter + 1)

theorem slotAt_ok (iter : Nat) (s : HashStore K V) :
    slotAt iter s = .ok (if iter < s.vars.table.length then some (s.vars.data, iter) else none, s) := rfl

theorem seekSlot_ok (holds : Holds cb s chains good) (small : s.vars.table.length < 2 ^ 32) (fuel i : Nat)
    (inside : i ≤ s.vars.table.length) (enough : s.vars.table.length < i + fuel) :
    ∃ it, seekSlot fuel i s = .ok (it, s) ∧ Ahead s chains it (itemsFrom s.vars.table.length chains i) := by
  induction fuel generalizing i with
  | zero => omega
  | succ fuel ih =>
      rw [seekSlot, bind_ok (slotAt_ok i s), run_ite]
      by_cases low : i < s.vars.table.length
      · rw [if_pos low, if_neg (Option.some_ne_none _), bind_ok (readSlot_ok (holds.head low)), run_ite]
        cases shape : chains i with
        | nil =>
            rcases ih (i + 1) low (by omega) with ⟨it, run, ahead⟩
            refine ⟨it, ?_, ?_⟩
            · rw [List.head?_nil, Option.map_none, if_neg (not_not.mpr rfl), Nat.mod_eq_of_lt (by omega)]
              exact run
            · rw [itemsFrom_slot chains low, shape, List.nil_append]
              exact ahead
        | cons x back =>
            refine ⟨⟨i, some (s.vars.data, i), some x.1⟩, ?_, .inr ⟨[], x, back, low, shape, rfl, ?_⟩⟩
            · rw [List.head?_cons, Option.map_some, if_pos (Option.some_ne_none _), run_pure]
            · rw [itemsFrom_slot chains low, shape]
      · rw [if_neg low, if_pos rfl, run_pure]
        obtain rfl : i = s.vars.table.length := by omega
        exact ⟨_, rfl, .inl ⟨itemsFrom_end _ _, rfl⟩⟩

theorem hashFirst_ok (holds : Holds cb s chains good) (small : s.vars.table.length < 2 ^ 32) :
    ∃ it, hashFirst s = .ok (it, s) ∧ Ahead s chains it (allOf s.vars.table.length chains) := by
  have whole : itemsFrom s.vars.table.length chains 0 = allOf s.vars.table.length chains := by
    rw [itemsFrom, allOf, Nat.sub_zero, List.range_eq_range']
  rw [← whole]
  exact seekSlot_ok holds small _ 0 (Nat.zero_le _) (by omega)

theorem hashNext_ok (holds : Holds cb s chains good) (small : s.vars.table.length < 2 ^ 32) {it : MnHashIter}
    (ahead : Ahead s chains it (x :: xs)) :
    it.hit = some x.1 ∧ ∃ it', hashNext it s = .ok (it', s) ∧ Ahead s chains it' xs := by
  rcases ahead with ⟨wrong, -⟩ | ⟨front, y, back, low, shape, here, rest⟩
  · cases wrong
  · rcases List.cons.inj rest with ⟨rfl, rfl⟩
    have seg := holds.seg low
    rw [shape] at seg
    rcases seg.middle with ⟨n, cell, -, -, tail⟩
    have link : n.next = back.head?.map Prod.fst := tail.head_eq
    have first : itemBehind it.hit s = .ok (back.head?.map Prod.fst, s) := by
      rw [here, itemBehind, bind_ok (load_ok cell), link]
      rfl
    refine ⟨here, ?_⟩
    rw [hashNext, bind_ok first, run_ite]
    cases back with
    | nil =>
        rcases seekSlot_ok holds small (s.vars.table.length + 1) (it.iter + 1) low (by omega) with ⟨it', run, ahead'⟩
        refine ⟨it', ?_, ahead'⟩
        rw [List.head?_nil, Option.map_none, if_pos rfl, run_bind]
        simp only [vars]
        rw [Nat.mod_eq_of_lt (by omega)]
        exact run
    | cons z back =>
        refine ⟨{ it with hit := some z.1 }, ?_, .inr ⟨front ++ [x], z, back, low, ?_, rfl, rfl⟩⟩
        · rw [List.head?_cons, Option.map_some, if_neg (Option.some_ne_none _), run_pure]
        · rw [List.append_assoc, List.singleton_append]
          exact shape

theorem followIter_ok (holds : Holds cb s chains good) (small : s.vars.table.length < 2 ^ 32)
    (rest : List (Entry K V)) (it : MnHashIter) (ahead : Ahead s chains it rest) (seen : List Ptr) (fuel : Nat)
    (enough : rest.length < fuel) : followIter fuel it seen s = .ok (seen ++ rest.map address, s) := by
  induction rest generalizing it seen fuel with
  | nil =>
      have ended : it.hit = none := by
        rcases ahead with ⟨-, ended⟩ | ⟨front, x, back, -, -, -, wrong⟩
        · exact ended
        · cases wrong
      cases fuel with
      | zero => exact absurd enough (Nat.not_lt_zero _)
      | succ fuel => rw [followIter, run_ite, if_pos ended, run_pure, List.map_nil, List.append_nil]
  | cons x rest ih =>
      rcases hashNext_ok holds small ahead with ⟨here, it', run, ahead'⟩
      have some : ¬ it.hit = none := by
        rw [here]
        exact Option.some_ne_none _
      cases fuel with
      | zero => exact absurd enough (Nat.not_lt_zero _)
      | succ fuel =>
          rw [followIter, run_ite, if_neg some, bind_ok run, ih it' ahead' _ fuel (Nat.lt_of_succ_lt_succ enough),
            List.map_cons, here, List.append_assoc]
          rfl

theorem Holds.agree (holds : Holds cb s chains good) (small : s.vars.table.length < 2 ^ 32) : Agree s := by
  have once := holds.distinct
  have short : (allOf s.vars.table.length chains).length < s.bound := by
    have inside : ((allOf s.vars.table.length chains).map Prod.fst).toFinset ⊆ s.heap.keys := by
      intro a member
      rcases List.mem_map.mp (List.mem_toFinset.mp member) with ⟨x, there, rfl⟩
      rcases mem_allOf.mp there with ⟨i, low, here⟩
      rcases holds.cell low here with ⟨n, cell, -⟩
      exact Finmap.mem_keys.mpr (Finmap.mem_of_lookup_eq_some cell)
    have fewer := Finset.card_le_card inside
    rw [List.toFinset_card_of_nodup once, List.length_map] at fewer
    exact Nat.lt_succ_of_le fewer
  rcases hashFirst_ok holds small with ⟨it, first, ahead⟩
  have met := followIter_ok holds small _ it ahead [] s.bound short
  refine ⟨(itemsOf s).map address, ?_, ?_, rfl, ?_⟩
  · rw [iterated, bound_bind, bind_ok first, met, List.nil_append, holds.items]
  · rw [traversed, holds.items]
    exact (myRehash_ok holds).trans (if_pos small)
  · have lifted := once.map (Option.some_injective Addr)
    rw [List.map_map] at lifted
    rwa [holds.items]

theorem Void.agree (void : Void s) : Agree s := by
  have nothing : (itemsOf s).map address = [] := by
    rw [void.items]
    rfl
  refine ⟨[], ?_, void.traverseItem _ [], nothing.symm, .nil⟩
  rcases s with ⟨heap, ⟨data, table, elnum, finished⟩, tick⟩
  rcases void with ⟨rfl, rfl⟩
  rfl

/-- Items in two of three slots. -/
def sparseOps : List (HashOp UInt64 UInt64) := [.setItem 1 10, .setItemUniq 4 40, .setItem 2 20, .removeItem 4]

end MnCommon.Hash
