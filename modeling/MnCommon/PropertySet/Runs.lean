import MnCommon.PropertySet.TopK

/-! What `pset_pop` does in every set that a client can come to. -/

namespace MnCommon.PropertySet

open Memory Hash

variable (cb : Callbacks ItemPtr Ptr) (system : Allocator (MnHashItem ItemPtr Ptr))

/-- The item with another property. -/
def ItemPtr.valued (cmprop : Int) : ItemPtr → ItemPtr
  | given addr it => given addr { it with cmprop := cmprop }
  | candidate => candidate

/-- `pset_peek`, and the client's writing of a property into the item that it answers. -/
def psetAsk (pset : Pset) (it : ItemPtr) (cmprop : Int) : Except Fault (Option ItemPtr × Pset) := do
  let (dit, d) ← onTable (hashGetItem cb it) pset.d
  if dit = none then
    return (none, { pset with d := d })
  else
    let (n, d) ← onTable (load dit) d
    let ((), d) ← onTable (update dit fun n => { n with key := n.key.valued cmprop }) d
    return (some n.key, { pset with d := d })

inductive PsetOp where
  | push (addr : Addr) (it : PsetItem)
  | pop
  | ask (it : ItemPtr) (cmprop : Int)

def psetStep (op : PsetOp) (pset : Pset) : Except Fault (Option ItemPtr × Pset) :=
  match op with
  | .push addr it => psetPush cb system pset (.given addr it)
  | .pop => psetPop cb pset
  | .ask it cmprop => psetAsk cb pset it cmprop

/-- A set as `pset_init` leaves it. -/
def Made (pset : Pset) : Prop := ∃ thresh minthresh d, psetInit thresh minthresh d = .ok pset

/-- The client changes the property of an item only where it remains the same key. -/
def Settled (op : PsetOp) (pset : Pset) : Prop :=
  match op with
  | .ask it cmprop => ∀ k ∈ held pset, cb.cmp it k = 0 → cb.cmp k (k.valued cmprop) = 0
  | _ => True

/-- An item with the least property goes; of an empty set there is nothing to answer. -/
def Pops (pset : Pset) : Prop :=
  ∃ res next, psetPop cb pset = .ok (res, next) ∧
    if held pset = [] then res = none ∧ next = pset
    else ∃ it, res = some it ∧ (∀ k ∈ held pset, it.cmprop ≤ k.cmprop) ∧ (held pset).Perm (it :: held next) ∧
      next.nleft = pset.nleft + 1

variable {cb system} {pset next : Pset} {items : List ItemPtr} {it k : ItemPtr} {op : PsetOp} {res : Option ItemPtr}
  {s mid : HashStore ItemPtr Ptr} {chains : Chains ItemPtr Ptr} {good : Nat → Prop}

/-- The set of items fits, and the client has given all of them. -/
structure Sound (cb : Callbacks ItemPtr Ptr) (pset : Pset) : Prop extends Fits cb pset where
  given : .candidate ∉ held pset

theorem Made.sound (made : Made pset) : Sound cb pset := by
  rcases made with ⟨thresh, minthresh, d, init⟩
  rcases psetInit_fits cb init with ⟨fits, empty⟩
  refine ⟨fits, ?_⟩
  rw [empty]
  exact List.not_mem_nil

theorem Sound.push (sound : Sound cb pset) (agrees : Agrees cb) {addr : Addr} {it : PsetItem}
    (pushed : psetPush cb system pset (.given addr it) = .ok (res, next)) : Sound cb next := by
  rw [psetPush] at pushed
  split at pushed
  · cases pushed
    exact sound
  rcases sound.getItem agrees (.given addr it) with ⟨dit, got, absent⟩
  simp only [got, bind, Except.bind] at pushed
  -- what the set holds before it may have to give back an item
  have rest : ∀ middle, Sound cb middle →
      (if middle.nleft < 0 then psetPop cb middle else .ok (none, middle)) = .ok (res, next) → Sound cb next := by
    intro middle sound popped
    split at popped
    · rcases sound.pop agrees with ⟨final, ran, after⟩
      cases ran.symm.trans popped
      exact ⟨after.fits, fun inside => sound.given (after.subset _ inside)⟩
    · cases popped
      exact sound
  split at pushed
  next none =>
    rcases sound.setItem system agrees (absent.mp none) (pset.nleft - 1) with ⟨d, set, fits, perm⟩
    simp only [set] at pushed
    refine rest { pset with nleft := pset.nleft - 1, d := d } ⟨fits, fun inside => ?_⟩ pushed
    rcases List.mem_cons.mp (perm.subset inside) with same | old
    · cases same
    · exact sound.given old
  next => exact rest pset sound pushed

theorem Sound.pop (sound : Sound cb pset) (agrees : Agrees cb) (popped : psetPop cb pset = .ok (res, next)) :
    Sound cb next := by
  rcases sound.toFits.pop agrees with ⟨final, ran, after⟩
  cases ran.symm.trans popped
  exact ⟨after.fits, fun inside => sound.given (after.subset _ inside)⟩

theorem exchanged_perm {A : Type} {xs ys front back : List A} {x y : A}
    (changed : (xs ++ (front ++ x :: back)).Perm (ys ++ (front ++ y :: back))) : (x :: xs).Perm (y :: ys) := by
  have around : ∀ zs z, (zs ++ (front ++ z :: back)).Perm (z :: zs ++ (front ++ back)) := fun zs z =>
    (List.perm_middle.append_left zs).trans List.perm_middle
  apply (List.perm_append_right_iff (front ++ back)).mp
  exact (around xs x).symm.trans (changed.trans (around ys y))

/-- An item of the table that gets another key, which equals the one that it has had. -/
theorem rekeyed (stored : Stored cb s chains good) (agrees : Agrees cb) {i : Nat} (low : i < s.vars.table.length)
    {front back : List (Entry ItemPtr Ptr)} {x : Entry ItemPtr Ptr} (shape : chains i = front ++ x :: back)
    {n : MnHashItem ItemPtr Ptr} (cell : s.heap.lookup x.1 = some n) (pair : pairOf n = x.2)
    (same : cb.cmp n.key k = 0) :
    (∃ chains good, Stored cb { s with heap := s.heap.insert x.1 { n with key := k } } chains good) ∧
      ∃ rest, (itemsOf s).Perm (x :: rest) ∧
        (itemsOf { s with heap := s.heap.insert x.1 { n with key := k } }).Perm ((x.1, k, n.value) :: rest) := by
  have member : x ∈ chains i := shape ▸ List.mem_append_right front List.mem_cons_self
  have key : n.key = x.2.1 := congrArg Prod.fst pair
  have here : place cb s.vars.table.length k = i := by
    rw [← agrees.place_eq same, key]
    exact stored.placed i low x member
  have assigned : Holds cb { logged cb s x.2 with heap := s.heap.insert x.1 { n with key := k } }
      (Function.update chains i (front ++ (x.1, k, n.value) :: back)) good := stored.assign low shape cell here x.2
  have after : Holds cb { s with heap := s.heap.insert x.1 { n with key := k } }
      (Function.update chains i (front ++ (x.1, k, n.value) :: back)) good :=
    ⟨assigned.nonempty, assigned.slot, assigned.bucket, assigned.placed, assigned.once, assigned.apart⟩
  have changed := stored.items_changed low after rfl
  have swapped : (x :: itemsOf { s with heap := s.heap.insert x.1 { n with key := k } }).Perm
      ((x.1, k, n.value) :: itemsOf s) := by
    rw [shape] at changed
    exact exchanged_perm changed
  have inside : x ∈ itemsOf s := by
    rw [stored.items]
    exact mem_allOf.mpr ⟨i, low, member⟩
  rcases List.append_of_mem inside with ⟨before, behind, split⟩
  have whole : (itemsOf s).Perm (x :: (before ++ behind)) := by
    rw [split]
    exact List.perm_middle
  refine ⟨⟨_, _, after, ?_⟩, before ++ behind, whole, ?_⟩
  · have lengths := swapped.length_eq
    rw [List.length_cons, List.length_cons, after.items, stored.items, ← stored.counts] at lengths
    exact (Nat.succ.inj lengths).symm
  · apply List.Perm.cons_inv (a := x)
    exact swapped.trans ((whole.cons _).trans (.swap _ _ _))

theorem Sound.ask (sound : Sound cb pset) (agrees : Agrees cb) {cmprop : Int}
    (settled : Settled cb (.ask it cmprop) pset) :
    ∃ res next, psetAsk cb pset it cmprop = .ok (res, next) ∧ Sound cb next := by
  rcases sound.stored with ⟨chains, good, stored⟩
  have low := place_lt cb stored.nonempty it
  have empty : pset.d.vars.elnum = 0 → allOf pset.d.vars.table.length chains = [] := by
    intro none
    rw [stored.counts] at none
    exact List.length_eq_zero_iff.mp none
  have got := onTable_ok (hashGetItem_ok stored.toHolds it empty)
  cases search : visible cb pset.d.vars.table.length chains it with
  | none =>
      rw [search] at got
      refine ⟨none, pset, ?_, sound⟩
      simp only [psetAsk, got, bind, Except.bind]
      rfl
  | some x =>
      rw [search] at got
      rcases List.find?_eq_some_iff_append.mp search with ⟨found, front, back, shape, -⟩
      have member : x ∈ chains (place cb pset.d.vars.table.length it) :=
        shape ▸ List.mem_append_right front List.mem_cons_self
      rcases stored.cell low member with ⟨n, cell, pair⟩
      have key : n.key = x.2.1 := congrArg Prod.fst pair
      have inside : n.key ∈ held pset := by
        rw [held, stored.items, key]
        exact List.mem_map_of_mem (mem_allOf.mpr ⟨_, low, member⟩)
      have equal : cb.cmp it n.key = 0 := key ▸ of_decide_eq_true found
      have same := settled n.key inside equal
      rcases rekeyed stored agrees low shape cell pair same with ⟨after, rest, before, now⟩
      have old : (held pset).Perm (n.key :: rest.map fun x => x.2.1) := by
        rw [key]
        exact before.map fun x => x.2.1
      have new := now.map fun x : Entry ItemPtr Ptr => x.2.1
      refine ⟨some n.key, { pset with d := { pset.d with
        heap := pset.d.heap.insert x.1 { n with key := n.key.valued cmprop } } }, ?_, ⟨after, sound.small, ?_⟩, ?_⟩
      · have loaded : onTable (load (some x.1)) pset.d = .ok (n, pset.d) := onTable_ok (load_ok cell)
        have written := onTable_ok (update_ok (fun n => { n with key := n.key.valued cmprop }) cell)
        simp only [psetAsk, got, bind, Except.bind, Option.map_some, loaded, written]
        rfl
      · rcases List.pairwise_cons.mp (apart_perm agrees old sound.apart) with ⟨others, apart⟩
        apply apart_perm agrees new.symm
        exact List.pairwise_cons.mpr ⟨fun l later hit => others l later (agrees.trans _ _ _ same hit), apart⟩
      · intro candidate
        rcases List.mem_cons.mp (new.subset candidate) with fresh | kept
        · cases shape : n.key with
          | given addr item =>
              rw [shape] at fresh
              cases fresh
          | candidate => exact sound.given (shape ▸ inside)
        · exact sound.given (old.symm.subset (List.mem_cons_of_mem _ kept))

theorem Sound.step (sound : Sound cb pset) (agrees : Agrees cb) (settled : Settled cb op pset)
    (stepped : psetStep cb system op pset = .ok (res, next)) : Sound cb next := by
  cases op with
  | push addr it => exact sound.push agrees stepped
  | pop => exact sound.pop agrees stepped
  | ask it cmprop =>
      rcases sound.ask agrees settled with ⟨res, final, ran, after⟩
      cases ran.symm.trans stepped
      exact after

theorem sound_of_reachable (agrees : Agrees cb)
    (reached : Reachable (psetStep cb system) Made (Settled cb) pset) : Sound cb pset := by
  apply Reachable.invariant (Sound cb) _ _ reached
  · exact fun s made => made.sound
  · exact fun op s answer next sound settled stepped => sound.step agrees settled stepped

/-- The item that is found is the candidate or is below it. -/
theorem leastOf_lt (items : List ItemPtr) (it : ItemPtr) :
    leastOf items it = it ∨ (leastOf items it).cmprop < it.cmprop := by
  induction items generalizing it with
  | nil => exact .inl rfl
  | cons k rest ih =>
      have first : lesser k it = it ∨ (lesser k it).cmprop < it.cmprop := by
        rw [lesser]
        split
        next less => exact .inr less
        next => exact .inl rfl
      rw [leastOf]
      split
      · exact first
      · rcases first with same | less
        · rw [same]
          exact ih it
        · exact .inr ((leastOf_le rest _).trans_lt less)

/-- A set gives back its least item exactly when one of its items is below the maximum
and no item that is less than one lies behind the first one with the property one. -/
theorem psetPop_iff (cb : Callbacks ItemPtr Ptr) (system : Allocator (MnHashItem ItemPtr Ptr)) (agrees : Agrees cb)
    (pset : Pset) (reached : Reachable (psetStep cb system) Made (Settled cb) pset) :
    Pops cb pset ↔ (∃ k ∈ held pset, k.cmprop < cmMax) ∧ Unhurried (held pset) := by
  have sound := sound_of_reachable agrees reached
  rcases sound.toFits.pop agrees with ⟨after, popped, left⟩
  constructor
  · rintro ⟨res, next, ran, right⟩
    cases popped.symm.trans ran
    by_cases empty : held pset = []
    · rw [if_pos empty] at right
      cases right.1
    rw [if_neg empty] at right
    rcases right with ⟨it, same, least, perm, -⟩
    obtain rfl : best pset = it := Option.some.inj same
    have member := perm.symm.subset List.mem_cons_self
    refine ⟨⟨best pset, member, ?_⟩, (leastOf_least_iff _ .candidate (by decide)).mp least⟩
    rcases leastOf_lt (held pset) .candidate with same | less
    · rw [best, same] at member
      exact absurd member sound.given
    · exact less
  · rintro ⟨below, unhurried⟩
    have member := best_mem below unhurried
    refine ⟨some (best pset), after, popped, ?_⟩
    rw [if_neg (List.ne_nil_of_mem member)]
    exact ⟨best pset, rfl, leastOf_least _ .candidate (by decide) unhurried, left.taken member, left.nleft⟩

/-- A set with a single item. -/
theorem sampleItem_pops : ∃ pset, held pset = [.given 7 ⟨some 8, 5⟩] ∧ Pops plainItems pset := by
  rcases psetInit_ok plainItems (by decide : 2 ≤ wheelEnd) 0 noTable with ⟨made, init, first⟩
  have admitted : ∀ k ∈ [ItemPtr.given 7 ⟨some 8, 5⟩], Admitted 0 k := by
    simp [Admitted, ItemPtr.cmprop, ItemPtr.item, cmMax]
  rcases first.push (.bump noItem) plainItems_agrees (le_refl 0) admitted (fun _ => nofun) with
    ⟨res, pset, pushed, ranked⟩
  have settled : Settled plainItems (.push 7 ⟨some 8, 5⟩) made := trivial
  have reached : Reachable (psetStep plainItems (.bump noItem)) Made (Settled plainItems) pset :=
    .step (.start ⟨2, 0, noTable, init⟩) settled pushed
  have all : held pset = [.given 7 ⟨some 8, 5⟩] := by
    have length : (held pset).length = 1 := ranked.length_eq
    rcases List.append_eq_singleton_iff.mp (List.perm_singleton.mp ranked.shares) with ⟨none, -⟩ | ⟨same, -⟩
    · rw [none] at length
      cases length
    · exact same
  refine ⟨pset, all, (psetPop_iff plainItems (.bump noItem) plainItems_agrees pset reached).mpr ⟨?_, ?_⟩⟩
  · rw [all]
    exact ⟨_, List.mem_cons_self, by decide⟩
  · rw [all]
    intro front k back shape one
    have member : k ∈ [ItemPtr.given 7 ⟨some 8, 5⟩] := shape ▸ List.mem_append_right front List.mem_cons_self
    rw [List.mem_singleton.mp member] at one
    exact absurd one (by decide)

/-- A new set gives back the candidate. -/
theorem newSet_not_pops : ∃ pset next, psetInit 4 0 noTable = .ok pset ∧
    psetPop plainItems pset = .ok (some .candidate, next) ∧ ¬ Pops plainItems pset := by
  rcases psetInit_ok plainItems (by decide : 4 ≤ wheelEnd) 0 noTable with ⟨pset, init, -⟩
  rcases psetInit_fits plainItems init with ⟨fits, empty⟩
  rcases fits.pop plainItems_agrees with ⟨next, popped, -⟩
  have none : best pset = .candidate := by
    rw [best, empty]
    rfl
  rw [none] at popped
  refine ⟨pset, next, init, popped, ?_⟩
  rintro ⟨res, final, ran, right⟩
  cases popped.symm.trans ran
  rw [if_pos empty] at right
  cases right.1

end MnCommon.PropertySet
