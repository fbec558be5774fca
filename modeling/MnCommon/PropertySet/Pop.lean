import MnCommon.Hash.Steps
import MnCommon.Hash.Sweep
import MnCommon.PropertySet.Wheel

/-! Taking the least item out of a property set. -/

namespace MnCommon.PropertySet

open Memory Hash

/-- The items of a set, in the order of `pset_traverse`. -/
def held (pset : Pset) : List ItemPtr := (itemsOf pset.d).map fun x => x.2.1

/-- What the traversal of `pset_pop` makes of one more item. -/
def lesser (k it : ItemPtr) : ItemPtr := if k.cmprop < it.cmprop then k else it

/-- What it makes of all items. -/
def leastOf : List ItemPtr → ItemPtr → ItemPtr
  | [], it => it
  | k :: rest, it => if (lesser k it).cmprop = 1 then lesser k it else leastOf rest (lesser k it)

/-- The traversal, which ends at the value one, does not end in front of a smaller value. -/
def Unhurried (items : List ItemPtr) : Prop :=
  ∀ front k back, items = front ++ k :: back → k.cmprop = 1 → (∀ l ∈ front, 1 ≤ l.cmprop) → ∀ l ∈ back, 1 ≤ l.cmprop

variable {cb : Callbacks ItemPtr Ptr} {system : Allocator (MnHashItem ItemPtr Ptr)} {s next : HashStore ItemPtr Ptr}
  {chains : Chains ItemPtr Ptr} {good : Nat → Prop} {items : List ItemPtr} {it k : ItemPtr} {p : Ptr}
  {xs : List (Entry ItemPtr Ptr)}

theorem lesser_eq (k it : ItemPtr) : lesser k it = k ∨ lesser k it = it := by
  rw [lesser]
  split
  · exact .inl rfl
  · exact .inr rfl

theorem lesser_cmprop (k it : ItemPtr) : (lesser k it).cmprop = min k.cmprop it.cmprop := by
  rw [lesser]
  split
  · omega
  · omega

theorem leastOf_mem (items : List ItemPtr) (it : ItemPtr) : leastOf items it = it ∨ leastOf items it ∈ items := by
  induction items generalizing it with
  | nil => exact .inl rfl
  | cons k rest ih =>
      have first : lesser k it = it ∨ lesser k it ∈ k :: rest := by
        rcases lesser_eq k it with same | same
        · rw [same]
          exact .inr List.mem_cons_self
        · exact .inl same
      rw [leastOf]
      split
      · exact first
      · rcases ih (lesser k it) with same | inside
        · rwa [same]
        · exact .inr (List.mem_cons_of_mem k inside)

theorem leastOf_le (items : List ItemPtr) (it : ItemPtr) : (leastOf items it).cmprop ≤ it.cmprop := by
  induction items generalizing it with
  | nil => exact le_refl _
  | cons k rest ih =>
      have first : (lesser k it).cmprop ≤ it.cmprop := (lesser_cmprop k it).trans_le (min_le_right _ _)
      rw [leastOf]
      split
      · exact first
      · exact (ih _).trans first

/-- Below one the traversal goes on to the end. -/
theorem leastOf_least_low (items : List ItemPtr) (it : ItemPtr) (low : it.cmprop < 1) :
    ∀ k ∈ items, (leastOf items it).cmprop ≤ k.cmprop := by
  induction items generalizing it with
  | nil => exact fun _ => nofun
  | cons k rest ih =>
      have least := lesser_cmprop k it
      have on : ¬ (lesser k it).cmprop = 1 := by omega
      rw [leastOf, if_neg on]
      intro l inside
      rcases List.mem_cons.mp inside with rfl | later
      · have first := leastOf_le rest (lesser l it)
        omega
      · exact ih _ (by omega) l later

theorem Unhurried.tail (unhurried : Unhurried (k :: items)) (here : 1 ≤ k.cmprop) : Unhurried items := by
  intro front m back shape value before
  have first : ∀ l ∈ k :: front, 1 ≤ l.cmprop := List.forall_mem_cons.mpr ⟨here, before⟩
  exact unhurried (k :: front) m back (by rw [shape, List.cons_append]) value first

theorem leastOf_least (items : List ItemPtr) (it : ItemPtr) (high : 1 < it.cmprop) (unhurried : Unhurried items) :
    ∀ k ∈ items, (leastOf items it).cmprop ≤ k.cmprop := by
  induction items generalizing it with
  | nil => exact fun _ => nofun
  | cons k rest ih =>
      have least := lesser_cmprop k it
      have first := leastOf_le rest (lesser k it)
      rw [leastOf]
      rw [List.forall_mem_cons]
      by_cases one : (lesser k it).cmprop = 1
      · rw [if_pos one]
        have value : k.cmprop = 1 := by omega
        refine ⟨by omega, fun l later => ?_⟩
        have behind := unhurried [] k rest rfl value nofun l later
        omega
      · rw [if_neg one]
        refine ⟨by omega, ?_⟩
        by_cases low : (lesser k it).cmprop < 1
        · exact leastOf_least_low rest _ low
        · exact ih _ (by omega) (unhurried.tail (by omega))

/-- Where the traversal ends early it answers an item with the value one. -/
theorem leastOf_early {front back : List ItemPtr} (it : ItemPtr) (high : 1 < it.cmprop) (one : k.cmprop = 1)
    (before : ∀ l ∈ front, 1 ≤ l.cmprop) : (leastOf (front ++ k :: back) it).cmprop = 1 := by
  induction front generalizing it with
  | nil =>
      have least := lesser_cmprop k it
      have reached : (lesser k it).cmprop = 1 := by omega
      rw [List.nil_append, leastOf, if_pos reached]
      exact reached
  | cons l front ih =>
      rcases List.forall_mem_cons.mp before with ⟨here, others⟩
      have least := lesser_cmprop l it
      rw [List.cons_append, leastOf]
      split
      next reached => exact reached
      next on => exact ih _ (by omega) others

/-- The item is the least one exactly when the traversal does not end too early. -/
theorem leastOf_least_iff (items : List ItemPtr) (it : ItemPtr) (high : 1 < it.cmprop) :
    (∀ k ∈ items, (leastOf items it).cmprop ≤ k.cmprop) ↔ Unhurried items := by
  constructor
  · rintro least front k back rfl one before l inside
    rw [← leastOf_early it high one before]
    exact least l (by simp [inside])
  · exact leastOf_least items it high

/-- The answers of the callback of `pset_pop`. -/
def mingen (it : ItemPtr) (x : Entry ItemPtr Ptr) : Int × ItemPtr :=
  (if (lesser x.2.1 it).cmprop = 1 then 1 else 0, lesser x.2.1 it)

theorem sweep_mingen (xs : List (Entry ItemPtr Ptr)) (it : ItemPtr) :
    (sweep mingen xs it).2 = leastOf (xs.map fun x => x.2.1) it := by
  induction xs generalizing it with
  | nil => rfl
  | cons x rest ih =>
      rw [sweep, List.map_cons, leastOf]
      by_cases one : (lesser x.2.1 it).cmprop = 1
      · have stop : (mingen it x).1 ≠ 0 := by simp [mingen, one]
        rw [if_pos stop, if_pos one]
        rfl
      · have on : ¬ (mingen it x).1 ≠ 0 := by simp [mingen, one]
        rw [if_neg on, if_neg one, ← ih]
        rfl

/-- The table of a set is in order, its loops end, and no two items are equal. -/
structure Fits (cb : Callbacks ItemPtr Ptr) (pset : Pset) : Prop where
  stored : ∃ chains good, Stored cb pset.d chains good
  small : pset.d.vars.table.length < 2 ^ 32
  apart : (held pset).Pairwise fun k l => cb.cmp k l ≠ 0

variable {pset after : Pset}

theorem onTable_ok {A : Type} {x : HashProg ItemPtr Ptr A} {a : A} (ran : x s = .ok (a, next)) :
    onTable x s = .ok (a, next) := by
  rw [onTable, ran]

theorem Fits.traverse (fits : Fits cb pset) :
    ∃ res, onTable (hashTraverse psetMingenFast .candidate) pset.d =
      .ok ((res, leastOf (held pset) .candidate), pset.d) := by
  rcases fits.stored with ⟨chains, good, stored⟩
  have answers : Answers (fun hit acc => do
      let n ← load hit
      psetMingenFast n.key n.value acc) mingen pset.d (allOf pset.d.vars.table.length chains) := by
    intro x inside it
    rcases mem_allOf.mp inside with ⟨i, low, there⟩
    rcases stored.cell low there with ⟨n, cell, pair⟩
    apply (bind_ok (load_ok cell) _).trans
    have key : n.key = x.2.1 := congrArg Prod.fst pair
    rw [psetMingenFast, key]
    rfl
  have swept := hashTraverseItem_sweep stored.toHolds fits.small answers .candidate
  refine ⟨(sweep mingen (allOf pset.d.vars.table.length chains) .candidate).1, onTable_ok ?_⟩
  rw [held, stored.items, ← sweep_mingen]
  exact swept

/-- Apart from each other, in whatever order. -/
theorem apart_perm (agrees : Agrees cb) {other : List ItemPtr} (same : items.Perm other)
    (apart : items.Pairwise fun k l => cb.cmp k l ≠ 0) : other.Pairwise fun k l => cb.cmp k l ≠ 0 := by
  apply (same.pairwise_iff _).mp apart
  intro k l different equal
  exact different (agrees.symm l k equal)

/-- No item of the set equals `it`, or a single one does. -/
theorem Fits.remove (fits : Fits cb pset) (agrees : Agrees cb) (it : ItemPtr) :
    ∃ value next, onTable (hashRemoveItem cb it) pset.d = .ok (value, next) ∧
      (∃ chains good, Stored cb next chains good) ∧ next.vars.table.length = pset.d.vars.table.length ∧
      (next = pset.d ∧ (∀ k ∈ held pset, cb.cmp it k ≠ 0) ∨ ∃ k, cb.cmp it k = 0 ∧
        (held pset).Perm (k :: (itemsOf next).map fun x => x.2.1)) := by
  rcases fits.stored with ⟨chains, good, stored⟩
  have low := place_lt cb stored.nonempty it
  cases search : visible cb pset.d.vars.table.length chains it with
  | none =>
      refine ⟨none, pset.d, onTable_ok (hashRemoveItem_none stored.toHolds it search), ⟨chains, good, stored⟩, rfl,
        .inl ⟨rfl, fun k inside equal => ?_⟩⟩
      rw [stored.visible_eq agrees, List.head?_eq_none_iff, shadowed, List.filter_eq_nil_iff] at search
      rcases List.mem_map.mp inside with ⟨x, member, rfl⟩
      exact search x member (decide_eq_true equal)
  | some x =>
      rcases hashRemoveItem_some stored.toHolds it search with ⟨next, front, back, run, shape, away, found, after, leaves⟩
      have dropped := stored.items_dropped low shape after leaves.length
      have counts : pset.d.vars.elnum - 1 + (chains (place cb pset.d.vars.table.length it)).length =
          pset.d.vars.elnum + (front ++ back).length := by
        have positive : 0 < pset.d.vars.elnum := by
          rw [stored.counts, ← stored.items, dropped.length_eq]
          exact Nat.succ_pos _
        rw [shape, List.length_append, List.length_append, List.length_cons]
        omega
      refine ⟨some x.2.2, next, onTable_ok run, ⟨_, _, stored.change low after leaves counts⟩, leaves.length,
        .inr ⟨x.2.1, of_decide_eq_true found, ?_⟩⟩
      exact dropped.map _

/-- The item that `pset_pop` answers. -/
def best (pset : Pset) : ItemPtr := leastOf (held pset) .candidate

/-- What a pop leaves, whatever the set is. -/
structure Popped (cb : Callbacks ItemPtr Ptr) (pset next : Pset) : Prop where
  fits : Fits cb next
  nleft : next.nleft = pset.nleft + 1
  minthresh : next.minthresh = pset.minthresh
  fastPopThresh : next.fastPopThresh =
    if pset.nleft + 1 ≤ 0 then max (best pset).cmprop pset.minthresh else pset.minthresh
  subset : ∀ k ∈ held next, k ∈ held pset
  taken : best pset ∈ held pset → (held pset).Perm (best pset :: held next)

theorem Fits.pop (fits : Fits cb pset) (agrees : Agrees cb) :
    ∃ next, psetPop cb pset = .ok (some (best pset), next) ∧ Popped cb pset next := by
  rcases fits.traverse with ⟨res, traversed⟩
  rcases fits.remove agrees (best pset) with ⟨value, d, removed, stored, length, changed⟩
  refine ⟨{ pset with
    nleft := pset.nleft + 1
    d := d
    fastPopThresh := if pset.nleft + 1 ≤ 0 then max (best pset).cmprop pset.minthresh else pset.minthresh }, ?_, ?_⟩
  · rw [psetPop, traversed]
    change (onTable (hashRemoveItem cb (best pset)) pset.d >>= _) = _
    rw [removed]
    rfl
  have small : d.vars.table.length < 2 ^ 32 := length ▸ fits.small
  rcases changed with ⟨rfl, none⟩ | ⟨k, equal, perm⟩
  · refine ⟨⟨stored, small, fits.apart⟩, rfl, rfl, rfl, fun k inside => inside, fun inside => ?_⟩
    exact absurd (agrees.refl _) (none _ inside)
  · have apart := apart_perm agrees perm fits.apart
    refine ⟨⟨stored, small, (List.pairwise_cons.mp apart).2⟩, rfl, rfl, rfl, fun l inside => ?_, fun inside => ?_⟩
    · exact perm.mem_iff.mpr (List.mem_cons_of_mem k inside)
    · have same : best pset = k := by
        rcases List.mem_cons.mp (perm.mem_iff.mp inside) with same | other
        · exact same
        · exact absurd (agrees.symm _ _ equal) ((List.pairwise_cons.mp apart).1 _ other)
      rw [same]
      exact perm

/-- Where some item is below the maximum one of the items is found. -/
theorem best_mem (some : ∃ k ∈ held pset, k.cmprop < cmMax) (unhurried : Unhurried (held pset)) :
    best pset ∈ held pset := by
  rcases some with ⟨k, inside, low⟩
  have least := leastOf_least (held pset) .candidate (by decide) unhurried k inside
  rcases leastOf_mem (held pset) .candidate with same | member
  · rw [same] at least
    exact absurd low (not_lt.mpr least)
  · exact member

/-- What `pset_get_item` tells of an item. -/
theorem Fits.getItem (fits : Fits cb pset) (agrees : Agrees cb) (it : ItemPtr) :
    ∃ dit, onTable (hashGetItem cb it) pset.d = .ok (dit, pset.d) ∧
      (dit = none ↔ ∀ k ∈ held pset, cb.cmp it k ≠ 0) := by
  rcases fits.stored with ⟨chains, good, stored⟩
  refine ⟨_, onTable_ok ((stored.shows agrees).finds it), ?_⟩
  rw [Option.map_eq_none_iff, List.head?_eq_none_iff, shadowed, List.filter_eq_nil_iff]
  constructor
  · intro none k inside equal
    rcases List.mem_map.mp inside with ⟨x, member, rfl⟩
    exact none x member (decide_eq_true equal)
  · intro none x member found
    exact none x.2.1 (List.mem_map_of_mem member) (of_decide_eq_true found)

variable (system) in
/-- An item that equals none in the set is added to it. -/
theorem Fits.setItem (fits : Fits cb pset) (agrees : Agrees cb) (new : ∀ k ∈ held pset, cb.cmp it k ≠ 0) (nleft : Int) :
    ∃ d, onTable (hashSetItem cb system it none) pset.d = .ok ((), d) ∧
      Fits cb { pset with nleft := nleft, d := d } ∧
      (held { pset with nleft := nleft, d := d }).Perm (it :: held pset) := by
  rcases fits.stored with ⟨chains, good, stored⟩
  have low := place_lt cb stored.nonempty it
  rcases hashSetItem_ok stored.toHolds system it none with ⟨a, d, run, fresh, after, leaves⟩
  have perm := (stored.items_pushed low after leaves.length).map fun x : Entry ItemPtr Ptr => x.2.1
  have counted := stored.change low after leaves (by rw [List.length_cons]; omega)
  refine ⟨d, onTable_ok run, ⟨⟨_, _, counted⟩, ?_, ?_⟩, perm⟩
  · exact leaves.length ▸ fits.small
  · exact apart_perm agrees perm.symm (List.pairwise_cons.mpr ⟨new, fits.apart⟩)

end MnCommon.PropertySet
