import MnCommon.Memory.Run
import MnCommon.PropertySet.Pop

/-! A property set keeps the items with the largest properties. -/

namespace MnCommon.PropertySet

open Memory Hash

variable {cb : Callbacks ItemPtr Ptr} {system : Allocator (MnHashItem ItemPtr Ptr)} {pset next : Pset}
  {items offered : List ItemPtr} {it k : ItemPtr} {capacity : Nat} {minthresh : Int}

/-- The items that pushes have answered: those that were refused or had to go. -/
def outs (results : List (Option ItemPtr)) : List ItemPtr := results.filterMap id

/-- What the pushes so far have come to. Up to the first answer there is room. -/
structure Ranked (cb : Callbacks ItemPtr Ptr) (capacity : Nat) (minthresh : Int) (offered gone : List ItemPtr)
    (pset : Pset) : Prop where
  fits : Fits cb pset
  shares : (held pset ++ gone).Perm offered
  counts : pset.nleft + (held pset).length = capacity
  left : 0 ≤ pset.nleft
  minthresh_eq : pset.minthresh = minthresh
  full : gone ≠ [] → pset.nleft = 0
  roomy : 0 < pset.nleft → pset.fastPopThresh = minthresh
  floor : minthresh ≤ pset.fastPopThresh
  below : ∀ k ∈ gone, k.cmprop ≤ pset.fastPopThresh
  above : ∀ k ∈ held pset, pset.fastPopThresh ≤ k.cmprop

/-- A property that pushes may have. -/
def Admitted (minthresh : Int) (it : ItemPtr) : Prop := minthresh < it.cmprop ∧ it.cmprop < cmMax

/-- A new set is empty. -/
theorem psetInit_fits (cb : Callbacks ItemPtr Ptr) {thresh : Int} {d : HashStore ItemPtr Ptr} (init : psetInit thresh minthresh d = .ok pset) :
    Fits cb pset ∧ held pset = [] := by
  rcases Memory.of_bind_ok init with ⟨sz, found, table⟩
  rcases wheel_ok (le_of_wheel found) with ⟨q, same, least, most⟩
  obtain rfl : q = sz := Except.ok.inj (same.symm.trans found)
  rcases hashInit_ok cb (Nat.lt_of_lt_of_le (by decide) least) d with ⟨next, init, stored, -⟩
  rw [onTable_ok init] at table
  have none : (itemsOf next).map (fun x => x.2.1) = [] := by
    rw [stored.items, allOf, List.flatMap_eq_nil_iff.mpr fun _ _ => rfl]
    rfl
  have length : next.vars.table.length = q := by
    cases init
    exact List.length_replicate
  have small : next.vars.table.length < 2 ^ 32 := by
    simp only [wheelEnd] at most
    omega
  cases table
  refine ⟨⟨⟨_, _, stored⟩, small, ?_⟩, none⟩
  rw [held, none]
  exact .nil

theorem psetInit_ok (cb : Callbacks ItemPtr Ptr) (few : capacity ≤ wheelEnd) (minthresh : Int)
    (d : HashStore ItemPtr Ptr) :
    ∃ pset, psetInit capacity minthresh d = .ok pset ∧ Ranked cb capacity minthresh [] [] pset := by
  have size : ((capacity : Int) % 2 ^ 64).toNat = capacity := by
    simp only [wheelEnd] at few
    omega
  rcases wheel_ok few with ⟨sz, found, -⟩
  have init : psetInit capacity minthresh d = .ok ⟨capacity, ⟨d.heap, ⟨d.vars.data + 1, List.replicate sz none, 0, []⟩,
      d.tick⟩, minthresh, minthresh⟩ := by
    simp only [psetInit, size, found, bind, Except.bind]
    rfl
  rcases psetInit_fits cb init with ⟨fits, none⟩
  refine ⟨_, init, fits, ?_, ?_, Int.natCast_nonneg _, rfl, fun wrong => absurd rfl wrong, fun _ => rfl, le_refl _,
    fun _ => by simp, ?_⟩
  · rw [none]
    exact .nil
  · rw [none]
    exact Int.add_zero _
  · rw [none]
    exact fun _ => by simp

/-- A set without room gives back its least item. -/
theorem Fits.evict {gone : List ItemPtr} (fits : Fits cb pset) (agrees : Agrees cb) (positive : 0 ≤ minthresh)
    (admitted : ∀ k ∈ held pset, Admitted minthresh k) (filled : held pset ≠ []) (minthresh_eq : pset.minthresh = minthresh)
    (shares : (held pset ++ gone).Perm offered) (nleft : pset.nleft = -1) (counts : (held pset).length = capacity + 1)
    (below : ∀ k ∈ gone, ∀ l ∈ held pset, k.cmprop ≤ l.cmprop) :
    ∃ it next, psetPop cb pset = .ok (some it, next) ∧ Ranked cb capacity minthresh offered (it :: gone) next := by
  have unhurried : Unhurried (held pset) := by
    intro front k back shape _ _ l member
    have value := (admitted l (by simp [shape, member])).1
    omega
  rcases List.exists_mem_of_ne_nil _ filled with ⟨k, member⟩
  have taken := best_mem ⟨k, member, (admitted k member).2⟩ unhurried
  have least : ∀ k ∈ held pset, (best pset).cmprop ≤ k.cmprop :=
    leastOf_least (held pset) .candidate (by decide) unhurried
  have above := (admitted _ taken).1
  rcases fits.pop agrees with ⟨next, popped, after⟩
  have fast : next.fastPopThresh = (best pset).cmprop := by
    rw [after.fastPopThresh, nleft, minthresh_eq, if_pos (by decide)]
    exact max_eq_left above.le
  have split := after.taken taken
  have shorter := split.length_eq
  rw [List.length_cons, counts] at shorter
  have room := after.nleft
  refine ⟨best pset, next, popped, after.fits, ?_, by omega, by omega, after.minthresh.trans minthresh_eq,
    fun _ => by omega, fun left => by omega, ?_, ?_, ?_⟩
  · exact List.perm_middle.trans ((split.symm.append_right gone).trans shares)
  · rw [fast]
    exact above.le
  · rw [fast]
    exact List.forall_mem_cons.mpr ⟨le_refl _, fun k member => below k member _ taken⟩
  · rw [fast]
    exact fun k member => least k (after.subset k member)

variable (system) in
/-- What the set takes and what it gives back when one item more is offered. -/
theorem Ranked.push {gone : List ItemPtr} (ranked : Ranked cb capacity minthresh offered gone pset)
    (agrees : Agrees cb) (positive : 0 ≤ minthresh) (admitted : ∀ k ∈ it :: offered, Admitted minthresh k)
    (new : ∀ k ∈ offered, cb.cmp it k ≠ 0) :
    ∃ res next, psetPush cb system pset it = .ok (res, next) ∧
      Ranked cb capacity minthresh (it :: offered) (res.toList ++ gone) next := by
  have inside : ∀ k ∈ held pset, k ∈ offered := fun k member =>
    ranked.shares.subset (List.mem_append_left gone member)
  have left := ranked.left
  have counts := ranked.counts
  by_cases low : it.cmprop ≤ pset.fastPopThresh
  · -- an item is refused only when the set is full
    have full : pset.nleft = 0 := by
      by_contra room
      have fast := ranked.roomy (by omega)
      have above := (admitted it List.mem_cons_self).1
      omega
    refine ⟨some it, pset, if_pos low, { ranked with shares := ?_, full := fun _ => full, below := ?_ }⟩
    · exact List.perm_middle.trans (ranked.shares.cons it)
    · exact List.forall_mem_cons.mpr ⟨low, ranked.below⟩
  have unseen : ∀ k ∈ held pset, cb.cmp it k ≠ 0 := fun k member => new k (inside k member)
  rcases ranked.fits.getItem agrees it with ⟨dit, got, absent⟩
  obtain rfl : dit = none := absent.mpr unseen
  rcases ranked.fits.setItem system agrees unseen (pset.nleft - 1) with ⟨d, set, fits, perm⟩
  have pushed : psetPush cb system pset it =
      if pset.nleft - 1 < 0 then psetPop cb { pset with nleft := pset.nleft - 1, d := d }
      else .ok (none, { pset with nleft := pset.nleft - 1, d := d }) := by
    rw [psetPush, if_neg low]
    simp only [got, set, bind, Except.bind, if_true]
    rfl
  have members : ∀ k ∈ held { pset with nleft := pset.nleft - 1, d := d }, k = it ∨ k ∈ held pset := fun k member =>
    List.mem_cons.mp (perm.subset member)
  have shares : (held { pset with nleft := pset.nleft - 1, d := d } ++ gone).Perm (it :: offered) :=
    (perm.append_right gone).trans (ranked.shares.cons it)
  have length := perm.length_eq
  rw [List.length_cons] at length
  have above : ∀ k ∈ held { pset with nleft := pset.nleft - 1, d := d }, pset.fastPopThresh ≤ k.cmprop := by
    intro k member
    rcases members k member with rfl | old
    · omega
    · exact ranked.above k old
  by_cases room : pset.nleft - 1 < 0
  · rw [if_pos room] at pushed
    have values : ∀ k ∈ held { pset with nleft := pset.nleft - 1, d := d }, Admitted minthresh k := by
      intro k member
      rcases members k member with rfl | old
      · exact admitted k List.mem_cons_self
      · exact admitted k (List.mem_cons_of_mem it (inside k old))
    have mine := perm.mem_iff.mpr List.mem_cons_self
    have none : pset.nleft - 1 = -1 := by omega
    have full : (held { pset with nleft := pset.nleft - 1, d := d }).length = capacity + 1 := by omega
    rcases fits.evict agrees positive values (List.ne_nil_of_mem mine) ranked.minthresh_eq shares none
      full (fun k member l other => (ranked.below k member).trans (above l other)) with
      ⟨out, next, popped, after⟩
    exact ⟨some out, next, pushed.trans popped, after⟩
  · rw [if_neg room] at pushed
    refine ⟨none, _, pushed, fits, shares, ?_, not_lt.mp room, ranked.minthresh_eq, fun answered => ?_, fun room => ?_,
      ranked.floor, ranked.below, above⟩
    · change pset.nleft - 1 + _ = _
      omega
    · have empty := ranked.full answered
      omega
    · apply ranked.roomy
      change 0 < pset.nleft - 1 at room
      omega

variable (system) in
/-- A sequence of pushes of items that are apart from each other. -/
theorem Ranked.pushes {gone : List ItemPtr} (ranked : Ranked cb capacity minthresh offered gone pset)
    (agrees : Agrees cb) (positive : 0 ≤ minthresh) (admitted : ∀ k ∈ items ++ offered, Admitted minthresh k)
    (apart : items.Pairwise fun k l => cb.cmp k l ≠ 0) (new : ∀ k ∈ items, ∀ l ∈ offered, cb.cmp k l ≠ 0) :
    ∃ results next, psetPushes cb system pset items = .ok (results, next) ∧
      Ranked cb capacity minthresh (items.reverse ++ offered) ((outs results).reverse ++ gone) next := by
  induction items generalizing pset offered gone with
  | nil => exact ⟨[], pset, rfl, ranked⟩
  | cons it items ih =>
      rcases List.pairwise_cons.mp apart with ⟨others, apart⟩
      rcases ranked.push system agrees positive
        (fun k member => admitted k (by simp only [List.mem_cons, List.mem_append] at member ⊢; tauto))
        (new it List.mem_cons_self) with ⟨res, middle, pushed, after⟩
      have further : ∀ k ∈ items, ∀ l ∈ it :: offered, cb.cmp k l ≠ 0 := by
        intro k member
        refine List.forall_mem_cons.mpr ⟨fun equal => ?_, new k (List.mem_cons_of_mem it member)⟩
        exact others k member (agrees.symm k it equal)
      rcases ih after (fun k member => admitted k (by simp only [List.mem_cons, List.mem_append] at member ⊢; tauto))
        apart further with ⟨results, next, ran, final⟩
      refine ⟨res :: results, next, ?_, ?_⟩
      · simp only [psetPushes, pushed, ran, bind, Except.bind]
        rfl
      · rw [List.reverse_cons, List.append_assoc, List.singleton_append]
        cases res with
        | none => exact final
        | some it =>
            have all : (outs (some it :: results)).reverse ++ gone = (outs results).reverse ++ (it :: gone) := by
              simp [outs]
            rw [all]
            exact final

/-- Free places are left only while nothing has gone. -/
theorem Ranked.length_eq {gone : List ItemPtr} (ranked : Ranked cb capacity minthresh offered gone pset) :
    (held pset).length = min offered.length capacity := by
  have shares := ranked.shares.length_eq
  have counts := ranked.counts
  have left := ranked.left
  rw [List.length_append] at shares
  by_cases none : gone = []
  · rw [none, List.length_nil] at shares
    omega
  · have full := ranked.full none
    have some := List.length_pos_iff.mpr none
    omega

/-- The set holds as many items as it can, those with the largest properties, and
counts its free places. -/
def KeepsTop (capacity : Nat) : Prop :=
  ∀ (cb : Callbacks ItemPtr Ptr) (system : Allocator (MnHashItem ItemPtr Ptr)) (d : HashStore ItemPtr Ptr)
    (minthresh : Int) (items : List ItemPtr), Agrees cb → 0 ≤ minthresh → (∀ it ∈ items, Admitted minthresh it) →
    items.Pairwise (fun k l => cb.cmp k l ≠ 0) →
    ∃ pset results final, psetInit capacity minthresh d = .ok pset ∧
      psetPushes cb system pset items = .ok (results, final) ∧ (held final ++ outs results).Perm items ∧
      (held final).length = min items.length capacity ∧ final.nleft + (held final).length = capacity ∧
      ∀ k ∈ outs results, ∀ l ∈ held final, k.cmprop ≤ l.cmprop

theorem keepsTop_of_few (few : capacity ≤ wheelEnd) : KeepsTop capacity := by
  intro cb system d minthresh items agrees positive admitted apart
  rcases psetInit_ok cb few minthresh d with ⟨pset, init, first⟩
  have all : ∀ k ∈ items ++ [], Admitted minthresh k := by rwa [List.append_nil]
  have new : ∀ k ∈ items, ∀ l ∈ ([] : List ItemPtr), cb.cmp k l ≠ 0 := fun _ _ _ => nofun
  rcases first.pushes system agrees positive all apart new with ⟨results, final, ran, ranked⟩
  rw [List.append_nil, List.append_nil] at ranked
  have length := ranked.length_eq
  rw [List.length_reverse] at length
  refine ⟨pset, results, final, init, ran, ?_, length, ranked.counts, fun k gone l member => ?_⟩
  · have perm := ranked.shares.trans items.reverse_perm
    exact ((outs results).reverse_perm.symm.append_left _).trans perm
  · exact (ranked.below k (List.mem_reverse.mpr gone)).trans (ranked.above l member)

/-- Items are equal when they are the same. -/
def plainItems : Callbacks ItemPtr Ptr := ⟨fun _ => 0, fun k l => if k = l then 0 else 1, none⟩

theorem plainItems_agrees : Agrees plainItems := by
  have same : ∀ k l, plainItems.cmp k l = 0 → k = l := by
    intro k l equal
    by_contra different
    have one : plainItems.cmp k l = 1 := if_neg different
    rw [one] at equal
    exact absurd equal (by decide)
  refine ⟨fun k => if_pos rfl, fun k l equal => ?_, fun k l m first second => ?_, fun k l equal => rfl⟩
  · exact if_pos (same k l equal).symm
  · exact if_pos ((same k l first).trans (same l m second))

/-- A record as the allocator may hand it out. -/
def noItem : MnHashItem ItemPtr Ptr := ⟨none, none, none, .candidate, none⟩

/-- A table that nothing has set up. -/
def noTable : HashStore ItemPtr Ptr := ⟨∅, ⟨0, [], 0, []⟩, 0⟩

/-- A set that is made at all has found the size of its table. -/
theorem not_keepsTop (bounded : capacity < 2 ^ 63) (many : wheelEnd < capacity) : ¬ KeepsTop capacity := by
  intro keeps
  rcases keeps plainItems (.bump noItem) noTable 0 [] plainItems_agrees (le_refl 0) (fun _ => nofun) .nil with
    ⟨pset, results, final, init, -⟩
  rcases Memory.of_bind_ok init with ⟨sz, found, -⟩
  have size : ((capacity : Int) % 2 ^ 64).toNat = capacity := by omega
  rw [size] at found
  exact absurd (le_of_wheel found) (not_le.mpr many)

/-- A set keeps what it promises exactly when its capacity is not beyond the last
prime that the index of the search for one, an `int`, can reach. -/
theorem keepsTop_iff (capacity : Nat) (bounded : capacity < 2 ^ 63) : KeepsTop capacity ↔ capacity ≤ wheelEnd := by
  constructor
  · intro keeps
    by_contra many
    exact not_keepsTop bounded (not_le.mp many) keeps
  · exact keepsTop_of_few

theorem keepsTop_two : KeepsTop 2 := (keepsTop_iff 2 (by decide)).mpr (by decide)

theorem not_keepsTop_large : ¬ KeepsTop 2147483640 := not_keepsTop (by decide) (by decide)

end MnCommon.PropertySet
