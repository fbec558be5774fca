import Mathlib.Order.ConditionallyCompleteLattice.Basic
import MnCommon.Hash.Sets

/-! Union, difference, symmetric difference and intersection of the keys. -/

namespace MnCommon.Hash

open Memory

variable {K V R : Type} {cb : Callbacks K V} {system : Allocator (MnHashItem K V)}
  {xs ys zs ts rs os front back : List (Entry K V)}
  {x : Entry K V} {h after : Heap (MnHashItem K V)} {t o res : MnHash K V} {k l : K}

theorem keysOf_nil : keysOf cb ([] : List (Entry K V)) = ∅ := by
  ext k
  simp [keysOf]

theorem mem_keysOf_cons : k ∈ keysOf cb (x :: xs) ↔ hit cb k x = true ∨ k ∈ keysOf cb xs := by
  simp only [keysOf, List.exists_mem_cons_iff, Set.mem_ofPred_eq]

theorem mem_keysOf_append : k ∈ keysOf cb (xs ++ ys) ↔ k ∈ keysOf cb xs ∨ k ∈ keysOf cb ys := by
  simp only [keysOf, List.mem_append, or_and_right, exists_or, Set.mem_ofPred_eq]

theorem mem_keysOf_snoc : k ∈ keysOf cb (front ++ [x]) ↔ k ∈ keysOf cb front ∨ hit cb k x = true := by
  rw [mem_keysOf_append, mem_keysOf_cons, keysOf_nil, Set.mem_empty_iff_false, or_false]

theorem keysOf_perm (perm : xs.Perm ys) : keysOf cb xs = keysOf cb ys := by
  ext k
  simp only [keysOf, perm.mem_iff]

/-- Keys that are equal are in a set together. -/
theorem Agrees.mem_keysOf (agrees : Agrees cb) (equal : cb.cmp k l = 0) (inside : l ∈ keysOf cb xs) :
    k ∈ keysOf cb xs := by
  rcases inside with ⟨x, there, same⟩
  exact ⟨x, there, decide_eq_true (agrees.trans k l x.2.1 equal (of_decide_eq_true same))⟩

/-- The keys that are equal to that of an item. -/
theorem Agrees.hit_iff (agrees : Agrees cb) (same : hit cb k x = true) : k ∈ keysOf cb xs ↔ x.2.1 ∈ keysOf cb xs := by
  have equal : cb.cmp k x.2.1 = 0 := of_decide_eq_true same
  exact ⟨agrees.mem_keysOf (agrees.symm _ _ equal), agrees.mem_keysOf equal⟩

theorem Distinct.perm (agrees : Agrees cb) (distinct : Distinct cb xs) (perm : ys.Perm xs) : Distinct cb ys := by
  have flip : ∀ x y : Entry K V, cb.cmp x.2.1 y.2.1 ≠ 0 → cb.cmp y.2.1 x.2.1 ≠ 0 := fun x y apart equal =>
    apart (agrees.symm _ _ equal)
  exact (perm.pairwise_iff (flip _ _)).mpr distinct

theorem Distinct.added (agrees : Agrees cb) (distinct : Distinct cb ys) (new : x.2.1 ∉ keysOf cb ys) {a : Addr}
    (perm : zs.Perm ((a, x.2) :: ys)) : Distinct cb zs := by
  apply Distinct.perm agrees _ perm
  exact List.pairwise_cons.mpr ⟨fun y inside equal => new ⟨y, inside, decide_eq_true equal⟩, distinct⟩

theorem mem_keysOf_added {a : Addr} (perm : zs.Perm ((a, x.2) :: ys)) :
    k ∈ keysOf cb zs ↔ hit cb k x = true ∨ k ∈ keysOf cb ys := by
  rw [keysOf_perm perm, mem_keysOf_cons]
  rfl

/-- An item of a set is not among those before it. -/
theorem Distinct.new (agrees : Agrees cb) (distinct : Distinct cb (front ++ x :: back)) : x.2.1 ∉ keysOf cb front := by
  rintro ⟨y, inside, same⟩
  have apart := (List.pairwise_append.mp distinct).2.2 y inside x List.mem_cons_self
  exact apart (agrees.symm _ _ (of_decide_eq_true same))

section Passes

variable {put : K → V → HashProg K V Unit}

/-- All keys of one table are put into the other, unless they are there. -/
theorem Lies.unite (lies : Lies cb h t ts) (filled : Lies cb h res rs) (apart : ∀ x ∈ ts, ∀ y ∈ rs, y.1 ≠ x.1)
    (agrees : Agrees cb) (puts : Puts cb put) (distinct : Distinct cb rs) (vars : R) (tick : Nat) :
    ∃ res' after tick', onTable t (hashTraverseItem (setCb cb id false put) res) ⟨h, vars, tick⟩ =
        (if t.table.length < 2 ^ 32 then .ok (((0, res'), t), ⟨after, vars, tick'⟩) else .error .outOfFuel) ∧
      (t.table.length < 2 ^ 32 → ∃ ys, Lies cb after res' ys ∧ Extends rs h after ys ∧
        keysOf cb ys = keysOf cb rs ∪ keysOf cb ts ∧ Distinct cb ys) := by
  have sees : ∀ after res ys, Extends rs h after ys → Lies cb after res ys → Lies cb after (id res) (id ys) :=
    fun _ _ _ _ lies => lies
  apply lies.pass (I := fun front ys => keysOf cb ys = keysOf cb rs ∪ keysOf cb front ∧ Distinct cb ys)
    filled apart agrees puts sees
  · exact ⟨by rw [keysOf_nil, Set.union_empty], distinct⟩
  · intro front x back ys _ ⟨keys, distinct⟩ decision
    have new : x.2.1 ∉ keysOf cb ys := fun inside => Bool.false_ne_true (decision.mp inside)
    refine ⟨new, fun a zs perm => ⟨?_, distinct.added agrees new perm⟩⟩
    ext k
    rw [mem_keysOf_added perm, keys, Set.mem_union, Set.mem_union, mem_keysOf_snoc]
    exact or_comm.trans or_assoc
  · intro front x back ys _ ⟨keys, distinct⟩ decision
    have old : x.2.1 ∈ keysOf cb ys := by
      by_contra new
      exact decision ⟨fun inside => absurd inside new, nofun⟩
    refine ⟨?_, distinct⟩
    ext k
    have same : hit cb k x = true → k ∈ keysOf cb ys := fun equal => (agrees.hit_iff equal).mpr old
    rw [keys, Set.mem_union] at same
    rw [keys, Set.mem_union, Set.mem_union, mem_keysOf_snoc, ← or_assoc]
    exact (or_iff_left_of_imp same).symm

/-- The keys of one table that are in another one, or those that are not, are put into a third one. -/
theorem Lies.select (lies : Lies cb h t ts) (filled : Lies cb h res rs) (apart : ∀ x ∈ ts, ∀ y ∈ rs, y.1 ≠ x.1)
    (agrees : Agrees cb) (puts : Puts cb put) (distinct : Distinct cb rs) (other : Lies cb h o os)
    (beside : ∀ x ∈ os, ∀ y ∈ rs, y.1 ≠ x.1) (single : Distinct cb ts) (found : Bool)
    (disjoint : ∀ x ∈ ts, (x.2.1 ∈ keysOf cb os ↔ found = true) → x.2.1 ∉ keysOf cb rs) (vars : R) (tick : Nat) :
    ∃ res' after tick', onTable t (hashTraverseItem (setCb cb (fun _ => o) found put) res) ⟨h, vars, tick⟩ =
        (if t.table.length < 2 ^ 32 then .ok (((0, res'), t), ⟨after, vars, tick'⟩) else .error .outOfFuel) ∧
      (t.table.length < 2 ^ 32 → ∃ ys, Lies cb after res' ys ∧ Extends rs h after ys ∧
        keysOf cb ys = keysOf cb rs ∪ {k | k ∈ keysOf cb ts ∧ (k ∈ keysOf cb os ↔ found = true)} ∧ Distinct cb ys) := by
  have sees : ∀ (after : Heap (MnHashItem K V)) (res : MnHash K V) ys, Extends rs h after ys →
      Lies cb after res ys → Lies cb after o os :=
    fun _ _ _ onward _ => (other.beside beside onward).1
  apply lies.pass (I := fun front ys => keysOf cb ys =
      keysOf cb rs ∪ {k | k ∈ keysOf cb front ∧ (k ∈ keysOf cb os ↔ found = true)} ∧ Distinct cb ys)
    filled apart agrees puts sees
  · refine ⟨?_, distinct⟩
    rw [keysOf_nil]
    simp only [Set.mem_empty_iff_false, false_and, Set.ofPred_false, Set.union_empty]
  · intro front x back ys shape ⟨keys, distinct'⟩ decision
    have there : x ∈ ts := shape ▸ List.mem_append_right _ List.mem_cons_self
    have new : x.2.1 ∉ keysOf cb ys := by
      rw [keys]
      rintro (old | ⟨before, -⟩)
      · exact disjoint x there decision old
      · exact Distinct.new agrees (shape ▸ single) before
    refine ⟨new, fun a zs perm => ⟨?_, distinct'.added agrees new perm⟩⟩
    ext k
    have same : hit cb k x = true → (k ∈ keysOf cb os ↔ found = true) := fun equal =>
      (agrees.hit_iff equal).trans decision
    rw [mem_keysOf_added perm, keys, Set.mem_union, Set.mem_union, Set.mem_ofPred_eq, Set.mem_ofPred_eq,
      mem_keysOf_snoc, or_and_right, and_iff_left_of_imp same]
    exact or_comm.trans or_assoc
  · intro front x back ys _ ⟨keys, distinct'⟩ decision
    refine ⟨?_, distinct'⟩
    ext k
    have same : hit cb k x = true → ¬ (k ∈ keysOf cb os ↔ found = true) := fun equal agree =>
      decision ((agrees.hit_iff equal).symm.trans agree)
    have neither : ¬ (hit cb k x = true ∧ (k ∈ keysOf cb os ↔ found = true)) := fun both => same both.1 both.2
    rw [keys, Set.mem_union, Set.mem_union, Set.mem_ofPred_eq, Set.mem_ofPred_eq, mem_keysOf_snoc, or_and_right,
      or_iff_left neither]

/-- The same into an empty table. -/
theorem Lies.choose (lies : Lies cb h t ts) (filled : Lies cb h res []) (agrees : Agrees cb) (puts : Puts cb put)
    (other : Lies cb h o os) (single : Distinct cb ts) (found : Bool) (vars : R) (tick : Nat) :
    ∃ res' after tick', onTable t (hashTraverseItem (setCb cb (fun _ => o) found put) res) ⟨h, vars, tick⟩ =
        (if t.table.length < 2 ^ 32 then .ok (((0, res'), t), ⟨after, vars, tick'⟩) else .error .outOfFuel) ∧
      (t.table.length < 2 ^ 32 → ∃ ys, Lies cb after res' ys ∧ Extends [] h after ys ∧
        keysOf cb ys = {k | k ∈ keysOf cb ts ∧ (k ∈ keysOf cb os ↔ found = true)} ∧ Distinct cb ys) := by
  have new : ∀ x ∈ ts, (x.2.1 ∈ keysOf cb os ↔ found = true) → x.2.1 ∉ keysOf cb [] := by
    intro x _ _
    rw [keysOf_nil]
    exact Set.notMem_empty _
  have made := lies.select filled (fun _ _ _ => nofun) agrees puts .nil other (fun _ _ _ => nofun) single found new vars
    tick
  rw [keysOf_nil] at made
  simp only [Set.empty_union] at made
  exact made

end Passes

/-- One of the tables in a memory. -/
def tableIn (s : SetStore K V) (t : MnHash K V) : HashStore K V := ⟨s.heap, t, s.tick⟩

/-- A table in which no key is twice. -/
structure IsSet (cb : Callbacks K V) (s : SetStore K V) (t : MnHash K V) : Prop where
  stored : ∃ chains good, Stored cb (tableIn s t) chains good
  distinct : Distinct cb (itemsOf (tableIn s t))

/-- The keys of a table, with all that are equal to them. -/
def keysIn (cb : Callbacks K V) (s : SetStore K V) (t : MnHash K V) : Set K := keysOf cb (itemsOf (tableIn s t))

/-- Neither the variables of the table nor its items have changed. -/
structure Unchanged (s next : SetStore K V) (t after : MnHash K V) : Prop where
  vars : after = t
  items : itemsOf (tableIn next t) = itemsOf (tableIn s t)
  records : ∀ x ∈ itemsOf (tableIn s t), next.heap.lookup x.1 = s.heap.lookup x.1

/-- The table is a set with these keys. -/
structure Becomes (cb : Callbacks K V) (next : SetStore K V) (res : MnHash K V) (keys : Set K) : Prop where
  set : IsSet cb next res
  keys : keysIn cb next res = keys
  elnum : res.elnum = (itemsOf (tableIn next res)).length

/-- The function puts these keys into the result and leaves the operands alone. -/
def Fills (cb : Callbacks K V) (s : SetStore K V) (a b : MnHash K V)
    (run : SetProg K V (MnHash K V × MnHash K V × MnHash K V)) (keys : Set K) : Prop :=
  ∃ res' a' b' next, run s = .ok ((res', a', b'), next) ∧ Becomes cb next res' keys ∧ Unchanged s next a a' ∧
    Unchanged s next b b'

/-- The set operations do what their names say. -/
structure SetAlgebra (cb : Callbacks K V) (system : Allocator (MnHashItem K V)) (s : SetStore K V)
    (res a b : MnHash K V) : Prop where
  union3 : Fills cb s a b (hashSetUnion3 cb system res a b) (keysIn cb s a ∪ keysIn cb s b)
  diff3 : Fills cb s a b (hashSetDiff3 cb system res a b) (keysIn cb s a \ keysIn cb s b)
  sdiff3 : Fills cb s a b (hashSetSdiff3 cb system res a b) (symmDiff (keysIn cb s a) (keysIn cb s b))
  intersect3 : Fills cb s a b (hashSetIntersect3 cb system res a b) (keysIn cb s a ∩ keysIn cb s b)
  union2 : ∃ a' b' next, hashSetUnion2 cb system a b s = .ok ((a', b'), next) ∧
    Becomes cb next a' (keysIn cb s a ∪ keysIn cb s b) ∧ Unchanged s next b b'

/-- Two sets that do not share an item, and an empty table for the result. -/
structure Operands (cb : Callbacks K V) (s : SetStore K V) (res a b : MnHash K V) : Prop where
  left : IsSet cb s a
  right : IsSet cb s b
  result : IsSet cb s res
  empty : itemsOf (tableIn s res) = []
  apart : ∀ x ∈ itemsOf (tableIn s a), ∀ y ∈ itemsOf (tableIn s b), x.1 ≠ y.1

variable {s next : SetStore K V} {a b : MnHash K V} {as bs : List (Entry K V)}

theorem IsSet.lies (set : IsSet cb s t) : Lies cb s.heap t (itemsOf (tableIn s t)) := by
  rcases set.stored with ⟨chains, good, stored⟩
  rw [stored.items]
  exact stored.lies

theorem Lies.becomes (lies : Lies cb next.heap t ys) (distinct : Distinct cb ys) {keys : Set K}
    (same : keysOf cb ys = keys) : Becomes cb next t keys := by
  have here : Lies cb (tableIn next t).heap (tableIn next t).vars ys := lies
  rcases here.stored with ⟨chains, good, stored, -⟩
  refine ⟨⟨⟨chains, good, stored⟩, ?_⟩, ?_, ?_⟩
  · rw [here.items]
    exact distinct
  · rw [keysIn, here.items, same]
  · rw [here.items, lies.elnum]

theorem Lies.unchanged (lies : Lies cb s.heap t ts) (apart : ∀ x ∈ ts, ∀ y ∈ rs, y.1 ≠ x.1)
    (onward : Extends rs s.heap next.heap ys) : Unchanged s next t t := by
  rcases lies.beside apart onward with ⟨after, same⟩
  have here : Lies cb (tableIn s t).heap (tableIn s t).vars ts := lies
  have there : Lies cb (tableIn next t).heap (tableIn next t).vars ts := after
  refine ⟨rfl, ?_, ?_⟩
  · rw [here.items, there.items]
  · rw [here.items]
    exact same

/-- What has been added to one table is not in another one. -/
theorem Lies.apart (lies : Lies cb h t ts) (apart : ∀ x ∈ ts, ∀ y ∈ rs, y.1 ≠ x.1) (onward : Extends rs h after ys) :
    ∀ x ∈ ts, ∀ y ∈ ys, y.1 ≠ x.1 := by
  intro x inside y there same
  rcases onward.fresh y there with ⟨z, old, equal⟩ | unused
  · exact apart x inside z old (equal.trans same)
  · rcases lies.cell inside with ⟨n, cell, -⟩
    rw [same, cell] at unused
    cases unused

/-- An empty table shares no item with another one. -/
theorem apart_nil (ts : List (Entry K V)) : ∀ x ∈ ts, ∀ y ∈ ([] : List (Entry K V)), y.1 ≠ x.1 := fun _ _ => nofun

theorem Operands.filled (operands : Operands cb s res a b) : Lies cb s.heap res [] := by
  have filled := operands.result.lies
  rwa [operands.empty] at filled

theorem Operands.beside (operands : Operands cb s res a b) :
    ∀ x ∈ itemsOf (tableIn s b), ∀ y ∈ itemsOf (tableIn s a), y.1 ≠ x.1 := fun x inside y there =>
  operands.apart y there x inside

/-- The result of passes that only add to the empty table. -/
theorem Operands.fills (operands : Operands cb s res a b) {run : SetProg K V (MnHash K V × MnHash K V × MnHash K V)}
    (ran : run s = .ok ((t, a, b), next)) (lies : Lies cb next.heap t ys) (distinct : Distinct cb ys)
    (onward : Extends [] s.heap next.heap ys) {keys : Set K} (same : keysOf cb ys = keys) :
    Fills cb s a b run keys := by
  have left := operands.left.lies.unchanged (apart_nil _) onward
  have right := operands.right.lies.unchanged (apart_nil _) onward
  exact ⟨t, a, b, next, ran, lies.becomes distinct same, left, right⟩

section Operations

variable (operands : Operands cb s res a b) (agrees : Agrees cb)

include operands agrees

/-- What one pass over the first operand puts into the result. -/
theorem Operands.selected (system : Allocator (MnHashItem K V)) (found : Bool) (small : a.table.length < 2 ^ 32) :
    ∃ res' next ys,
      onTable a (hashTraverseItem (setCb cb (fun _ => b) found (hashSetItem cb system)) res) s =
        .ok (((0, res'), a), next) ∧
      Lies cb next.heap res' ys ∧ Extends [] s.heap next.heap ys ∧ Distinct cb ys ∧
      keysOf cb ys = {k | k ∈ keysIn cb s a ∧ (k ∈ keysIn cb s b ↔ found = true)} := by
  rcases operands.left.lies.choose operands.filled agrees (hashSetItem_puts cb system) operands.right.lies
    operands.left.distinct found () s.tick with ⟨res', after, tick, run, made⟩
  rw [if_pos small] at run
  rcases made small with ⟨ys, lies, onward, keys, distinct⟩
  exact ⟨res', ⟨after, (), tick⟩, ys, run, lies, onward, distinct, keys⟩

theorem Operands.diff3 (small : a.table.length < 2 ^ 32) :
    Fills cb s a b (hashSetDiff3 cb system res a b) (keysIn cb s a \ keysIn cb s b) := by
  rcases operands.selected agrees system false small with ⟨res', next, ys, run, lies, onward, distinct, keys⟩
  have ran : hashSetDiff3 cb system res a b s = .ok ((res', a, b), next) := by
    rw [hashSetDiff3]
    exact bind_ok run _
  apply operands.fills ran lies distinct onward
  rw [keys]
  ext k
  simp only [Bool.false_eq_true, iff_false]
  rfl

theorem Operands.intersect3 (small : a.table.length < 2 ^ 32) :
    Fills cb s a b (hashSetIntersect3 cb system res a b) (keysIn cb s a ∩ keysIn cb s b) := by
  rcases operands.selected agrees system true small with ⟨res', next, ys, run, lies, onward, distinct, keys⟩
  have ran : hashSetIntersect3 cb system res a b s = .ok ((res', a, b), next) := by
    rw [hashSetIntersect3]
    exact bind_ok run _
  apply operands.fills ran lies distinct onward
  rw [keys]
  ext k
  simp only [iff_true]
  rfl

/-- The second pass finds the other operand where it was. -/
theorem Operands.union3 (small : a.table.length < 2 ^ 32) (small' : b.table.length < 2 ^ 32) :
    Fills cb s a b (hashSetUnion3 cb system res a b) (keysIn cb s a ∪ keysIn cb s b) := by
  have puts := hashSetItem_puts cb system
  rcases operands.left.lies.unite operands.filled (apart_nil _) agrees puts .nil () s.tick with
    ⟨mid, between, tick, run, made⟩
  rw [if_pos small] at run
  rcases made small with ⟨ys, lies, onward, keys, distinct⟩
  rcases operands.right.lies.beside (apart_nil _) onward with ⟨right, -⟩
  have apart := operands.right.lies.apart (apart_nil _) onward
  rcases right.unite lies apart agrees puts distinct () tick with ⟨res', after, tick', run', made'⟩
  rw [if_pos small'] at run'
  rcases made' small' with ⟨zs, lies', onward', keys', distinct'⟩
  have ran : hashSetUnion3 cb system res a b s = .ok ((res', a, b), ⟨after, (), tick'⟩) := by
    rw [hashSetUnion3]
    exact (bind_ok run _).trans (bind_ok run' _)
  apply operands.fills ran lies' distinct' (onward.trans onward')
  rw [keys', keys, keysOf_nil, Set.empty_union]
  rfl

/-- The second pass puts in keys that the first one cannot have put in. -/
theorem Operands.sdiff3 (small : a.table.length < 2 ^ 32) (small' : b.table.length < 2 ^ 32) :
    Fills cb s a b (hashSetSdiff3 cb system res a b) (symmDiff (keysIn cb s a) (keysIn cb s b)) := by
  rcases operands.selected agrees system false small with ⟨mid, between, ys, run, lies, onward, distinct, keys⟩
  rcases operands.left.lies.beside (apart_nil _) onward with ⟨left, -⟩
  rcases operands.right.lies.beside (apart_nil _) onward with ⟨right, -⟩
  have leftApart := operands.left.lies.apart (apart_nil _) onward
  have rightApart := operands.right.lies.apart (apart_nil _) onward
  have disjoint : ∀ x ∈ itemsOf (tableIn s b), (x.2.1 ∈ keysOf cb (itemsOf (tableIn s a)) ↔ false = true) →
      x.2.1 ∉ keysOf cb ys := by
    intro x _ other inside
    rw [keys] at inside
    exact Bool.false_ne_true (other.mp inside.1)
  rcases right.select lies rightApart agrees (setItemUniq_puts cb system) distinct left leftApart
    operands.right.distinct false disjoint () between.tick with ⟨res', after, tick', run', made'⟩
  rw [if_pos small'] at run'
  rcases made' small' with ⟨zs, lies', onward', keys', distinct'⟩
  have ran : hashSetSdiff3 cb system res a b s = .ok ((res', a, b), ⟨after, (), tick'⟩) := by
    rw [hashSetSdiff3]
    exact (bind_ok run _).trans (bind_ok run' _)
  apply operands.fills ran lies' distinct' (onward.trans onward')
  rw [keys', keys]
  ext k
  simp only [Bool.false_eq_true, iff_false]
  rfl

theorem Operands.union2 (small : b.table.length < 2 ^ 32) :
    ∃ a' b' next, hashSetUnion2 cb system a b s = .ok ((a', b'), next) ∧
      Becomes cb next a' (keysIn cb s a ∪ keysIn cb s b) ∧ Unchanged s next b b' := by
  rcases operands.right.lies.unite operands.left.lies operands.beside agrees (hashSetItem_puts cb system)
    operands.left.distinct () s.tick with ⟨a', after, tick, run, made⟩
  rw [if_pos small] at run
  rcases made small with ⟨ys, lies, onward, keys, distinct⟩
  let next : SetStore K V := ⟨after, (), tick⟩
  have lies' : Lies cb next.heap a' ys := lies
  have onward' : Extends _ s.heap next.heap ys := onward
  refine ⟨a', b, next, ?_, lies'.becomes distinct keys, operands.right.lies.unchanged operands.beside onward'⟩
  rw [hashSetUnion2]
  exact bind_ok run _

/-- A pass over a table with too many slots for the index of the traversal never ends. -/
theorem Operands.small_of_diff3 {out : MnHash K V × MnHash K V × MnHash K V}
    (run : hashSetDiff3 cb system res a b s = .ok (out, next)) : a.table.length < 2 ^ 32 := by
  by_contra large
  rcases operands.left.lies.choose operands.filled agrees (hashSetItem_puts cb system) operands.right.lies
    operands.left.distinct false () s.tick with ⟨res', after, tick, endless, -⟩
  rw [if_neg large] at endless
  rw [hashSetDiff3, run_bind] at run
  have failed : onTable a (hashTraverseItem (hashSetDiff3Cb cb system b) res) s = .error .outOfFuel := endless
  rw [failed] at run
  cases run

theorem Operands.small_of_union2 {out : MnHash K V × MnHash K V}
    (run : hashSetUnion2 cb system a b s = .ok (out, next)) : b.table.length < 2 ^ 32 := by
  by_contra large
  rcases operands.right.lies.unite operands.left.lies operands.beside agrees (hashSetItem_puts cb system)
    operands.left.distinct () s.tick with ⟨a', after, tick, endless, -⟩
  rw [if_neg large] at endless
  rw [hashSetUnion2, run_bind] at run
  have failed : onTable b (hashTraverseItem (hashSetUnion2Cb cb system) a) s = .error .outOfFuel := endless
  rw [failed] at run
  cases run

end Operations

/-- A new table in any memory. -/
theorem newTable_lies (cb : Callbacks UInt64 UInt64) {sz : Nat} (positive : 0 < sz)
    (h : Heap (MnHashItem UInt64 UInt64)) : Lies cb h (newTable sz).vars [] := by
  have nothing : allOf (newTable sz).vars.table.length (fun _ => ([] : List (Entry UInt64 UInt64))) = [] :=
    List.flatMap_eq_nil_iff.mpr fun _ _ => rfl
  refine ⟨fun _ => [], fun _ => True, ⟨holds_cleared cb positive rfl, ?_⟩, nothing⟩
  rw [nothing]
  rfl

theorem Lies.isSet (lies : Lies cb s.heap t ys) (distinct : Distinct cb ys) : IsSet cb s t :=
  (lies.becomes distinct rfl).set

end MnCommon.Hash
