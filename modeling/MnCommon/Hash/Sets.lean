import Mathlib.Order.SymmDiff
import MnCommon.Hash.Deletion

/-! The operations that fill one table from the keys of others. -/

namespace MnCommon.Hash

open Memory

variable {K V B R : Type}

/-- A program on one of the tables in a memory. -/
def onTable (t : MnHash K V) (x : HashProg K V B) : Prog (MnHashItem K V) R (B × MnHash K V) := fun s =>
  match x ⟨s.heap, t, s.tick⟩ with
  | .error fault => .error fault
  | .ok (b, next) => .ok ((b, next.vars), ⟨next.heap, s.vars, next.tick⟩)

/-- The callbacks of the set operations look a key up in one table. If it is there, or if it is not, they
put the item into `res`. -/
def setCb (cb : Callbacks K V) (look : MnHash K V → MnHash K V) (found : Bool) (put : K → V → HashProg K V Unit)
    (hit : Ptr) (res : MnHash K V) : HashProg K V (Int × MnHash K V) := do
  let n ← load hit
  let (p, _) ← onTable (look res) (hashGetItem cb n.key)
  if p.isSome = found then
    let (_, res) ← onTable res (put n.key n.value)
    return (0, res)
  else
    return (0, res)

variable (cb : Callbacks K V) (system : Allocator (MnHashItem K V))

def hashSetUnion2Cb : Ptr → MnHash K V → HashProg K V (Int × MnHash K V) := setCb cb id false (hashSetItem cb system)

def hashSetUnion3Cb : Ptr → MnHash K V → HashProg K V (Int × MnHash K V) := setCb cb id false (hashSetItem cb system)

def hashSetDiff3Cb (b : MnHash K V) : Ptr → MnHash K V → HashProg K V (Int × MnHash K V) :=
  setCb cb (fun _ => b) false (hashSetItem cb system)

/-- `oldkey` and `oldvalue` are not used. -/
def setItemUniq (key : K) (value : V) : HashProg K V Unit := do
  let _ ← hashSetItemUniq cb system key value

def hashSetSdiff3Cb (a : MnHash K V) : Ptr → MnHash K V → HashProg K V (Int × MnHash K V) :=
  setCb cb (fun _ => a) false (setItemUniq cb system)

def hashSetIntersect3Cb (b : MnHash K V) : Ptr → MnHash K V → HashProg K V (Int × MnHash K V) :=
  setCb cb (fun _ => b) true (hashSetItem cb system)

abbrev SetStore (K V : Type) := Store (MnHashItem K V) Unit

abbrev SetProg (K V : Type) := Prog (MnHashItem K V) Unit

/-- The functions answer what they leave in the variables of the tables. -/
def hashSetUnion2 (a b : MnHash K V) : SetProg K V (MnHash K V × MnHash K V) := do
  let ((_, a), b) ← onTable b (hashTraverseItem (hashSetUnion2Cb cb system) a)
  return (a, b)

def hashSetUnion3 (res a b : MnHash K V) : SetProg K V (MnHash K V × MnHash K V × MnHash K V) := do
  let ((_, res), a) ← onTable a (hashTraverseItem (hashSetUnion3Cb cb system) res)
  let ((_, res), b) ← onTable b (hashTraverseItem (hashSetUnion3Cb cb system) res)
  return (res, a, b)

def hashSetDiff3 (res a b : MnHash K V) : SetProg K V (MnHash K V × MnHash K V × MnHash K V) := do
  let ((_, res), a) ← onTable a (hashTraverseItem (hashSetDiff3Cb cb system b) res)
  return (res, a, b)

def hashSetSdiff3 (res a b : MnHash K V) : SetProg K V (MnHash K V × MnHash K V × MnHash K V) := do
  let ((_, res), a) ← onTable a (hashTraverseItem (hashSetDiff3Cb cb system b) res)
  let ((_, res), b) ← onTable b (hashTraverseItem (hashSetSdiff3Cb cb system a) res)
  return (res, a, b)

def hashSetIntersect3 (res a b : MnHash K V) : SetProg K V (MnHash K V × MnHash K V × MnHash K V) := do
  let ((_, res), a) ← onTable a (hashTraverseItem (hashSetIntersect3Cb cb system b) res)
  return (res, a, b)

/-- The keys that are equal to one in the list. -/
def keysOf (xs : List (Entry K V)) : Set K := {key | ∃ x ∈ xs, hit cb key x = true}

/-- No key is there twice. -/
def Distinct (xs : List (Entry K V)) : Prop := xs.Pairwise fun x y => cb.cmp x.2.1 y.2.1 ≠ 0

/-- The table lies in the memory with these items. -/
def Lies (h : Heap (MnHashItem K V)) (t : MnHash K V) (xs : List (Entry K V)) : Prop :=
  ∃ chains good, Stored cb ⟨h, t, 0⟩ chains good ∧ allOf t.table.length chains = xs

/-- From a table with the items `xs` to one with the items `ys`: the rest of the memory stays, and what is new
was not in use. -/
structure Extends (xs : List (Entry K V)) (h after : Heap (MnHashItem K V)) (ys : List (Entry K V)) : Prop where
  spares : ∀ c n, h.lookup c = some n → (∀ x ∈ xs, x.1 ≠ c) → after.lookup c = some n
  fresh : ∀ y ∈ ys, (∃ x ∈ xs, x.1 = y.1) ∨ h.lookup y.1 = none

/-- A function that puts a new key into a table. -/
def Puts (put : K → V → HashProg K V Unit) : Prop :=
  ∀ (s : HashStore K V) xs key value, Lies cb s.heap s.vars xs → key ∉ keysOf cb xs →
    ∃ a next ys, put key value s = .ok ((), next) ∧ Lies cb next.heap next.vars ys ∧
      ys.Perm ((a, key, value) :: xs) ∧ Extends xs s.heap next.heap ys

variable {cb system} {h after last : Heap (MnHashItem K V)} {t res : MnHash K V} {xs ys zs : List (Entry K V)}
  {key : K} {value : V} {s : HashStore K V} {chains : Chains K V} {good : Nat → Prop}

theorem Stored.lies (stored : Stored cb s chains good) : Lies cb s.heap s.vars (allOf s.vars.table.length chains) :=
  ⟨chains, good, ⟨⟨stored.nonempty, stored.slot, stored.bucket, stored.placed, stored.once, stored.apart⟩,
    stored.counts⟩, rfl⟩

theorem Lies.stored (lies : Lies cb s.heap s.vars xs) :
    ∃ chains good, Stored cb s chains good ∧ allOf s.vars.table.length chains = xs := by
  rcases lies with ⟨chains, good, stored, all⟩
  exact ⟨chains, good, ⟨⟨stored.nonempty, stored.slot, stored.bucket, stored.placed, stored.once, stored.apart⟩,
    stored.counts⟩, all⟩

theorem Lies.items (lies : Lies cb s.heap s.vars xs) : itemsOf s = xs := by
  rcases lies.stored with ⟨chains, good, stored, all⟩
  rw [stored.items, all]

theorem Lies.elnum (lies : Lies cb h t xs) : t.elnum = xs.length := by
  rcases lies with ⟨chains, good, stored, rfl⟩
  exact stored.counts

theorem Lies.cell (lies : Lies cb h t xs) {x : Entry K V} (inside : x ∈ xs) :
    ∃ n, h.lookup x.1 = some n ∧ pairOf n = x.2 := by
  rcases lies with ⟨chains, good, stored, rfl⟩
  rcases mem_allOf.mp inside with ⟨i, low, there⟩
  exact stored.cell low there

/-- A table does not notice what happens elsewhere. -/
theorem Stored.frame {tick : Nat} (stored : Stored cb ⟨h, t, tick⟩ chains good) (tick' : Nat)
    (same : ∀ x ∈ allOf t.table.length chains, after.lookup x.1 = h.lookup x.1) :
    Stored cb ⟨after, t, tick'⟩ chains good := by
  have known : ∀ i < t.table.length, ∀ x ∈ chains i, after.lookup x.1 = h.lookup x.1 := fun i low x inside =>
    same x (mem_allOf.mpr ⟨i, low, inside⟩)
  refine ⟨⟨stored.nonempty, fun i low => ?_, fun i low fine x first => ?_, stored.placed, stored.once,
    stored.apart⟩, stored.counts⟩
  · rcases stored.slot i low with ⟨head, here, seg⟩
    exact ⟨head, here, seg.frame fun x inside => known i low x inside⟩
  · rcases stored.bucket i low fine x first with ⟨n, cell, right⟩
    exact ⟨n, (known i low x (List.mem_of_head? first)).trans cell, right⟩

theorem Lies.frame (lies : Lies cb h t xs) (same : ∀ x ∈ xs, after.lookup x.1 = h.lookup x.1) : Lies cb after t xs := by
  rcases lies with ⟨chains, good, stored, rfl⟩
  exact ⟨chains, good, stored.frame 0 same, rfl⟩

theorem Extends.refl (xs : List (Entry K V)) (h : Heap (MnHashItem K V)) : Extends xs h h xs :=
  ⟨fun _ _ cell _ => cell, fun y inside => .inl ⟨y, inside, rfl⟩⟩

theorem Extends.trans (first : Extends xs h after ys) (second : Extends ys after last zs) : Extends xs h last zs := by
  have apart : ∀ c n, h.lookup c = some n → (∀ x ∈ xs, x.1 ≠ c) → ∀ y ∈ ys, y.1 ≠ c := by
    rintro c n cell away y inside rfl
    rcases first.fresh y inside with ⟨x, there, same⟩ | unused
    · exact away x there same
    · rw [unused] at cell
      cases cell
  constructor
  · intro c n cell away
    exact second.spares c n (first.spares c n cell away) (apart c n cell away)
  · intro z inside
    rcases second.fresh z inside with ⟨y, there, same⟩ | unused
    · rw [← same]
      exact first.fresh y there
    · by_cases old : ∃ x ∈ xs, x.1 = z.1
      · exact .inl old
      · right
        cases cell : h.lookup z.1 with
        | none => rfl
        | some n =>
            have kept := first.spares z.1 n cell fun x there same => old ⟨x, there, same⟩
            rw [unused] at kept
            cases kept

/-- Another table stays where it is. -/
theorem Lies.beside (lies : Lies cb h t ys) (apart : ∀ y ∈ ys, ∀ x ∈ xs, x.1 ≠ y.1) (onward : Extends xs h after zs) :
    Lies cb after t ys ∧ ∀ y ∈ ys, after.lookup y.1 = h.lookup y.1 := by
  have same : ∀ y ∈ ys, after.lookup y.1 = h.lookup y.1 := by
    intro y inside
    rcases lies.cell inside with ⟨n, cell, -⟩
    rw [onward.spares y.1 n cell (apart y inside), cell]
  exact ⟨lies.frame same, same⟩

/-- One item more, in the front of its chain. -/
theorem Stored.added (stored : Stored cb s chains good) {next : HashStore K V} {good' : Nat → Prop} {a : Addr}
    (holds : Holds cb next (Function.update chains (place cb s.vars.table.length key)
      ((a, key, value) :: chains (place cb s.vars.table.length key))) good')
    (leaves : Leaves (s.vars.elnum + 1) s.vars.finished s next) (spares : Spares chains a s next) :
    ∃ ys, Lies cb next.heap next.vars ys ∧ ys.Perm ((a, key, value) :: allOf s.vars.table.length chains) ∧
      Extends (allOf s.vars.table.length chains) s.heap next.heap ys := by
  have low := place_lt cb stored.nonempty key
  have stored' : Stored cb next _ good' := stored.change low holds leaves (by rw [List.length_cons]; omega)
  have perm := stored.toHolds.items_pushed low holds leaves.length
  rw [stored.items, stored'.items] at perm
  refine ⟨_, stored'.lies, perm, fun c n cell away => ?_, fun y inside => ?_⟩
  · have other : c ≠ a := by
      rintro rfl
      rw [spares.unused] at cell
      cases cell
    rw [spares.same c other away, cell]
  · rcases List.mem_cons.mp (perm.mem_iff.mp inside) with rfl | old
    · exact .inr spares.unused
    · exact .inl ⟨y, old, rfl⟩

theorem hashSetItem_puts (cb : Callbacks K V) (system : Allocator (MnHashItem K V)) :
    Puts cb (hashSetItem cb system) := by
  intro s xs key value lies _
  rcases lies.stored with ⟨chains, good, stored, rfl⟩
  rcases hashSetItem_spares stored.toHolds system key value with ⟨a, next, run, -, holds, leaves, spares⟩
  rcases stored.added holds leaves spares with ⟨ys, after, perm, onward⟩
  exact ⟨a, next, ys, run, after, perm, onward⟩

theorem setItemUniq_puts (cb : Callbacks K V) (system : Allocator (MnHashItem K V)) :
    Puts cb (setItemUniq cb system) := by
  intro s xs key value lies new
  rcases lies.stored with ⟨chains, good, stored, rfl⟩
  have search : visible cb s.vars.table.length chains key = none := by
    apply List.find?_eq_none.mpr
    intro x inside equal
    exact new ⟨x, mem_allOf.mpr ⟨_, place_lt cb stored.nonempty key, inside⟩, equal⟩
  rcases hashSetItemUniq_spares stored.toHolds system key value search with ⟨a, next, run, -, holds, leaves, spares⟩
  rcases stored.added holds leaves spares with ⟨ys, after, perm, onward⟩
  refine ⟨a, next, ys, ?_, after, perm, onward⟩
  rw [setItemUniq, bind_ok run]
  rfl

/-- A key is found exactly if it is one of the keys. -/
theorem Lies.getItem (lies : Lies cb h t xs) (agrees : Agrees cb) (key : K) (vars : R) (tick : Nat) :
    ∃ p : Ptr, onTable t (hashGetItem cb key) ⟨h, vars, tick⟩ = .ok ((p, t), ⟨h, vars, tick⟩) ∧
      (p.isSome = true ↔ key ∈ keysOf cb xs) := by
  have here : Lies cb (⟨h, t, tick⟩ : HashStore K V).heap t xs := lies
  rcases here.stored with ⟨chains, good, stored, all⟩
  have finds := (stored.shows agrees).finds key
  refine ⟨_, by rw [onTable, finds], ?_⟩
  rw [Option.isSome_map, Hash.shadowed, here.items, List.head?_filter, List.find?_isSome]
  rfl

/-- The items of a slot among all items. -/
theorem allOf_split (chains : Chains K V) {i size : Nat} (low : i < size) :
    ∃ rest, allOf size chains = allOf i chains ++ chains i ++ rest := by
  refine ⟨(List.range' (i + 1) (size - (i + 1))).flatMap chains, ?_⟩
  rw [allOf, allOf, range_split low, List.flatMap_append, List.flatMap_cons, List.append_assoc]

/-- What a pass over the items `ts` of one table has done to the result when it has met those in `front`. -/
structure Passing (cb : Callbacks K V) (I : List (Entry K V) → List (Entry K V) → Prop) (t : MnHash K V)
    (rs : List (Entry K V)) (h : Heap (MnHashItem K V)) (front : List (Entry K V)) (s : HashStore K V)
    (res : MnHash K V) : Prop where
  vars : s.vars = t
  filled : ∃ ys, Lies cb s.heap res ys ∧ Extends rs h s.heap ys ∧ I front ys

section Pass

variable {look : MnHash K V → MnHash K V} {looked : List (Entry K V) → List (Entry K V)} {found : Bool}
  {put : K → V → HashProg K V Unit} {I : List (Entry K V) → List (Entry K V) → Prop} {ts rs front : List (Entry K V)}
  {x : Entry K V} {next : HashStore K V}

/-- One call of the callback. -/
theorem Passing.call (passing : Passing cb I t rs h front s res) (agrees : Agrees cb) (puts : Puts cb put)
    (sees : ∀ after res ys, Extends rs h after ys → Lies cb after res ys → Lies cb after (look res) (looked ys))
    (takes : ∀ ys, I front ys → (x.2.1 ∈ keysOf cb (looked ys) ↔ found = true) →
      x.2.1 ∉ keysOf cb ys ∧ ∀ a zs, zs.Perm ((a, x.2) :: ys) → I (front ++ [x]) zs)
    (skips : ∀ ys, I front ys → ¬ (x.2.1 ∈ keysOf cb (looked ys) ↔ found = true) → I (front ++ [x]) ys)
    {n : MnHashItem K V} (cell : s.heap.lookup x.1 = some n) (pair : pairOf n = x.2) :
    ∃ res' next, setCb cb look found put (some x.1) res s = .ok ((0, res'), next) ∧
      Passing cb I t rs h (front ++ [x]) next res' := by
  rcases passing.filled with ⟨ys, lies, onward, here⟩
  rcases (sees s.heap res ys onward lies).getItem agrees n.key s.vars s.tick with ⟨p, search, there⟩
  have key_eq : n.key = x.2.1 := congrArg Prod.fst pair
  have searched : (onTable (look res) (hashGetItem cb n.key) : HashProg K V _) s = .ok ((p, look res), s) := search
  rw [key_eq] at there
  have decision : p.isSome = found ↔ (x.2.1 ∈ keysOf cb (looked ys) ↔ found = true) := by
    rw [← there]
    exact Bool.eq_iff_iff
  rw [setCb, bind_ok (load_ok cell), bind_ok searched]
  dsimp only
  rw [run_ite]
  by_cases fits : p.isSome = found
  · rcases takes ys here (decision.mp fits) with ⟨new, taken⟩
    rw [← key_eq] at new
    rcases puts ⟨s.heap, res, s.tick⟩ ys n.key n.value lies new with ⟨a, last, zs, run, lies', perm, more⟩
    have inserted : (onTable res (put n.key n.value) : HashProg K V _) s =
        .ok (((), last.vars), ⟨last.heap, s.vars, last.tick⟩) := by
      rw [onTable, run]
    refine ⟨last.vars, ⟨last.heap, s.vars, last.tick⟩, ?_, passing.vars, zs, lies', onward.trans more, ?_⟩
    · rw [if_pos fits, bind_ok inserted]
      rfl
    · have whole : (n.key, n.value) = x.2 := pair
      rw [whole] at perm
      exact taken a zs perm
  · refine ⟨res, s, ?_, passing.vars, ys, lies, onward, skips ys here fun agree => fits (decision.mpr agree)⟩
    rw [if_neg fits]
    rfl

/-- A whole pass over a table that does not share an item with the result. -/
theorem Lies.pass (lies : Lies cb h t ts) (filled : Lies cb h res rs) (apart : ∀ x ∈ ts, ∀ y ∈ rs, y.1 ≠ x.1)
    (agrees : Agrees cb) (puts : Puts cb put)
    (sees : ∀ after res ys, Extends rs h after ys → Lies cb after res ys → Lies cb after (look res) (looked ys))
    (first : I [] rs)
    (takes : ∀ front x back ys, ts = front ++ x :: back → I front ys →
      (x.2.1 ∈ keysOf cb (looked ys) ↔ found = true) →
        x.2.1 ∉ keysOf cb ys ∧ ∀ a zs, zs.Perm ((a, x.2) :: ys) → I (front ++ [x]) zs)
    (skips : ∀ front x back ys, ts = front ++ x :: back → I front ys →
      ¬ (x.2.1 ∈ keysOf cb (looked ys) ↔ found = true) → I (front ++ [x]) ys) (vars : R) (tick : Nat) :
    ∃ res' after tick', onTable t (hashTraverseItem (setCb cb look found put) res) ⟨h, vars, tick⟩ =
        (if t.table.length < 2 ^ 32 then .ok (((0, res'), t), ⟨after, vars, tick'⟩) else .error .outOfFuel) ∧
      (t.table.length < 2 ^ 32 → ∃ ys, Lies cb after res' ys ∧ Extends rs h after ys ∧ I ts ys) := by
  rcases lies with ⟨chains, good, stored, rfl⟩
  have own : Lies cb h t (allOf t.table.length chains) := ⟨chains, good, stored, rfl⟩
  have table : ∀ s res front, Passing cb I t rs h front s res → Holds cb s chains good := by
    rintro ⟨after, vars, tick⟩ res front ⟨same, ys, -, onward, -⟩
    obtain rfl : vars = t := same
    exact (stored.frame tick (own.beside apart onward).2).toHolds
  have each : ∀ i s res, i < t.table.length → Passing cb I t rs h (allOf i chains) s res →
      ∃ p res' next, s.vars.table[i]? = some p ∧
        traverseChain (setCb cb look found put) s.bound p res s = .ok ((0, res'), next) ∧
        Passing cb I t rs h (allOf (i + 1) chains) next res' := by
    intro i s res low passing
    rcases allOf_split chains low with ⟨rest, split⟩
    have call : ∀ front x back s res, chains i = front ++ x :: back →
        Passing cb I t rs h (allOf i chains ++ front) s res →
        ∃ n res' next, s.heap.lookup x.1 = some n ∧ n.next = back.head?.map Prod.fst ∧
          setCb cb look found put (some x.1) res s = .ok ((0, res'), next) ∧
          Passing cb I t rs h (allOf i chains ++ (front ++ [x])) next res' := by
      intro front x back s res shape passing
      have low' : i < s.vars.table.length := passing.vars ▸ low
      have seg := (table s res _ passing).seg low'
      rw [shape] at seg
      rcases seg.middle with ⟨n, cell, pair, -, tail⟩
      have whole : allOf t.table.length chains = (allOf i chains ++ front) ++ x :: (back ++ rest) := by
        rw [split, shape]
        simp only [List.append_assoc, List.cons_append]
      rcases passing.call agrees puts sees (takes _ x _ · whole) (skips _ x _ · whole) cell pair with
        ⟨res', next, run, after⟩
      rw [List.append_assoc] at after
      exact ⟨n, res', next, cell, tail.head_eq, run, after⟩
    have holds := table s res _ passing
    have low' : i < s.vars.table.length := passing.vars ▸ low
    have start : Passing cb I t rs h (allOf i chains ++ []) s res := by rwa [List.append_nil]
    rcases traverseChain_carries call [] (chains i) rfl start s.bound ((holds.short low').trans (Nat.le_succ _)) with
      ⟨res', next, run, after⟩
    rw [← allOf_succ] at after
    exact ⟨_, res', next, holds.head low', run, after⟩
  have start : Passing cb I t rs h (allOf 0 chains) (⟨h, t, tick⟩ : HashStore K V) res :=
    ⟨rfl, rs, filled, .refl rs h, first⟩
  rcases hashTraverseItem_carries (J := fun i s res => Passing cb I t rs h (allOf i chains) s res) each start with
    ⟨res', next, passing, run⟩
  rw [passing.vars] at run
  refine ⟨res', next.heap, next.tick, ?_, fun small => ?_⟩
  · rw [onTable, run]
    by_cases small : t.table.length < 2 ^ 32
    · rw [if_pos small, if_pos small]
      dsimp only
      rw [passing.vars]
    · rw [if_neg small, if_neg small]
  · have all : min t.table.length (2 ^ 32) = t.table.length := min_eq_left small.le
    change Passing cb I t rs h (allOf (min t.table.length (2 ^ 32)) chains) next res' at passing
    rw [all] at passing
    exact passing.filled

end Pass

end MnCommon.Hash
