import MnCommon.Hash.Model

/-! The property set of `cm.c`: a hash table of items and the number of items that
it still has room for. -/

namespace MnCommon.PropertySet

open Memory Hash

structure PsetItem where
  v : Ptr
  cmprop : Int
  deriving DecidableEq, Repr

/-- A `pset_item_t *`: an item of the client and the address it lies at, or the
candidate on the stack of `pset_pop`. What an item holds does not change. -/
inductive ItemPtr where
  | given (addr : Addr) (it : PsetItem)
  | candidate
  deriving DecidableEq, Repr

def cmMax : Int := 2 ^ 63 - 1

/-- `(*it)`. -/
def ItemPtr.item : ItemPtr → PsetItem
  | given _ it => it
  | candidate => ⟨none, cmMax⟩

def ItemPtr.cmprop (it : ItemPtr) : Int := it.item.cmprop

inductive Fault where
  | overflow
  | outOfFuel
  | table (kind : Memory.Fault)
  deriving DecidableEq, Repr

structure Pset where
  nleft : Int
  d : HashStore ItemPtr Ptr
  minthresh : Int
  fastPopThresh : Int

/-- A call of a function of the table. -/
def onTable {A : Type} (x : HashProg ItemPtr Ptr A) (d : HashStore ItemPtr Ptr) :
    Except Fault (A × HashStore ItemPtr Ptr) :=
  match x d with
  | .ok result => .ok result
  | .error kind => .error (.table kind)

/-- The loop of `wheel_2x3_find_prime`. The index is an `int`, and so is `6 * i + 5`. -/
def wheelFrom (n : Nat) : Nat → Nat → Nat → Except Fault Nat
  | 0, _, p => if p < n then .error .outOfFuel else .ok p
  | fuel + 1, i, p =>
      if p < n then
        if i % 5 ≠ 0 then
          if 6 * i + 5 < 2 ^ 31 then wheelFrom n fuel (i + 1) (6 * i + 5) else .error .overflow
        else
          wheelFrom n fuel (i + 1) p
      else
        .ok p

def wheel2x3FindPrime (n : Nat) : Except Fault Nat := wheelFrom n (n + 2) 1 5

/-- In the memory of `d`; the threshold is turned into a `size_t`. -/
def psetInit (thresh minthresh : Int) (d : HashStore ItemPtr Ptr) : Except Fault Pset := do
  let sz ← wheel2x3FindPrime (thresh % 2 ^ 64).toNat
  let ((), d) ← onTable (hashInit sz) d
  return ⟨thresh, d, minthresh, minthresh⟩

variable (cb : Callbacks ItemPtr Ptr) (system : Allocator (MnHashItem ItemPtr Ptr))

/-- The callback of the traversal; what it keeps is `params->it`. -/
def psetMingenFast (k : ItemPtr) (_value : Ptr) (it : ItemPtr) : HashProg ItemPtr Ptr (Int × ItemPtr) :=
  let it := if k.cmprop < it.cmprop then k else it
  return (if it.cmprop = 1 then 1 else 0, it)

/-- The test of `params.it` against NULL, which it never is, is left out. -/
def psetPop (pset : Pset) : Except Fault (Option ItemPtr × Pset) := do
  let ((_, it), d) ← onTable (hashTraverse psetMingenFast .candidate) pset.d
  let (_, d) ← onTable (hashRemoveItem cb it) d
  let nleft := pset.nleft + 1
  return (some it, { pset with
    nleft := nleft
    d := d
    fastPopThresh := if nleft ≤ 0 then max it.cmprop pset.minthresh else pset.minthresh })

def psetPush (pset : Pset) (it : ItemPtr) : Except Fault (Option ItemPtr × Pset) := do
  if it.cmprop ≤ pset.fastPopThresh then
    return (some it, pset)
  else
    let (dit, d) ← onTable (hashGetItem cb it) pset.d
    if dit = none then
      let ((), d) ← onTable (hashSetItem cb system it none) d
      let pset := { pset with nleft := pset.nleft - 1, d := d }
      if pset.nleft < 0 then psetPop cb pset else return (none, pset)
    else
      let pset := { pset with d := d }
      if pset.nleft < 0 then psetPop cb pset else return (none, pset)

/-- Pushes of several items, with what each of them answers. -/
def psetPushes : Pset → List ItemPtr → Except Fault (List (Option ItemPtr) × Pset)
  | pset, [] => .ok ([], pset)
  | pset, it :: rest => do
      let (res, pset) ← psetPush cb system pset it
      let (others, pset) ← psetPushes pset rest
      return (res :: others, pset)

end MnCommon.PropertySet
