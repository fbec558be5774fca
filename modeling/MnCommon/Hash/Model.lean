import MnCommon.Memory.Heap

/-! The hash table of `hash.c`: chains of items that are linked in both
directions and hang on the slots of a table. -/

namespace MnCommon.Hash

open Memory

/-- A pointer into a table: the array it points into and the index. -/
abbrev Slot := Nat × Nat

structure MnHashItem (K V : Type) where
  bucket : Option Slot
  prev : Ptr
  next : Ptr
  key : K
  value : V

/-- `data` tells the arrays apart that the table has had; `finished` records the
calls of the finaliser. -/
structure MnHash (K V : Type) where
  data : Nat
  table : List Ptr
  elnum : Nat
  finished : List (K × V)

/-- The functions that the client gives to `hash_init`. The finaliser may be
NULL; its answer may depend on the calls it has had before. -/
structure Callbacks (K V : Type) where
  hashfn : K → UInt64
  cmp : K → K → Int
  fini : Option (List (K × V) → K → V → Int)

variable {K V A : Type}

abbrev HashStore (K V : Type) := Store (MnHashItem K V) (MnHash K V)

abbrev HashProg (K V : Type) := Prog (MnHashItem K V) (MnHash K V)

/-- `array_get`, whose index is an `unsigned`. -/
def arrayGet (idx : Nat) : HashProg K V (Option Slot) := do
  let t ← vars
  return if idx % 2 ^ 32 < t.table.length then some (t.data, idx % 2 ^ 32) else none

def readSlot : Option Slot → HashProg K V Ptr
  | none => fault .nullDereference
  | some (data, i) => do
      let t ← vars
      match t.table[i]? with
      | some p => if data = t.data then pure p else fault .dangling
      | none => fault .dangling

def writeSlot : Option Slot → Ptr → HashProg K V Unit
  | none, _ => fault .nullDereference
  | some (data, i), p => do
      let t ← vars
      if data = t.data ∧ i < t.table.length then
        setVars fun t => { t with table := t.table.set i p }
      else
        fault .dangling

/-- `array_reset_no_fini` with `null_init`; `array_init` leaves the same. -/
def arrayReset (sz : Nat) : HashProg K V Unit :=
  setVars fun t => { t with data := t.data + 1, table := List.replicate sz none }

def hashInit (sz : Nat) : HashProg K V Unit := do
  arrayReset sz
  setVars fun t => { t with elnum := 0, finished := [] }

def countUp : HashProg K V Unit := setVars fun t => { t with elnum := t.elnum + 1 }

def countDown : HashProg K V Unit := setVars fun t => { t with elnum := t.elnum - 1 }

/-- The slot of a key in the table. -/
def slotOf (cb : Callbacks K V) (key : K) : HashProg K V (Option Slot) := do
  let t ← vars
  let phit ← arrayGet ((cb.hashfn key).toNat % t.table.length)
  if phit = none then fault .abort else return phit

/-- The call of the finaliser, if there is one. -/
def callFini (cb : Callbacks K V) (key : K) (value : V) : HashProg K V Int :=
  match cb.fini with
  | none => pure 0
  | some fini => do
      let t ← vars
      setVars fun t => { t with finished := t.finished ++ [(key, value)] }
      return fini t.finished key value

/-- The lines of `hash_set_item` and `hash_rehash` that put an item in front of
the first one of its chain. -/
def linkFirst (phit : Option Slot) (hit : Ptr) : HashProg K V Unit := do
  update hit fun x => { x with bucket := phit }
  update hit fun x => { x with prev := none }
  let first ← readSlot phit
  if first = none then
    update hit fun x => { x with next := none }
  else
    update hit fun x => { x with next := first }
    update first fun x => { x with prev := hit }
    update first fun x => { x with bucket := none }

def hashSetItem (cb : Callbacks K V) (system : Allocator (MnHashItem K V)) (key : K) (value : V) :
    HashProg K V Unit := do
  let phit ← slotOf cb key
  let hit ← alloc system
  linkFirst phit hit
  update hit fun x => { x with key := key }
  update hit fun x => { x with value := value }
  writeSlot phit hit
  countUp

/-- The loop over a chain of `hash_set_item_uniq` and `hash_get_item`. -/
def findItem (cb : Callbacks K V) (key : K) : Nat → Ptr → HashProg K V Ptr
  | _, none => pure none
  | 0, some _ => fault .outOfFuel
  | fuel + 1, some hit => do
      let n ← load (some hit)
      if cb.cmp key n.key = 0 then return some hit else findItem cb key fuel n.next

/-- The end of `hash_set_item_uniq` for a key that is not in the chain of
`first`: neither `prev` nor `bucket` of the new item are set. -/
def addFirst (system : Allocator (MnHashItem K V)) (phit : Option Slot) (first : Ptr) (key : K)
    (value : V) : HashProg K V Unit := do
  let hit ← alloc system
  update hit fun x => { x with next := first }
  update first fun x => { x with prev := hit }
  update first fun x => { x with bucket := none }
  update hit fun x => { x with key := key }
  update hit fun x => { x with value := value }
  writeSlot phit hit
  countUp

/-- With the old key and the old value. -/
def hashSetItemUniq (cb : Callbacks K V) (system : Allocator (MnHashItem K V)) (key : K) (value : V) :
    HashProg K V (Option K × Option V) := do
  let phit ← slotOf cb key
  let first ← readSlot phit
  if first = none then
    let hit ← alloc system
    update hit fun _ => { bucket := phit, prev := none, next := none, key := key, value := value }
    writeSlot phit hit
    countUp
    return (none, none)
  else
    let hit ← findItem cb key (← bound) first
    if hit ≠ none then
      let n ← load hit
      let _ ← callFini cb n.key n.value
      update hit fun x => { x with key := key }
      update hit fun x => { x with value := value }
      return (some n.key, some n.value)
    else
      addFirst system phit first key value
      return (none, none)

def hashGetItem (cb : Callbacks K V) (key : K) : HashProg K V Ptr := do
  if (← vars).elnum = 0 then
    return none
  else
    let phit ← slotOf cb key
    let first ← readSlot phit
    if first = none then return none else findItem cb key (← bound) first

/-- The loop of `hash_remove_item` behind the first item. -/
def removeBehind (cb : Callbacks K V) (key : K) : Nat → Ptr → HashProg K V (Option V)
  | 0, _ => fault .outOfFuel
  | fuel + 1, before => do
      let hit := (← load before).next
      if hit = none then
        return none
      else
        let n ← load hit
        if cb.cmp key n.key = 0 then
          update n.prev fun x => { x with next := n.next }
          if n.next ≠ none then
            update n.next fun x => { x with prev := n.prev }
          free hit
          countDown
          return some n.value
        else
          removeBehind cb key fuel hit

def hashRemoveItem (cb : Callbacks K V) (key : K) : HashProg K V (Option V) := do
  let phit ← slotOf cb key
  let hit ← readSlot phit
  if hit = none then
    return none
  else
    let n ← load hit
    if cb.cmp key n.key = 0 then
      if n.next ≠ none then
        update n.next fun x => { x with prev := none }
      writeSlot phit n.next
      free hit
      countDown
      return some n.value
    else
      removeBehind cb key (← bound) hit

/-- The common part of `hash_delete_pair` and `hash_delete_pair_no_fini`. -/
def unlinkItem (hit : Ptr) : HashProg K V Unit := do
  let n ← load hit
  if n.prev ≠ none then
    update n.prev fun x => { x with next := n.next }
  else
    check n.bucket.isSome
    writeSlot n.bucket n.next
  let n ← load hit
  if n.next ≠ none then
    update n.next fun x => { x with prev := n.prev }
    if n.prev = none then
      update n.next fun x => { x with bucket := n.bucket }

def hashDeletePair (cb : Callbacks K V) (hit : Ptr) : HashProg K V Unit := do
  unlinkItem hit
  let n ← load hit
  let _ ← callFini cb n.key n.value
  free hit
  countDown

def hashDeletePairNoFini (hit : Ptr) : HashProg K V Unit := do
  unlinkItem hit
  free hit
  countDown

/-- The inner loop of `hash_traverse_item`; `acc` is what the callback keeps in
its user data. -/
def traverseChain (cb : Ptr → A → HashProg K V (Int × A)) : Nat → Ptr → A → HashProg K V (Int × A)
  | _, none, acc => pure (0, acc)
  | 0, some _, _ => fault .outOfFuel
  | fuel + 1, some hit, acc => do
      let next := (← load (some hit)).next
      let (res, acc) ← cb (some hit) acc
      if res ≠ 0 then return (res, acc) else traverseChain cb fuel next acc

/-- The loop of `array_first` and `array_next` over the slots. Their index is an
`unsigned`: over a table that is too long for it the loop starts again and again. -/
def traverseSlots (cb : Ptr → A → HashProg K V (Int × A)) : List Nat → A → HashProg K V (Int × A)
  | [], acc => do
      if (← vars).table.length < 2 ^ 32 then return (0, acc) else fault .outOfFuel
  | i :: rest, acc => do
      let first ← readSlot (some ((← vars).data, i))
      let (res, acc) ← traverseChain cb (← bound) first acc
      if res ≠ 0 then return (res, acc) else traverseSlots cb rest acc

def hashTraverseItem (cb : Ptr → A → HashProg K V (Int × A)) (acc : A) : HashProg K V (Int × A) := do
  traverseSlots cb (List.range (min (← vars).table.length (2 ^ 32))) acc

/-- `hash_traverse`: the callback is called with a key and a value. -/
def hashTraverse (cb : K → V → A → HashProg K V (Int × A)) (acc : A) : HashProg K V (Int × A) :=
  hashTraverseItem (fun hit acc => do
    let n ← load hit
    cb n.key n.value acc) acc

def myRehash (it : Ptr) (tmp : List Ptr) : HashProg K V (Int × List Ptr) := pure (0, tmp ++ [it])

/-- One turn of the loop of `hash_rehash`. -/
def rehashItem (cb : Callbacks K V) (sz : Nat) (hit : Ptr) : HashProg K V Unit := do
  let n ← load hit
  let phit ← arrayGet ((cb.hashfn n.key).toNat % sz)
  if phit = none then
    fault .abort
  else
    linkFirst phit hit
    writeSlot phit hit

def rehashItems (cb : Callbacks K V) (sz : Nat) : List Ptr → HashProg K V Unit
  | [] => pure ()
  | hit :: rest => do
      rehashItem cb sz hit
      rehashItems cb sz rest

def hashRehash (cb : Callbacks K V) (sz : Nat) : HashProg K V Unit := do
  let (res, tmp) ← hashTraverseItem myRehash []
  if res ≠ 0 then
    fault .abort
  else
    arrayReset sz
    check (tmp.length == (← vars).elnum)
    -- the counter of the loop is an `unsigned`
    if tmp.length < 2 ^ 32 then rehashItems cb sz tmp else fault .outOfFuel

/-- The loop of `hash_cleanup` over a chain, which ends early when the finaliser
answers with anything but zero. -/
def cleanupChain (cb : Callbacks K V) : Nat → Ptr → HashProg K V Unit
  | _, none => pure ()
  | 0, some _ => fault .outOfFuel
  | fuel + 1, some hit => do
      let n ← load (some hit)
      let res ← callFini cb n.key n.value
      if res ≠ 0 then
        return ()
      else
        free (some hit)
        countDown
        cleanupChain cb fuel n.next

def cleanupSlots (cb : Callbacks K V) : List Nat → HashProg K V Unit
  | [] => pure ()
  | i :: rest => do
      let phit : Option Slot := some ((← vars).data, i)
      let first ← readSlot phit
      cleanupChain cb (← bound) first
      writeSlot phit none
      cleanupSlots cb rest

def hashCleanup (cb : Callbacks K V) : HashProg K V Unit := do
  cleanupSlots cb (List.range (← vars).table.length)

/-- With the `array_fini` of the table. -/
def hashFini (cb : Callbacks K V) : HashProg K V Unit := do
  hashCleanup cb
  setVars fun t => { t with table := [] }

/-- `hash_set_add` for items that have no value. -/
def hashSetAdd (cb : Callbacks K V) (system : Allocator (MnHashItem K V)) (null : V) (key : K) : HashProg K V Unit := do
  if (← hashGetItem cb key) = none then hashSetItem cb system key null

def hashSetRemove (cb : Callbacks K V) (key : K) : HashProg K V Unit := do
  let _ ← hashRemoveItem cb key

end MnCommon.Hash
