import MnCommon.Memory.Heap

/-! The binary trie of `btrie.c`: one tree for each length of a key, whose nodes
are reached by the digits below the most significant one. -/

namespace MnCommon.Btrie

open Memory

structure MnBtrieNode where
  parent : Ptr
  child : Bool → Ptr
  value : Ptr
  digit : UInt16
  idx : Nat

/-- The counters of `mnbtrie_t`. Its array of roots lies in the first 64 records
of the heap. -/
structure MnBtrie where
  volume : Nat
  nvals : Nat
  deriving DecidableEq, Repr

abbrev BtrieStore := Store MnBtrieNode MnBtrie

abbrev BtrieProg := Prog MnBtrieNode MnBtrie

abbrev treeDepth : Nat := 64

/-- The position of the most significant bit, counted from one. -/
def flsl (v : UInt64) : Nat := if v = 0 then 0 else v.toNat.log2 + 1

def childSelectorShift : UInt16 := 15

/-- Bit `idx` of a key. -/
def keySel (key : UInt64) (idx : Nat) : UInt64 := (key >>> idx.toUInt64) &&& 0x01

def childSel (node : MnBtrieNode) (key : UInt64) : UInt64 := keySel key (node.idx - 1)

def nodeSel0 (node : MnBtrieNode) : UInt16 := node.digit >>> childSelectorShift

def MnBtrieNode.setChild (n : MnBtrieNode) (sel : Bool) (child : Ptr) : MnBtrieNode :=
  { n with child := Function.update n.child sel child }

def btrieNodeInit (n parent : Ptr) (idx : Nat) (digit : UInt16) (value : Ptr) : BtrieProg Unit := do
  check n.isSome
  update n fun _ => { parent := parent, child := fun _ => none, value := value, digit := digit, idx := idx }

/-- The loop over the roots, each of which is storage of the caller. -/
def initRoots : Nat → BtrieProg Unit
  | 0 => pure ()
  | i + 1 => do
      initRoots i
      place i { parent := none, child := fun _ => none, value := none, digit := 0, idx := i }

def btrieInit : BtrieProg Unit := do
  initRoots treeDepth
  setVars fun _ => { volume := 0, nvals := 0 }

def countDown : BtrieProg Unit := setVars fun t => { t with volume := t.volume - 1 }

/-- One of the two blocks of `BTRIE_NODE_FINI_BODY`. -/
def finiChild (fini : Ptr → BtrieProg Unit) (n : Ptr) (sel : Bool) : BtrieProg Unit := do
  let child := (← load n).child sel
  if child ≠ none then
    fini child
    free child
    update n fun x => x.setChild sel none
    countDown

def btrieNodeFini : Nat → Ptr → BtrieProg Unit
  | 0, _ => fault .outOfFuel
  | fuel + 1, n => do
      check n.isSome
      finiChild (btrieNodeFini fuel) n false
      finiChild (btrieNodeFini fuel) n true
      update n fun x => { x with parent := none }

/-- The loop over the roots. -/
def finiRoots : Nat → BtrieProg Unit
  | 0 => pure ()
  | i + 1 => do
      finiRoots i
      btrieNodeFini (← bound) (some i)

def btrieFini : BtrieProg Unit := finiRoots treeDepth

def MnBtrieNode.isOrphan (n : MnBtrieNode) : Bool :=
  n.child false == none && n.child true == none && n.value == none

def dropChild (n child : Ptr) (sel : Bool) : BtrieProg Unit := do
  free child
  update n fun x => x.setChild sel none
  countDown

/-- One of the two blocks of `BTRIE_NODE_CLEANUP_BODY`. -/
def cleanupChild (cleanup : Ptr → BtrieProg Unit) (n : Ptr) (sel : Bool) : BtrieProg Unit := do
  let child := (← load n).child sel
  if child ≠ none then
    if !(← load child).isOrphan then
      cleanup child
      if (← load child).isOrphan then
        dropChild n child sel
    else
      dropChild n child sel

def btrieNodeCleanup : Nat → Ptr → BtrieProg Unit
  | 0, _ => fault .outOfFuel
  | fuel + 1, n => do
      check n.isSome
      if (← load n).isOrphan then
        return ()
      else
        cleanupChild (btrieNodeCleanup fuel) n false
        cleanupChild (btrieNodeCleanup fuel) n true

def cleanupRoots : Nat → BtrieProg Unit
  | 0 => pure ()
  | i + 1 => do
      cleanupRoots i
      btrieNodeCleanup (← bound) (some i)

def btrieCleanup : BtrieProg Unit := cleanupRoots treeDepth

section Traversal

variable {A : Type}

/-- What `btrie_node_traverse` does for each child. -/
def traverseChild (traverse cb : Ptr → A → BtrieProg (Int × A)) (child : Ptr) (udata : A) : BtrieProg (Int × A) :=
  if child ≠ none then traverse child udata else cb child udata

/-- The callback gets a node, or NULL where a child is not there, and answers with what it has made
of its user data. -/
def btrieNodeTraverse (cb : Ptr → A → BtrieProg (Int × A)) : Nat → Ptr → A → BtrieProg (Int × A)
  | 0, _, _ => fault .outOfFuel
  | fuel + 1, n, udata => do
      let res ← cb n udata
      if res.1 ≠ 0 then
        return res
      else
        let res ← traverseChild (btrieNodeTraverse cb fuel) cb ((← load n).child false) res.2
        if res.1 ≠ 0 then
          return res
        else
          traverseChild (btrieNodeTraverse cb fuel) cb ((← load n).child true) res.2

def traverseRoots (cb : Ptr → A → BtrieProg (Int × A)) : List Nat → A → BtrieProg (Int × A)
  | [], udata => pure (0, udata)
  | i :: rest, udata => do
      let res ← btrieNodeTraverse cb (← bound) (some i) udata
      if res.1 ≠ 0 then return res else traverseRoots cb rest res.2

def btrieTraverse (cb : Ptr → A → BtrieProg (Int × A)) (udata : A) : BtrieProg (Int × A) :=
  traverseRoots cb (List.range treeDepth) udata

end Traversal

/-- The branch of the loop of `btrie_add_node` that makes a node. -/
def addChild (system : Allocator MnBtrieNode) (cur : Ptr) (idx : Nat) (digit : UInt16) (sel : UInt64) :
    BtrieProg Ptr := do
  let n ← alloc system
  update cur fun x => x.setChild (sel == 1) n
  btrieNodeInit n cur idx (digit ||| (sel.toUInt16 <<< childSelectorShift)) none
  setVars fun t => { t with volume := t.volume + 1 }
  return n

/-- The loop of `btrie_add_node`, which ends when `idx` has passed zero. -/
def addFrom (system : Allocator MnBtrieNode) (key : UInt64) : Nat → UInt16 → Ptr → BtrieProg Ptr
  | 0, _, cur => pure cur
  | idx + 1, digit, cur => do
      let sel := (key &&& (1 <<< idx.toUInt64)) >>> idx.toUInt64
      check (sel == 0 || sel == 1)
      let n := (← load cur).child (sel == 1)
      if n = none then
        addFrom system key idx (digit + 1) (← addChild system cur idx digit sel)
      else
        addFrom system key idx (digit + 1) n

def btrieAddNode (system : Allocator MnBtrieNode) (key : UInt64) : BtrieProg Ptr := do
  let idx := flsl key
  if idx = 0 then
    return none
  else
    addFrom system key (idx - 1) 1 (some (idx - 1))

def findExactFrom (key : UInt64) : Nat → Ptr → BtrieProg Ptr
  | 0, cur => pure cur
  | idx + 1, cur => do
      if cur = none then
        return cur
      else
        let sel := keySel key idx
        check (sel == 0 || sel == 1)
        findExactFrom key idx ((← load cur).child (sel == 1))

def btrieFindExact (key : UInt64) : BtrieProg Ptr := do
  let idx := flsl key
  if idx = 0 then
    return none
  else
    findExactFrom key (idx - 1) (some (idx - 1))

/-- What `find_value_reverse` and `find_value_traverse` do for each child. -/
def findValueIn (find : Ptr → BtrieProg Ptr) (child : Ptr) : BtrieProg Ptr := do
  if child = none then
    return none
  else if (← load child).value ≠ none then
    return child
  else
    find child

/-- The common form of `find_value_reverse` and `find_value_traverse`: the child
`first` is searched before the other one. -/
def findValue (first : Bool) : Nat → Ptr → BtrieProg Ptr
  | 0, _ => fault .outOfFuel
  | fuel + 1, node => do
      let n ← load node
      if n.value ≠ none then
        return node
      else
        let res ← findValueIn (findValue first fuel) (n.child first)
        if res ≠ none then
          return res
        else
          findValueIn (findValue first fuel) (n.child (!first))

def findValueReverse (fuel : Nat) (node : Ptr) : BtrieProg Ptr := findValue true fuel node

def findValueTraverse (fuel : Nat) (node : Ptr) : BtrieProg Ptr := findValue false fuel node

def isSelected (node : MnBtrieNode) (side : Bool) : BtrieProg Bool := do
  let mysel := nodeSel0 node
  check (mysel == 0 || mysel == 1)
  return (mysel == 1) == side

/-- The inner loop of `find_value_lean_left` and `find_value_lean_right`, with
the step to the parent that follows it. -/
def climb (side : Bool) : Nat → Ptr → BtrieProg Ptr
  | 0, _ => fault .outOfFuel
  | fuel + 1, node => do
      let n ← load node
      let selected ← isSelected n side
      if n.parent ≠ none ∧ selected then
        climb side fuel n.parent
      else
        return n.parent

/-- The search below the child that lies further on. -/
def leanInto (side : Bool) (child : Ptr) : BtrieProg Ptr := do
  if child ≠ none then findValue (!side) (← bound) child else return none

/-- The common form of `find_value_lean_left` and `find_value_lean_right`. -/
def findValueLeaning (side : Bool) : Nat → Ptr → BtrieProg Ptr
  | 0, _ => fault .outOfFuel
  | _ + 1, none => pure none
  | fuel + 1, some a => do
      let n ← load (some a)
      let tmp ← leanInto side (n.child side)
      if tmp ≠ none then
        return tmp
      else if n.parent = none then
        return none
      else if !(← isSelected n side) then
        findValueLeaning side fuel n.parent
      else
        findValueLeaning side fuel (← climb side (← bound) (some a))

def findValueLeanLeft (fuel : Nat) (node : Ptr) : BtrieProg Ptr := findValueLeaning false fuel node

def findValueLeanRight (fuel : Nat) (node : Ptr) : BtrieProg Ptr := findValueLeaning true fuel node

/-- The loop of `find_closest_partial_back` and `find_closest_partial_forw`. -/
def findPartialFrom (lean : Nat → Ptr → BtrieProg Ptr) (key : UInt64) : Nat → Ptr → BtrieProg Ptr
  | 0, _ => fault .outOfFuel
  | fuel + 1, node => do
      let n ← load node
      if n.idx > 0 then
        let sel := childSel n key
        check (sel == 0 || sel == 1)
        if n.child (sel == 1) ≠ none then
          findPartialFrom lean key fuel (n.child (sel == 1))
        else
          lean (← bound) node
      else
        return node

def findClosestPartial (lean : Nat → Ptr → BtrieProg Ptr) (node : Ptr) (key : UInt64) :
    BtrieProg Ptr := do
  let n ← load node
  if n.idx = 0 then
    return if n.value = none then none else node
  else
    findPartialFrom lean key (← bound) node

def findClosestPartialBack (node : Ptr) (key : UInt64) : BtrieProg Ptr :=
  findClosestPartial findValueLeanLeft node key

def findClosestPartialForw (node : Ptr) (key : UInt64) : BtrieProg Ptr :=
  findClosestPartial findValueLeanRight node key

/-- The loops of `btrie_find_closest` over the roots of the other lengths. -/
def searchRoots (find : Nat → Ptr → BtrieProg Ptr) : List Nat → BtrieProg Ptr
  | [] => pure none
  | idx :: rest => do
      let res ← find (← bound) (some idx)
      if res ≠ none then return res else searchRoots find rest

def btrieFindClosest (key : UInt64) (direction : Bool) : BtrieProg Ptr := do
  let idx := flsl key
  if idx = 0 then
    return none
  else if direction then
    let res ← findClosestPartialForw (some (idx - 1)) key
    if res ≠ none then return res
    else searchRoots findValueTraverse (List.range' idx (treeDepth - idx))
  else
    let res ← findClosestPartialBack (some (idx - 1)) key
    if res ≠ none then return res
    else searchRoots findValueReverse (List.range (idx - 1)).reverse

/-- Unhooks a node from its parent; `other` is what the source does when the
parent does not know the node. -/
def unlinkChild (other : BtrieProg Unit) (parent n : Ptr) : BtrieProg Unit := do
  let p ← load parent
  if p.child false = n then
    update parent fun x => x.setChild false none
  else if p.child true = n then
    update parent fun x => x.setChild true none
  else
    other

def cleanupOrphans : Nat → Ptr → BtrieProg Unit
  | 0, _ => fault .outOfFuel
  | _ + 1, none => pure ()
  | fuel + 1, some a => do
      let n ← load (some a)
      if n.parent = none then
        return ()
      else if n.isOrphan then
        unlinkChild (fault .assertion) n.parent (some a)
        free (some a)
        countDown
        cleanupOrphans fuel n.parent
      else
        return ()

/-- `BTRIE_REMOVE_NODE_BODY`, with what happens to the parent at the end. -/
def removeNodeBody (n : Ptr) (finish : Ptr → BtrieProg Unit) : BtrieProg Int := do
  let node ← load n
  check (node.value == none)
  if node.parent ≠ none then
    unlinkChild (fault .abort) node.parent n
    btrieNodeFini (← bound) n
    free n
    countDown
  else
    btrieNodeFini (← bound) n
  finish node.parent
  return 0

def btrieRemoveNodeNoCleanup (n : Ptr) : BtrieProg Int := removeNodeBody n fun _ => pure ()

def btrieRemoveNode (n : Ptr) : BtrieProg Int :=
  removeNodeBody n fun parent => do cleanupOrphans (← bound) parent

end MnCommon.Btrie
