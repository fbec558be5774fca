import MnCommon.Memory.Heap
import MnCommon.Trees.Zipper

/-! The binary trie of `pbtrie.c`, which skips the digits that all keys below a
node have in common. -/

namespace MnCommon.Pbtrie

open Memory Trees

/-- `child .left` is `child[0]` and `child .right` is `child[1]`. -/
structure MnPbtrieNode where
  xmask : UInt64
  keyPrefix : UInt64
  value : Ptr
  parent : Ptr
  child : Side → Ptr

structure MnPbtrie where
  root : Ptr
  head : Ptr
  tail : Ptr
  volume : Nat
  nvals : Nat
  deriving DecidableEq, Repr

abbrev PbtrieStore := Store MnPbtrieNode MnPbtrie

abbrev PbtrieProg := Prog MnPbtrieNode MnPbtrie

variable {A : Type}

def uint64Max : UInt64 := 0xffffffffffffffff

def MnPbtrieNode.setChild (n : MnPbtrieNode) (idx : Side) (child : Ptr) : MnPbtrieNode :=
  { n with child := Function.update n.child idx child }

def pbtrieNodeInit (node : Ptr) : PbtrieProg Unit :=
  update node fun _ =>
    { xmask := uint64Max, keyPrefix := 0, value := none, parent := none, child := fun _ => none }

def pbtrieNodeNew (system : Allocator MnPbtrieNode) : PbtrieProg Ptr := do
  let res ← alloc system
  pbtrieNodeInit res
  return res

/-- Destroys the node that the pointer `place` of the caller points at; the caller
clears the pointer. -/
def pbtrieNodeDestroy : Nat → Ptr → PbtrieProg Unit
  | _, none => pure ()
  | 0, some _ => fault .outOfFuel
  | fuel + 1, some a => do
      pbtrieNodeDestroy fuel ((← load (some a)).child .left)
      update (some a) fun x => x.setChild .left none
      pbtrieNodeDestroy fuel ((← load (some a)).child .right)
      update (some a) fun x => x.setChild .right none
      free (some a)

/-- The common form of `pbtrie_node_min` and `pbtrie_node_max`. -/
def nodeEnd (side : Side) : Nat → Ptr → PbtrieProg Ptr
  | 0, _ => fault .outOfFuel
  | fuel + 1, node => do
      let child := (← load node).child side
      if child ≠ none then nodeEnd side fuel child else return node

def pbtrieNodeMin (fuel : Nat) (node : Ptr) : PbtrieProg Ptr := nodeEnd .left fuel node

def pbtrieNodeMax (fuel : Nat) (node : Ptr) : PbtrieProg Ptr := nodeEnd .right fuel node

/-- The loop of `pbtrie_node_next` and `pbtrie_node_prev` over the ancestors. -/
def nodeClimb (side : Side) : Nat → Ptr → PbtrieProg Ptr
  | 0, _ => fault .outOfFuel
  | fuel + 1, node => do
      let parent := (← load node).parent
      if parent = none then
        return node
      else
        let p ← load parent
        if p.child side ≠ none ∧ p.child side ≠ node then
          nodeEnd side.opposite (← bound) (p.child side)
        else
          nodeClimb side fuel parent

/-- The common form of `pbtrie_node_next` and `pbtrie_node_prev`. -/
def nodeStep (side : Side) (node : Ptr) : PbtrieProg Ptr := do
  let n ← load node
  if n.child side ≠ none then
    nodeEnd side.opposite (← bound) (n.child side)
  else
    nodeClimb side (← bound) node

def pbtrieNodeNext (node : Ptr) : PbtrieProg Ptr := nodeStep .right node

def pbtrieNodePrev (node : Ptr) : PbtrieProg Ptr := nodeStep .left node

/-- The common form of `pbtrie_traverse` and `pbtrie_reverse`; `acc` is what the
callback keeps in its user data. -/
def traverseFrom (side : Side) (cb : Ptr → A → PbtrieProg (Int × A)) (last : Ptr) :
    Nat → Ptr → A → PbtrieProg (Int × A)
  | 0, _, _ => fault .outOfFuel
  | fuel + 1, node, acc => do
      if node ≠ last then
        let (res, acc) ← cb node acc
        if res ≠ 0 then
          return (res, acc)
        else
          traverseFrom side cb last fuel (← nodeStep side node) acc
      else
        cb node acc

def pbtrieTraverse (cb : Ptr → A → PbtrieProg (Int × A)) (acc : A) : PbtrieProg (Int × A) := do
  let trie ← vars
  traverseFrom .right cb trie.tail (← bound) trie.head acc

def pbtrieReverse (cb : Ptr → A → PbtrieProg (Int × A)) (acc : A) : PbtrieProg (Int × A) := do
  let trie ← vars
  traverseFrom .left cb trie.head (← bound) trie.tail acc

/-- The position of the most significant bit, counted from one. -/
def flsl (v : UInt64) : Nat := if v = 0 then 0 else v.toNat.log2 + 1

def xmask (keyPrefix key : UInt64) : UInt64 :=
  let x := keyPrefix ^^^ key
  let f := flsl x
  if f ≥ 64 then 0 else uint64Max <<< f.toUInt64

def childsel (mask parent child : UInt64) : Side :=
  let m := mask.toInt64
  if child &&& (m >>> 1).toUInt64 ≤ parent then .left else .right

/-- The mask that `pbtrie_node_find_at` computes for a child. -/
def childMask (key : UInt64) (child : Ptr) : PbtrieProg UInt64 := do
  if child ≠ none then
    let c ← load child
    return min (xmask c.keyPrefix key) c.xmask
  else
    return 0

def pbtrieNodeFindAt (key : UInt64) : Nat → Ptr → PbtrieProg Ptr
  | _, none => pure none
  | 0, some _ => fault .outOfFuel
  | fuel + 1, some a => do
      let n ← load (some a)
      let xm0 ← childMask key (n.child .left)
      let xm1 ← childMask key (n.child .right)
      if xm0 > xm1 then
        if (← load (n.child .left)).xmask > xm0 then
          return n.child .left
        else
          pbtrieNodeFindAt key fuel (n.child .left)
      else if xm1 > xm0 then
        if (← load (n.child .right)).xmask > xm1 then
          return n.child .right
        else
          pbtrieNodeFindAt key fuel (n.child .right)
      else
        check (n.child .left == none && n.child .right == none)
        return some a

def pbtrieNodeSplit (system : Allocator MnPbtrieNode) (split : Ptr) (key : UInt64) : PbtrieProg Ptr := do
  let s ← load split
  let xm := xmask s.keyPrefix key
  check (xm < s.xmask)
  let oldParent := s.parent
  check oldParent.isSome
  let newParent ← pbtrieNodeNew system
  let s ← load split
  update newParent fun x => { x with keyPrefix := s.keyPrefix &&& xm }
  update newParent fun x => { x with xmask := xm }
  update newParent fun x => { x with parent := oldParent }
  let p ← load oldParent
  if p.child .left = split then
    update oldParent fun x => x.setChild .left newParent
  else
    check (p.child .right == split)
    update oldParent fun x => x.setChild .right newParent
  let n ← load newParent
  let idx := childsel n.xmask n.keyPrefix (← load split).keyPrefix
  update newParent fun x => x.setChild idx split
  update split fun x => { x with parent := newParent }
  return newParent

def pbtrieAddNode (system : Allocator MnPbtrieNode) (key : UInt64) : PbtrieProg Ptr := do
  let split ← pbtrieNodeFindAt key (← bound) (← vars).root
  let newParent ← pbtrieNodeSplit system split key
  let node ← pbtrieNodeNew system
  update node fun x => { x with parent := newParent }
  update node fun x => { x with keyPrefix := key }
  let n ← load newParent
  let idx := childsel n.xmask n.keyPrefix key
  check (n.child idx == none)
  update newParent fun x => x.setChild idx node
  return node

def pbtrieFindExact (key : UInt64) : PbtrieProg Ptr := do
  pbtrieNodeFindAt key (← bound) (← vars).root

def pbtrieRemoveNode (node : Ptr) : PbtrieProg Int := do
  let n ← load node
  if n.parent ≠ none then
    let p ← load n.parent
    if p.child .left = node then
      pbtrieNodeDestroy (← bound) node
      update n.parent fun x => x.setChild .left none
    else
      check (p.child .right == node)
      pbtrieNodeDestroy (← bound) node
      update n.parent fun x => x.setChild .right none
  else
    pbtrieNodeDestroy (← bound) node
  return 0

/-- A sentinel below the root. -/
def initSentinel (system : Allocator MnPbtrieNode) (root : Ptr) (keyPrefix : UInt64) (idx : Side) :
    PbtrieProg Ptr := do
  let node ← pbtrieNodeNew system
  update node fun x => { x with keyPrefix := keyPrefix }
  update root fun x => x.setChild idx node
  update node fun x => { x with parent := root }
  return node

def pbtrieInit (system : Allocator MnPbtrieNode) : PbtrieProg Unit := do
  let root ← pbtrieNodeNew system
  setVars fun tr => { tr with root := root }
  update root fun x => { x with xmask := 0 }
  update root fun x => { x with keyPrefix := 0 }
  let head ← initSentinel system root 0 .left
  setVars fun tr => { tr with head := head }
  let tail ← initSentinel system root uint64Max .right
  setVars fun tr => { tr with tail := tail }
  setVars fun tr => { tr with volume := 0 }
  setVars fun tr => { tr with nvals := 0 }

end MnCommon.Pbtrie
