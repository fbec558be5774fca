import MnCommon.Memory.Heap

/-! The red-black tree of `rbt.c`: nodes that belong to the caller, linked at
once into a search tree and into a list in key order. -/

namespace MnCommon.Rbt

open Memory

structure MnRbtNode where
  parent : Ptr
  left : Ptr
  right : Ptr
  prev : Ptr
  next : Ptr
  flags : UInt64
  key : UInt64
  data : Ptr
  deriving DecidableEq, Repr

structure MnRbt where
  root : Ptr
  head : Ptr
  tail : Ptr
  nelem : Nat
  deriving DecidableEq, Repr

abbrev RbtStore := Store MnRbtNode MnRbt

abbrev RbtProg := Prog MnRbtNode MnRbt

def rbtFlagRed : UInt64 := 0x0000000100000000

def rbtNodeInit (node : Addr) (key : UInt64) (data : Ptr) : RbtProg Unit :=
  place node
    { parent := none, left := none, right := none, prev := none, next := none,
      flags := 0, key := key, data := data }

def rbtInit : RbtProg Unit :=
  setVars fun _ => { root := none, head := none, tail := none, nelem := 0 }

def MnRbtNode.isRed (n : MnRbtNode) : Bool := n.flags &&& rbtFlagRed != 0

def MnRbtNode.setBlack (n : MnRbtNode) : MnRbtNode := { n with flags := n.flags &&& ~~~rbtFlagRed }

def MnRbtNode.setRed (n : MnRbtNode) : MnRbtNode := { n with flags := n.flags ||| rbtFlagRed }

def rbtIsRed : Ptr → RbtProg Bool
  | none => pure false
  | some a => do pure (← load (some a)).isRed

def rbtIsBlack : Ptr → RbtProg Bool
  | none => pure true
  | some a => do pure (!(← load (some a)).isRed)

def rbtSetBlack (n : Ptr) : RbtProg Unit := update n MnRbtNode.setBlack

def rbtSetRed (n : Ptr) : RbtProg Unit := update n MnRbtNode.setRed

def rbtSetColor (n1 n2 : Ptr) : RbtProg Unit := do
  if ← rbtIsRed n2 then rbtSetRed n1 else rbtSetBlack n1

def rbtAssign (slot : RbtProg Unit) (node : Ptr) : RbtProg Unit := do
  slot
  rbtSetRed node
  setVars fun t => { t with nelem := t.nelem + 1 }

/-- The loop of `rbt_find`. -/
def rbtFindFrom : Nat → Ptr → UInt64 → RbtProg Ptr
  | _, none, _ => pure none
  | 0, some _, _ => fault .outOfFuel
  | fuel + 1, some tmp, key => do
      let n ← load (some tmp)
      if key = n.key then
        pure (some tmp)
      else if key < n.key then
        rbtFindFrom fuel n.left key
      else
        rbtFindFrom fuel n.right key

def rbtFind (key : UInt64) : RbtProg Ptr := do
  rbtFindFrom (← bound) (← vars).root key

/-- The branch of `_rbt_insert` that ends on the left: the new node becomes the
left child of `source` and goes in front of it into the list. -/
def insertLeft (source target : Ptr) : RbtProg Unit := do
  rbtAssign (update source fun n => { n with left := target }) target
  update target fun n => { n with parent := source }
  let prev := (← load source).prev
  update target fun n => { n with prev := prev }
  if prev = none then
    setVars fun t => { t with head := target }
  else
    update prev fun n => { n with next := target }
  update target fun n => { n with next := source }
  update source fun n => { n with prev := target }

def insertRight (source target : Ptr) : RbtProg Unit := do
  rbtAssign (update source fun n => { n with right := target }) target
  update target fun n => { n with parent := source }
  let next := (← load source).next
  update target fun n => { n with next := next }
  if next = none then
    setVars fun t => { t with tail := target }
  else
    update next fun n => { n with prev := target }
  update target fun n => { n with prev := source }
  update source fun n => { n with next := target }

/-- The recursive descent, with the result code and the duplicate it reports. -/
def _rbtInsert : Nat → Ptr → Ptr → RbtProg (Int × Ptr)
  | 0, _, _ => fault .outOfFuel
  | fuel + 1, source, target => do
      if source = none then
        rbtAssign (setVars fun t => { t with root := target }) target
        setVars fun t => { t with head := target, tail := target }
        return (-2, none)
      else
        let targetKey := (← load target).key
        let n ← load source
        if targetKey < n.key then
          if n.left ≠ none then
            _rbtInsert fuel n.left target
          else
            insertLeft source target
            return (-1, none)
        else if targetKey > n.key then
          if n.right ≠ none then
            _rbtInsert fuel n.right target
          else
            insertRight source target
            return (1, none)
        else
          return (0, source)

/-- The choice between the root and the two slots of a parent, which the
rotations and the removal each spell out. -/
def replaceChild (p n new : Ptr) : RbtProg Unit := do
  if p = none then
    setVars fun t => { t with root := new }
  else if n = (← load p).left then
    update p fun x => { x with left := new }
  else
    update p fun x => { x with right := new }

def setParent (n p : Ptr) : RbtProg Unit :=
  if n = none then pure () else update n fun x => { x with parent := p }

def _rbtRotateLeft (n : Ptr) : RbtProg Unit := do
  let p := (← load n).parent
  let nr := (← load n).right
  let nrl := (← load nr).left
  check nr.isSome
  replaceChild p n nr
  update nr fun x => { x with parent := p }
  update n fun x => { x with parent := nr }
  update nr fun x => { x with left := n }
  setParent nrl n
  update n fun x => { x with right := nrl }

def _rbtRotateRight (n : Ptr) : RbtProg Unit := do
  let p := (← load n).parent
  let nl := (← load n).left
  let nlr := (← load nl).right
  check nl.isSome
  replaceChild p n nl
  update nl fun x => { x with parent := p }
  update n fun x => { x with parent := nl }
  update nl fun x => { x with right := n }
  setParent nlr n
  update n fun x => { x with left := nlr }

/-- Case 4 of the insertion fix-up. After the rotation the pair is computed
from the same node, one level further up than before. -/
def adjustCase4 (node p g : Ptr) : RbtProg (Ptr × Ptr) := do
  let pn ← load p
  let gn ← load g
  if node = pn.right ∧ p = gn.left then
    _rbtRotateLeft p
    let p := (← load node).parent
    check p.isSome
    return (p, (← load p).parent)
  if node = pn.left ∧ p = gn.right then
    _rbtRotateRight p
    let p := (← load node).parent
    check p.isSome
    return (p, (← load p).parent)
  return (p, g)

def adjustCase5 (node p g : Ptr) : RbtProg Unit := do
  if g = none then return ()
  let pn ← load p
  let gn ← load g
  if node = pn.left ∧ p = gn.left then
    _rbtRotateRight g
  else if node = pn.right ∧ p = gn.right then
    _rbtRotateLeft g
  rbtSetBlack p
  rbtSetRed g

/-- The uncle of a node with parent `p` and grandparent `g`. -/
def uncleOf (p g : Ptr) : RbtProg Ptr := do
  if g = none then
    return none
  let n ← load g
  if n.left ≠ p then
    return n.left
  return n.right

def _rbtAdjustOnInsert : Nat → Ptr → RbtProg Unit
  | 0, _ => fault .outOfFuel
  | fuel + 1, node => do
      if node = (← vars).root then
        rbtSetBlack node
      else if ← rbtIsBlack (← load node).parent then
        return ()
      else
        let p := (← load node).parent
        let g := (← load p).parent
        let u ← uncleOf p g
        if ← rbtIsRed u then
          rbtSetBlack p
          rbtSetBlack u
          rbtSetRed g
          _rbtAdjustOnInsert fuel g
        else
          check (← rbtIsBlack u)
          if g = none then
            return ()
          else
            let (p, g) ← adjustCase4 node p g
            adjustCase5 node p g

def rbtInsert (node : Ptr) : RbtProg (Int × Ptr) := do
  let (res, dup) ← _rbtInsert (← bound) (← vars).root node
  if res = 0 then
    check dup.isSome
    return (0, dup)
  else
    _rbtAdjustOnInsert (← bound) node
    return (res, dup)

def siblingOf (node parent : Ptr) : RbtProg Ptr := do
  let n ← load parent
  if node = n.left then pure n.right else pure n.left

/-- Case 2 of the removal fix-up: the parent and the sibling to go on with. -/
def adjustCase2 (node parent : Ptr) : RbtProg (Ptr × Ptr) := do
  let n ← load parent
  if node = n.left then
    let sibling := n.right
    if ← rbtIsRed sibling then
      rbtSetBlack sibling
      rbtSetRed parent
      _rbtRotateLeft parent
      let parent := (← load node).parent
      return (parent, ← siblingOf node parent)
    else
      return (parent, sibling)
  else
    let sibling := n.left
    if ← rbtIsRed sibling then
      rbtSetBlack sibling
      rbtSetRed parent
      _rbtRotateRight parent
      let parent := (← load node).parent
      return (parent, ← siblingOf node parent)
    else
      return (parent, sibling)

/-- `if (n != NULL) RBT_SETBLACK(n)`. -/
def setBlackUnlessNull (n : Ptr) : RbtProg Unit :=
  if n ≠ none then rbtSetBlack n else pure ()

/-- Case 5 of the removal fix-up. -/
def adjustCase5Remove (node parent sibling sl sr : Ptr) : RbtProg (Ptr × Ptr) := do
  if ← rbtIsBlack sibling then
    let n ← load parent
    if node = n.left ∧ (← rbtIsRed sl) ∧ (← rbtIsBlack sr) then
      rbtSetRed sibling
      setBlackUnlessNull sl
      _rbtRotateRight sibling
      let parent := (← load node).parent
      return (parent, ← siblingOf node parent)
    else if node = n.right ∧ (← rbtIsRed sr) ∧ (← rbtIsBlack sl) then
      rbtSetRed sibling
      setBlackUnlessNull sr
      _rbtRotateLeft sibling
      let parent := (← load node).parent
      return (parent, ← siblingOf node parent)
    else
      return (parent, sibling)
  else
    return (parent, sibling)

def adjustCase6 (node parent sibling : Ptr) : RbtProg Unit := do
  let sl := (← load sibling).left
  let sr := (← load sibling).right
  rbtSetColor sibling parent
  rbtSetBlack parent
  if node = (← load parent).left then
    setBlackUnlessNull sr
    _rbtRotateLeft parent
  else
    setBlackUnlessNull sl
    _rbtRotateRight parent

/-- The tests of cases 3 and 4 read all four colours; in the source the first
test that fails ends the reading. -/
def _rbtAdjustOnRemove : Nat → Ptr → RbtProg Unit
  | 0, _ => fault .outOfFuel
  | fuel + 1, node => do
      let parent := (← load node).parent
      if parent = none then
        return ()
      else
        let (parent, sibling) ← adjustCase2 node parent
        if sibling = none then
          return ()
        else
          let sl := (← load sibling).left
          let sr := (← load sibling).right
          if (← rbtIsBlack parent) ∧ (← rbtIsBlack sibling) ∧ (← rbtIsBlack sl) ∧
              (← rbtIsBlack sr) then
            rbtSetRed sibling
            check parent.isSome
            _rbtAdjustOnRemove fuel parent
          else if (← rbtIsRed parent) ∧ (← rbtIsBlack sibling) ∧ (← rbtIsBlack sl) ∧
              (← rbtIsBlack sr) then
            rbtSetBlack parent
            rbtSetRed sibling
          else
            let (parent, sibling) ← adjustCase5Remove node parent sibling sl sr
            adjustCase6 node parent sibling

def _rbtRemoveList (node : Ptr) : RbtProg Unit := do
  let n ← load node
  if n.next ≠ none then
    update n.next fun x => { x with prev := n.prev }
    if n.prev ≠ none then
      update n.prev fun x => { x with next := n.next }
  else
    setVars fun t => { t with tail := n.prev }
    if n.prev ≠ none then
      update n.prev fun x => { x with next := n.next }
  if n.prev ≠ none then
    update n.prev fun x => { x with next := n.next }
    if n.next ≠ none then
      update n.next fun x => { x with prev := n.prev }
  else
    setVars fun t => { t with head := n.next }
    if n.next ≠ none then
      update n.next fun x => { x with prev := n.prev }
  update node fun x => { x with prev := none }
  update node fun x => { x with next := none }

/-- `while (repl->right != NULL) repl = repl->right`. -/
def rightmost : Nat → Ptr → RbtProg Ptr
  | 0, _ => fault .outOfFuel
  | fuel + 1, repl => do
      let n ← load repl
      if n.right ≠ none then rightmost fuel n.right else pure repl

/-- `while (repl->left != NULL) repl = repl->left`. -/
def leftmost : Nat → Ptr → RbtProg Ptr
  | 0, _ => fault .outOfFuel
  | fuel + 1, repl => do
      let n ← load repl
      if n.left ≠ none then leftmost fuel n.left else pure repl

/-- The replacement of a node that is removed, and the only child it can have. -/
def findReplacement (node : Ptr) : RbtProg (Ptr × Ptr) := do
  let n ← load node
  if n.left ≠ none then
    let repl ← rightmost (← bound) n.left
    check ((← load repl).right = none)
    return (repl, (← load repl).left)
  else if n.right ≠ none then
    let repl ← leftmost (← bound) n.right
    check ((← load repl).left = none)
    return (repl, (← load repl).right)
  else
    return (none, none)

/-- `repl == NULL ? NULL : repl->parent`. -/
def replacementParent (repl : Ptr) : RbtProg Ptr := do
  if repl = none then return none else return (← load repl).parent

def fillReplacement (replparent repl replchild : Ptr) : RbtProg Unit := do
  if replparent = none then
    check (repl = none)
  else if repl = (← load replparent).left then
    update replparent fun x => { x with left := replchild }
  else
    update replparent fun x => { x with right := replchild }

/-- Puts the child of the replacement in its place. -/
def unlinkReplacement (repl replchild : Ptr) : RbtProg Unit := do
  let replparent ← replacementParent repl
  fillReplacement replparent repl replchild
  setParent replchild replparent

def adjustReplacement (repl replchild : Ptr) : RbtProg Unit := do
  if ← rbtIsBlack repl then
    if ← rbtIsRed replchild then
      rbtSetBlack replchild
    else if replchild ≠ none then
      _rbtAdjustOnRemove (← bound) replchild

/-- Puts the replacement in the place of the node. -/
def replaceNode (node repl : Ptr) : RbtProg Unit := do
  let nodeparent := (← load node).parent
  replaceChild nodeparent node repl
  setParent (← load node).left repl
  setParent (← load node).right repl
  if repl ≠ none then
    update repl fun x => { x with parent := nodeparent }
    let left := (← load node).left
    update repl fun x => { x with left := left }
    let right := (← load node).right
    update repl fun x => { x with right := right }
    let flags := (← load node).flags
    update repl fun x => { x with flags := flags }

def rbtRemoveNode (node : Ptr) : RbtProg Int := do
  let (repl, replchild) ← findReplacement node
  unlinkReplacement repl replchild
  adjustReplacement repl replchild
  replaceNode node repl
  _rbtRemoveList node
  update node fun x => { x with parent := none }
  update node fun x => { x with left := none }
  update node fun x => { x with right := none }
  setVars fun t => { t with nelem := t.nelem - 1 }
  return 0

/-- The loop of `rbt_fini`, which ends when there is no first node any more. -/
def finiFrom : Nat → Ptr → RbtProg Unit
  | _, none => pure ()
  | 0, some _ => fault .outOfFuel
  | fuel + 1, some e => do
      let _ ← rbtRemoveNode (some e)
      finiFrom fuel (← vars).head

def rbtFini : RbtProg Int := do
  finiFrom (← bound) (← vars).head
  return 0

def rbtRemoveKey (key : UInt64) : RbtProg Int := do
  let node ← rbtFind key
  if node = none then
    return 1
  else
    rbtRemoveNode node

end MnCommon.Rbt
