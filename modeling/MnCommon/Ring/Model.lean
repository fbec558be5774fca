import MnCommon.Arrays.Model

/-! The ring of `ring.c`: an array with a cursor. The cursor and the iterators are `unsigned`,
the arithmetic on them is that of `signed`, where an overflow is undefined. -/

namespace MnCommon.Ring

open Arrays

inductive Fault where
  | overflow
  | division
  | outOfFuel
  deriving DecidableEq, Repr

/-- The `data` of the iterators is not looked at. -/
structure Mnring where
  a : Mnarray
  cursor : UInt32

/-- The result of a `signed` operation. -/
def signed (x : Int) : Except Fault Int :=
  if -2 ^ 31 ≤ x ∧ x < 2 ^ 31 then .ok x else .error .overflow

/-- `x % mod`, whose sign is that of `x`. -/
def remainder (x mod : Int) : Except Fault Int :=
  if mod = 0 then
    .error .division
  else if x = -2 ^ 31 ∧ mod = -1 then
    .error .overflow
  else
    .ok (x.tmod mod)

/-- `((x % mod) + mod) % mod`. -/
def around (x mod : Int) : Except Fault Int := do
  let rest ← remainder x mod
  let shifted ← signed (rest + mod)
  remainder shifted mod

/-- `(signed)ARRAY_ELNUM(&ring->a)`. -/
def elnum (ring : Mnring) : Int := (ring.a.elnum : Int).bmod (2 ^ 32)

/-- The pointer to the element is its offset; NULL is `none`. -/
def arrayGetIter (ar : Mnarray) (it : UInt32) : Option Nat :=
  if it.toNat < ar.elnum then some (ar.elsz * it.toNat % 2 ^ 64) else none

def mnringInit (junk : Nat → UInt8) (elsz elnum : Nat) (init fini : Option Callback) :
    Except Memory.Fault (List Event × Mnring) :=
  match arrayInit junk elsz elnum init fini with
  | .error fault => .error fault
  | .ok (res, events, a) => if res = 0 then .ok (events, ⟨a, 0⟩) else .error .abort

/-- The addition to the cursor and the remainder behind it are `unsigned`. -/
def mnringAdvance (incr : Int32) (ring : Mnring) : Except Fault (Option Nat × Mnring) := do
  let mod := elnum ring
  let incr ← around incr.toInt mod
  let cursor := (ring.cursor + UInt32.ofInt incr) % UInt32.ofInt mod
  return (arrayGetIter ring.a cursor, { ring with cursor := cursor })

/-- The functions of an iterator answer it as well. -/
def mnringFirst (ring : Mnring) : Option Nat × UInt32 :=
  (arrayGetIter ring.a ring.cursor, ring.cursor)

/-- The index `step` elements on from another one. -/
def stepped (ring : Mnring) (it : UInt32) (step : Int) : Except Fault Int := do
  let moved ← signed (it.toInt32.toInt + step)
  around moved (elnum ring)

def mnringLast (ring : Mnring) : Except Fault (Option Nat × UInt32) := do
  let it := UInt32.ofInt (← stepped ring ring.cursor (-1))
  return (arrayGetIter ring.a it, it)

def mnringNext (ring : Mnring) (it : UInt32) : Except Fault (Option Nat × UInt32) := do
  let it := UInt32.ofInt (← stepped ring it 1)
  return (arrayGetIter ring.a it, it)

def mnringNextStop (ring : Mnring) (it : UInt32) : Except Fault (Option Nat × UInt32) := do
  let i ← stepped ring it 1
  if i = ring.cursor.toInt32.toInt then
    return (none, it)
  let it := UInt32.ofInt i
  return (arrayGetIter ring.a it, it)

def mnringPrev (ring : Mnring) (it : UInt32) : Except Fault (Option Nat × UInt32) := do
  let it := UInt32.ofInt (← stepped ring it (-1))
  return (arrayGetIter ring.a it, it)

def mnringPrevStop (ring : Mnring) (it : UInt32) : Except Fault (Option Nat × UInt32) := do
  let i ← stepped ring it (-1)
  let j ← stepped ring ring.cursor (-1)
  if i = j then
    return (none, it)
  let it := UInt32.ofInt i
  return (arrayGetIter ring.a it, it)

/-- `for (p = first; p != NULL; p = next(ring, &it))`: the elements that its body sees. -/
def walk (next : UInt32 → Except Fault (Option Nat × UInt32)) :
    Nat → Option Nat × UInt32 → Except Fault (List Nat)
  | 0, _ => .error .outOfFuel
  | _ + 1, (none, _) => .ok []
  | fuel + 1, (some p, it) => do
      let answer ← next it
      let seen ← walk next fuel answer
      return p :: seen

def forward (fuel : Nat) (ring : Mnring) : Except Fault (List Nat) :=
  walk (mnringNextStop ring) fuel (mnringFirst ring)

def backward (fuel : Nat) (ring : Mnring) : Except Fault (List Nat) := do
  let answer ← mnringLast ring
  walk (mnringPrevStop ring) fuel answer

end MnCommon.Ring
