import MnCommon.Memory.Lifecycle
import MnCommon.Memory.Run

/-! The resizable arrays of `array.c`, down to the bytes of their elements. The loops
of the source count in an `unsigned`, which is enough for lengths below `2 ^ 32`. -/

namespace MnCommon.Arrays

open Memory (Fault)

/-- Allocated memory. -/
structure Block where
  size : Nat
  byte : Nat → UInt8

/-- A callback gets the bytes of one element; it answers its result and the bytes
that it leaves there. -/
abbrev Callback := (Nat → UInt8) → Int × (Nat → UInt8)

abbrev Event := Memory.Event Nat

structure Mnarray where
  elsz : Nat
  elnum : Nat
  data : Option Block
  datasz : Nat
  init : Option Callback
  fini : Option Callback

/-- `MNARRAY_SMALL_DATASZ`. -/
def smallDatasz : Nat := 0x100000

def arrayFlagSave : UInt32 := 0x01

/-- The loops that double a size until it is enough. -/
def shiftUp (m v : Nat) (positive : 0 < m) : Nat :=
  if m < v then shiftUp (m * 2) v (Nat.mul_pos positive Nat.two_pos) else m
termination_by v - m

/-- `ARRAY_ENSURE_SET_DATASZ`. -/
def ensureSetDatasz (m v : Nat) : Nat :=
  if smallDatasz ≤ v then
    v
  else if usable : 0 < m ∧ m ≤ smallDatasz then
    shiftUp m v usable.1
  else
    shiftUp 1 v Nat.one_pos

/-- `malloc` and `realloc` do not fail; new memory holds `junk`. -/
def realloc (junk : Nat → UInt8) (data : Option Block) (sz : Nat) : Block where
  size := sz
  byte j :=
    match data with
    | none => junk j
    | some block => if j < block.size then block.byte j else junk j

/-- One element after a callback has been there. -/
def Block.write (block : Block) (offset elsz : Nat) (bytes : Nat → UInt8) : Block where
  size := block.size
  byte j := if offset ≤ j ∧ j < offset + elsz then bytes (j - offset) else block.byte j

/-- A callback on some elements in turn, up to a result that is not 0 if results are
looked at. Answers the last result and the elements that it has been called on. -/
def calls (elsz : Nat) (f : Callback) (heed : Bool) :
    List Nat → Option Block → Except Fault (Int × List Nat × Option Block)
  | [], data => .ok (0, [], data)
  | _ :: _, none => .error .nullDereference
  | i :: slots, some block =>
      if i * elsz + elsz ≤ block.size then
        let answer := f fun k => block.byte (i * elsz + k)
        let block := block.write (i * elsz) elsz answer.2
        if heed = true ∧ answer.1 ≠ 0 then
          .ok (answer.1, [i], some block)
        else
          (calls elsz f heed slots (some block)).map fun rest => (rest.1, i :: rest.2.1, rest.2.2)
      else
        .error .dangling

/-- The same for a callback that may be NULL. -/
def visit (kind : Nat → Event) (cb : Option Callback) (heed : Bool) (slots : List Nat) (ar : Mnarray) :
    Except Fault (Int × List Event × Mnarray) :=
  match cb with
  | none => .ok (0, [], ar)
  | some f => (calls ar.elsz f heed slots ar.data).map fun rest =>
      (rest.1, rest.2.1.map kind, { ar with data := rest.2.2 })

/-- The functions answer the calls that they made as well. -/
def arrayInit (junk : Nat → UInt8) (elsz elnum : Nat) (init fini : Option Callback) :
    Except Fault (Int × List Event × Mnarray) :=
  if elsz = 0 then
    .error .assertion
  else
    let datasz := elsz * elnum % 2 ^ 64
    let size := if smallDatasz ≤ datasz then datasz else if 0 < datasz then shiftUp 1 datasz Nat.one_pos else 0
    if 0 < elnum then
      let data := some (realloc junk none size)
      (visit .init init true (List.range elnum) ⟨elsz, elnum, data, size, init, fini⟩).map fun rest => (0, rest.2)
    else
      .ok (0, [], ⟨elsz, elnum, none, size, init, fini⟩)

/-- Where more elements are to fit in. -/
def grow (junk : Nat → UInt8) (newelnum : Nat) (ar : Mnarray) : Mnarray :=
  let newdatasz := ar.elsz * newelnum % 2 ^ 64
  if ar.datasz < newdatasz then
    let datasz := ensureSetDatasz ar.datasz newdatasz
    { ar with datasz := datasz, data := some (realloc junk ar.data datasz) }
  else
    ar

def release (ar : Mnarray) : Mnarray := { ar with datasz := 0, data := none }

/-- `array_ensure_len` without `ARRAY_FLAG_SAVE`. -/
def replaceAll (junk : Nat → UInt8) (newelnum : Nat) (ar : Mnarray) : Except Fault (List Event × Mnarray) := do
  let (_, finis, ar) ← visit .fini ar.fini false (List.range ar.elnum) ar
  let ar := if 0 < newelnum then grow junk newelnum ar else release ar
  let (_, inits, ar) ← visit .init ar.init false (List.range newelnum) ar
  return (finis ++ inits, { ar with elnum := newelnum })

/-- With it, to more elements. -/
def extend (junk : Nat → UInt8) (newelnum : Nat) (ar : Mnarray) : Except Fault (List Event × Mnarray) := do
  let ar := grow junk newelnum ar
  let (_, inits, ar) ← visit .init ar.init false (List.range' ar.elnum (newelnum - ar.elnum)) ar
  return (inits, { ar with elnum := newelnum })

/-- With it, to fewer elements. -/
def shrink (newelnum : Nat) (ar : Mnarray) : Except Fault (List Event × Mnarray) := do
  let (_, finis, ar) ← visit .fini ar.fini false (List.range' newelnum (ar.elnum - newelnum)) ar
  let ar := if 0 < newelnum then ar else release ar
  return (finis, { ar with elnum := newelnum })

def arrayEnsureLen (junk : Nat → UInt8) (newelnum : Nat) (flags : UInt32) (ar : Mnarray) :
    Except Fault (List Event × Mnarray) :=
  if flags &&& arrayFlagSave = 0 then
    replaceAll junk newelnum ar
  else if ar.elnum < newelnum then
    extend junk newelnum ar
  else if newelnum < ar.elnum then
    shrink newelnum ar
  else
    .ok ([], ar)

/-- The pointer to the new element is its offset. -/
def arrayIncr (junk : Nat → UInt8) (ar : Mnarray) : Except Fault (Nat × List Event × Mnarray) :=
  (arrayEnsureLen junk (ar.elnum + 1) arrayFlagSave ar).map fun rest =>
    (rest.2.elsz * (rest.2.elnum - 1), rest.1, rest.2)

/-- The errors of the source are 1 here: `TRRET` answers a number of the place. -/
def arrayDecr (junk : Nat → UInt8) (ar : Mnarray) : Except Fault (Int × List Event × Mnarray) :=
  if ar.elnum = 0 then
    .ok (1, [], ar)
  else
    (arrayEnsureLen junk (ar.elnum - 1) arrayFlagSave ar).map fun rest => (0, rest)

def arrayDecrFast (ar : Mnarray) : Except Fault (Int × List Event × Mnarray) :=
  if ar.elnum = 0 then
    .ok (1, [], ar)
  else
    let ar := { ar with elnum := ar.elnum - 1 }
    (visit .fini ar.fini false [ar.elnum] ar).map fun rest => (0, rest.2)

/-- The first result that is not 0 ends the loop and is answered. -/
def arrayClear (ar : Mnarray) : Except Fault (Int × List Event × Mnarray) :=
  (visit .fini ar.fini true (List.range ar.elnum) ar).map fun rest =>
    (rest.1, rest.2.1, if rest.1 = 0 then { rest.2.2 with elnum := 0 } else rest.2.2)

/-- `datasz` stays. -/
def arrayFini (ar : Mnarray) : Except Fault (Int × List Event × Mnarray) :=
  let done (ar : Mnarray) : Mnarray := { ar with data := none, init := none, fini := none, elnum := 0 }
  match ar.data with
  | none => .ok (0, [], done ar)
  | some _ => (visit .fini ar.fini false (List.range ar.elnum) ar).map fun rest => (0, rest.2.1, done rest.2.2)

end MnCommon.Arrays
