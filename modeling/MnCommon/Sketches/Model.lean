import MnCommon.Bytes.Fasthash

/-! The count-min sketch of `cm.c`. Its counters are of type `int64_t`. -/

namespace MnCommon.Sketches

open Bytes

inductive Fault where
  | outOfBounds
  | overflow
  | abort
  deriving DecidableEq, Repr

structure Cm where
  w : UInt64
  d : UInt64
  v : List Int
  deriving DecidableEq, Repr

abbrev Key := List UInt8

def cmMax : Int := 2 ^ 63 - 1

/-- `calloc` tells for how many counters it finds memory. -/
def cmInit (calloc : Nat → Bool) (w d : UInt64) : Except Fault Cm :=
  if calloc (w * d).toNat then .ok ⟨w, d, List.replicate (w * d).toNat 0⟩ else .error .abort

/-- The index of the counter of a key in row `i`. -/
def cmIndex (cm : Cm) (key : Key) (i : Nat) : UInt64 :=
  cm.d * UInt64.ofNat i + fasthash (UInt64.ofNat i) key % cm.d

def cmRead (cm : Cm) (k : UInt64) : Except Fault Int :=
  match cm.v[k.toNat]? with
  | none => .error .outOfBounds
  | some v => .ok v

/-- The body of the loop of `cm_add`. -/
def cmAddRow (key : Key) (val : Int) (cm : Cm) (i : Nat) : Except Fault Cm := do
  let v ← cmRead cm (cmIndex cm key i)
  if -2 ^ 63 ≤ v + val ∧ v + val < 2 ^ 63 then
    return { cm with v := cm.v.set (cmIndex cm key i).toNat (v + val) }
  else
    throw .overflow

def cmAdd (cm : Cm) (key : Key) (val : Int) : Except Fault Cm :=
  (List.range cm.w.toNat).foldlM (cmAddRow key val) cm

/-- The body of the loop of `cm_get`. -/
def cmGetRow (cm : Cm) (key : Key) (val : Int) (i : Nat) : Except Fault Int := do
  let v ← cmRead cm (cmIndex cm key i)
  return min val v

/-- What `*val` holds afterwards. -/
def cmGet (cm : Cm) (key : Key) (val : Int) : Except Fault Int :=
  (List.range cm.w.toNat).foldlM (cmGetRow cm key) val

/-- A sequence of calls of `cm_add`. -/
def cmAdds (cm : Cm) (stream : List (Key × Int)) : Except Fault Cm :=
  stream.foldlM (fun cm item => cmAdd cm item.1 item.2) cm

end MnCommon.Sketches
