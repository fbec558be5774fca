import Mathlib.Data.Nat.Digits.Defs
import MnCommon.Bytes.Escape
import MnCommon.Bytestream.Model

/-! The writers of `json.c`, but those of floating-point numbers. -/

namespace MnCommon.JsonWriter

open Bytes (Strz bytesJsonEscape)
open Bytestream
open Memory (Fault)

/-- `%s`, which stops at a NUL. -/
def printedStr (s : Strz) : List UInt8 := s.chars.takeWhile (· ≠ 0)

def printedNat (n : Nat) : List UInt8 :=
  if n = 0 then [48] else (Nat.digits 10 n).reverse.map fun d => UInt8.ofNat (48 + d)

/-- `%ld`. -/
def printedInt (n : Int) : List UInt8 := if n < 0 then 45 :: printedNat n.natAbs else printedNat n.natAbs

/-- `"%s"` with its quotation marks. -/
def quoted (chars : List UInt8) : List UInt8 := 34 :: (chars ++ [34])

/-- `vsnprintf` reports an error where an `int` cannot count the characters. -/
def formatted (chars : List UInt8) : Option Text :=
  if short : chars.length < 2 ^ 31 then some ⟨chars, short⟩ else none

variable {E : Type} (sys : System E)

def mnjsonBytesPairBody (comma : List UInt8) (key value : Strz) (w : World E) : Except Fault (Answer E) :=
  let tmp := bytesJsonEscape value
  bytestreamNprintf sys (toSize (key.sz - 1 + 8 + tmp.sz - 1))
    (formatted (quoted (printedStr key) ++ 58 :: (quoted (printedStr tmp) ++ comma))) w

def mnjsonBytesPair0 (key value : Strz) (w : World E) : Except Fault (Answer E) :=
  mnjsonBytesPairBody sys [44] key value w

def mnjsonBytesPair1 (key value : Strz) (w : World E) : Except Fault (Answer E) :=
  mnjsonBytesPairBody sys [] key value w

def mnjsonBytesItemBody (comma : List UInt8) (value : Strz) (w : World E) : Except Fault (Answer E) :=
  let tmp := bytesJsonEscape value
  bytestreamNprintf sys (toSize (4 + tmp.sz - 1)) (formatted (quoted (printedStr tmp) ++ comma)) w

def mnjsonBytesItem0 (value : Strz) (w : World E) : Except Fault (Answer E) := mnjsonBytesItemBody sys [44] value w

def mnjsonBytesItem1 (value : Strz) (w : World E) : Except Fault (Answer E) := mnjsonBytesItemBody sys [] value w

def mnjsonIntPairBody (comma : List UInt8) (key : Strz) (value : Int64) (w : World E) : Except Fault (Answer E) :=
  bytestreamNprintf sys (toSize (key.sz - 1 + 64))
    (formatted (quoted (printedStr key) ++ 58 :: (printedInt value.toInt ++ comma))) w

def mnjsonIntPair0 (key : Strz) (value : Int64) (w : World E) : Except Fault (Answer E) :=
  mnjsonIntPairBody sys [44] key value w

def mnjsonIntPair1 (key : Strz) (value : Int64) (w : World E) : Except Fault (Answer E) :=
  mnjsonIntPairBody sys [] key value w

def mnjsonIntItemBody (comma : List UInt8) (value : Int64) (w : World E) : Except Fault (Answer E) :=
  bytestreamNprintf sys 64 (formatted (printedInt value.toInt ++ comma)) w

def mnjsonIntItem0 (value : Int64) (w : World E) : Except Fault (Answer E) := mnjsonIntItemBody sys [44] value w

def mnjsonIntItem1 (value : Int64) (w : World E) : Except Fault (Answer E) := mnjsonIntItemBody sys [] value w

/-- The letters are those of the source, `flse` for the one. -/
def mnjsonBoolPairBody (comma : List UInt8) (key : Strz) (value : Bool) (w : World E) : Except Fault (Answer E) :=
  bytestreamNprintf sys (toSize (key.sz - 1 + 8))
    (formatted (quoted (printedStr key) ++
      58 :: ((if value then [116, 114, 117, 101] else [102, 108, 115, 101]) ++ comma))) w

def mnjsonBoolPair0 (key : Strz) (value : Bool) (w : World E) : Except Fault (Answer E) :=
  mnjsonBoolPairBody sys [44] key value w

def mnjsonBoolPair1 (key : Strz) (value : Bool) (w : World E) : Except Fault (Answer E) :=
  mnjsonBoolPairBody sys [] key value w

def mnjsonBoolItemBody (comma : List UInt8) (value : Bool) (w : World E) : Except Fault (Answer E) :=
  bytestreamNprintf sys 8
    (formatted ((if value then [116, 114, 117, 101] else [102, 97, 108, 115, 101]) ++ comma)) w

def mnjsonBoolItem0 (value : Bool) (w : World E) : Except Fault (Answer E) := mnjsonBoolItemBody sys [44] value w

def mnjsonBoolItem1 (value : Bool) (w : World E) : Except Fault (Answer E) := mnjsonBoolItemBody sys [] value w

/-- The copy of a stream that `mnjson_bs_pair0` and the others escape. -/
def streamStrz (value : MnByteStream) : Strz := ⟨value.data.take value.eod.toNat⟩

def mnjsonBsPairBody (comma : List UInt8) (key : Strz) (value : MnByteStream) (w : World E) :
    Except Fault (Answer E) :=
  let tmp := bytesJsonEscape (streamStrz value)
  bytestreamNprintf sys (toSize (key.sz - 1 + 8 + tmp.sz - 1))
    (formatted (quoted (printedStr key) ++ 58 :: (quoted (printedStr tmp) ++ comma))) w

def mnjsonBsPair0 (key : Strz) (value : MnByteStream) (w : World E) : Except Fault (Answer E) :=
  mnjsonBsPairBody sys [44] key value w

def mnjsonBsPair1 (key : Strz) (value : MnByteStream) (w : World E) : Except Fault (Answer E) :=
  mnjsonBsPairBody sys [] key value w

def mnjsonBsItemBody (comma : List UInt8) (value : MnByteStream) (w : World E) : Except Fault (Answer E) :=
  let tmp := bytesJsonEscape (streamStrz value)
  bytestreamNprintf sys (toSize (4 + tmp.sz - 1)) (formatted (quoted (printedStr tmp) ++ comma)) w

def mnjsonBsItem0 (value : MnByteStream) (w : World E) : Except Fault (Answer E) := mnjsonBsItemBody sys [44] value w

def mnjsonBsItem1 (value : MnByteStream) (w : World E) : Except Fault (Answer E) := mnjsonBsItemBody sys [] value w

/-- A callback, with its user data. -/
abbrev WriterCb (E : Type) := World E → Except Fault (Answer E)

def mnjsonCbPairBody (key : Strz) (cb : WriterCb E) (w : World E) : Except Fault (Answer E) := do
  let (res, w) ← bytestreamNprintf sys (toSize (key.sz - 1 + 8)) (formatted (quoted (printedStr key) ++ [58])) w
  let (more, w) ← cb w
  return (res + more, w)

/-- `res += bytestream_cat(bs, 1, ",")`. -/
def catComma (res : Int) (w : World E) : Except Fault (Answer E) := do
  let (more, w) ← bytestreamCat sys ⟨[44], by decide⟩ w
  return (res + more, w)

def mnjsonCbPair0 (key : Strz) (cb : WriterCb E) (w : World E) : Except Fault (Answer E) := do
  let (res, w) ← mnjsonCbPairBody sys key cb w
  catComma sys res w

def mnjsonCbPair1 (key : Strz) (cb : WriterCb E) (w : World E) : Except Fault (Answer E) := mnjsonCbPairBody sys key cb w

def mnjsonCbItem0 (cb : WriterCb E) (w : World E) : Except Fault (Answer E) := do
  let (res, w) ← cb w
  catComma sys res w

def mnjsonCbItem1 (cb : WriterCb E) (w : World E) : Except Fault (Answer E) := cb w

/-- The byte is read also if there is none. -/
def mnjsonChopComma (w : World E) : Except Fault (Answer E) := do
  let ch ← peek (w.stream.eod - 1) w.stream
  if ch = 44 then
    return (-1, { w with stream := { w.stream with eod := w.stream.eod - 1 } })
  else
    return (0, w)

end MnCommon.JsonWriter
