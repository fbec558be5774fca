import MnCommon.Bytestream.Append

/-! The dumps of `dumpm.c`: bytes in hexadecimal on the standard error stream or in a byte stream, and single bits. -/

namespace MnCommon.Dumpm

open Memory (Fault)
open Bytestream (AppendOp Piece System Text World appendAll)

/-- In the locale that a program starts in. -/
def isprint (c : UInt8) : Bool := 32 ≤ c && c ≤ 126

def shown (c : UInt8) : UInt8 := if isprint c then c else 32

def hexDigit (n : Nat) : UInt8 := if n < 10 then n.toUInt8 + 48 else n.toUInt8 + 87

/-- `%02x` -/
def hex2 (c : UInt8) : List UInt8 := [hexDigit (c.toNat / 16), hexDigit (c.toNat % 16)]

/-- `%016lx` -/
def hex16 (n : UInt64) : List UInt8 := (List.range 16).map fun i => hexDigit (n.toNat / 16 ^ (15 - i) % 16)

/-- The `n` bytes from `start` on, if these are there. -/
def readAt (m : List UInt8) (start n : Nat) : Except Fault (List UInt8) :=
  if start + n ≤ m.length then .ok ((m.drop start).take n) else .error .dangling

section Hexadecimal

/-- The conversion of a `size_t` to an `int`. -/
def toInt (n : UInt64) : Int := (n.toNat : Int).bmod (2 ^ 32)

/-- `div`, of which the result is undefined for no divisor and where the quotient is no `int`. -/
def div (n l : Int) : Except Fault (Int × Int) :=
  if l = 0 ∨ n = -2 ^ 31 ∧ l = -1 then .error .abort else .ok (n.tdiv l, n.tmod l)

/-- The bytes of a line, `n` of them, in a table that is `l` bytes wide. -/
def dumpl (m : List UInt8) (start : Nat) (n l : UInt64) : Except Fault (List UInt8) := do
  if l < n then
    throw .assertion
  let bytes ← readAt m start n.toNat
  return bytes.flatMap (fun c => 32 :: hex2 c) ++ List.replicate (3 * (l.toNat - n.toNat)) 32 ++ 124 :: bytes.map shown

/-- The lines that are full, from `i` on. The memory `m` lies at `addr`. -/
def dumpLines (addr : UInt64) (m : List UInt8) (l : UInt64) : Nat → Nat → Except Fault (List UInt8)
  | 0, _ => .ok []
  | todo + 1, i => do
      let line ← dumpl m (i * l.toNat) l l
      let rest ← dumpLines addr m l todo (i + 1)
      return hex16 (addr + UInt64.ofNat i * l) ++ 58 :: line ++ 10 :: rest

/-- The text that is written. -/
def dumpm (addr : UInt64) (m : List UInt8) (n l : UInt64) : Except Fault (List UInt8) := do
  let (quot, rem) ← div (toInt n) (toInt l)
  let lines ← dumpLines addr m l quot.toNat 0
  if 0 < rem then
    let last ← dumpl m (quot.toNat * l.toNat) (UInt64.ofNat rem.toNat) l
    return lines ++ hex16 (addr + UInt64.ofNat quot.toNat * l) ++ 58 :: last ++ [10, 10]
  else
    return lines ++ [10, 10]

end Hexadecimal

section Stream

/-- A text of at most 64 characters. -/
def format (chars : List UInt8) : Text := ⟨chars.take 64, (List.length_take_le 64 chars).trans_lt (by decide)⟩

def blanks : Piece := ⟨[32, 32, 32], by decide⟩

def bar : Piece := ⟨[124], by decide⟩

def newline : Piece := ⟨[10], by decide⟩

/-- Three characters of a string that has two. -/
def newlines : Piece := ⟨[10, 10, 0], by decide⟩

/-- The calls that are made for a line; what they answer is not looked at. -/
def bytestreamDumpl (m : List UInt8) (start : Nat) (n l : UInt64) : Except Fault (List AppendOp) := do
  if l < n then
    throw .assertion
  let bytes ← readAt m start n.toNat
  let picture : List AppendOp :=
    if 0 < n then
      .cat bar :: bytes.map fun c => .nprintf 2 (format [shown c])
    else
      [.nprintf 2 (format [124])]
  return bytes.map (fun c => .nprintf 8 (format (32 :: hex2 c))) ++
    List.replicate (l.toNat - n.toNat) (.cat blanks) ++ picture

def bytestreamDumpLines (addr : UInt64) (m : List UInt8) (l : UInt64) : Nat → Nat → Except Fault (List AppendOp)
  | 0, _ => .ok []
  | todo + 1, i => do
      let line ← bytestreamDumpl m (i * l.toNat) l l
      let rest ← bytestreamDumpLines addr m l todo (i + 1)
      return .nprintf 32 (format (hex16 (addr + UInt64.ofNat i * l) ++ [58])) :: line ++ .cat newline :: rest

def bytestreamDumpmCalls (addr : UInt64) (m : List UInt8) (n l : UInt64) : Except Fault (List AppendOp) := do
  let (quot, rem) ← div (toInt n) (toInt l)
  let lines ← bytestreamDumpLines addr m l quot.toNat 0
  if 0 < rem then
    let last ← bytestreamDumpl m (quot.toNat * l.toNat) (UInt64.ofNat rem.toNat) l
    let label := hex16 (addr + UInt64.ofNat quot.toNat * l) ++ [58]
    return lines ++ .nprintf 32 (format label) :: last ++ [.cat newlines]
  else
    return lines ++ [.cat newlines]

def bytestreamDumpm {E : Type} (sys : System E) (addr : UInt64) (m : List UInt8) (n l : UInt64) (w : World E) :
    Except Fault (World E) := do
  let calls ← bytestreamDumpmCalls addr m n l
  appendAll sys calls w

end Stream

section Bits

/-- `MNDUMP_BIT` -/
def bit (c mask : UInt8) : UInt8 := if c &&& mask ≠ 0 then 49 else 48

/-- `MNDUMP_BITS_LE` -/
def bitsLe (c : UInt8) : List UInt8 :=
  [bit c 0x01, bit c 0x02, bit c 0x04, bit c 0x08, 32, bit c 0x10, bit c 0x20, bit c 0x40, bit c 0x80, 32]

/-- The bits that are left over, as many as there are, filled up to a byte. -/
def bitsLeft (c : UInt8) (rembits : Nat) : List UInt8 :=
  (List.range rembits).map (fun i => bit c (1 <<< UInt8.ofNat (7 - i))) ++ List.replicate (8 - rembits) 32 ++ [32]

/-- The characters behind the last byte would not be in the buffer of 128. -/
def mndumpBitsOneLine (addr : UInt64) (m : List UInt8) (start sz : Nat) : Except Fault (List UInt8) := do
  if 64 < sz then
    throw .assertion
  let bytesz := sz / 8
  let rembits := sz % 8
  let bytes ← readAt m start bytesz
  let left ← readAt m (start + bytesz) (if rembits = 0 then 0 else 1)
  let full := bytesz + left.length
  let line := hex16 addr ++ [58, 32] ++ bytes.flatMap bitsLe ++ left.flatMap (bitsLeft · rembits) ++
    List.replicate (9 * (8 - full)) 32 ++ 124 :: bytes.map shown ++ [10]
  if line.length ≤ 128 then
    return line
  else
    throw .dangling

/-- The loop over the full lines, with the index of the next byte. It answers the index too. -/
def bitLines (addr : UInt64) (m : List UInt8) (bytesz : Nat) : Nat → UInt32 → Except Fault (List UInt8 × UInt32)
  | 0, _ => .error .outOfFuel
  | fuel + 1, byteidx => do
      if (byteidx + 8).toNat ≤ bytesz then
        let line ← mndumpBitsOneLine (addr + byteidx.toUInt64) m byteidx.toNat 64
        let (rest, last) ← bitLines addr m bytesz fuel (byteidx + 8)
        return (line ++ rest, last)
      else
        return ([], byteidx)

/-- The full lines, if there are any. -/
def fullLines (addr : UInt64) (m : List UInt8) (bytesz fuel : Nat) : Except Fault (List UInt8 × UInt32) :=
  if 8 ≤ bytesz then bitLines addr m bytesz fuel 0 else .ok ([], 0)

def mndumpBits (fuel : Nat) (addr : UInt64) (m : List UInt8) (sz : Nat) : Except Fault (List UInt8) := do
  let bytesz := sz / 8
  if 0 < bytesz then
    let (lines, byteidx) ← fullLines addr m bytesz fuel
    if sz % 64 = 0 then
      return lines ++ [10]
    else
      let last ← mndumpBitsOneLine (addr + byteidx.toUInt64) m byteidx.toNat (sz % 64)
      return lines ++ last ++ [10]
  else
    let line ← mndumpBitsOneLine addr m 0 sz
    return line ++ [10]

end Bits

end MnCommon.Dumpm
