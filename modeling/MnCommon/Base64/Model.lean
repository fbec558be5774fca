import MnCommon.ByteStrings.Model
import MnCommon.Radix.Sextets

/-! The functions of `base64.c` on buffers in memory. The sizes of buffers are small enough
for the products of the source to be what they are here. -/

namespace MnCommon.Base64

open Bytes (alphabetUrlStd codesUrlStd)
open ByteStrings (copyInto)

/-- `MN_BASE64_ALPHABET` has its 64 characters four times, so that the two bits above them do
not matter. -/
def alphabetOf (c62 c63 bits : UInt8) : UInt8 :=
  let k := bits &&& 63
  if k < 26 then 65 + k else if k < 52 then 71 + k else if k < 62 then k - 4 else if k = 62 then c62 else c63

def alphabetMime : UInt8 → UInt8 := alphabetOf 43 47

/-- The tables of values, with the places of 62 and 63. -/
def codesOf (c62 c63 c : UInt8) : UInt8 :=
  if 65 ≤ c ∧ c ≤ 90 then c - 65
  else if 97 ≤ c ∧ c ≤ 122 then c - 71
  else if 48 ≤ c ∧ c ≤ 57 then c + 4
  else if c = c62 then 62
  else if c = c63 then 63
  else 0

def codesMime : UInt8 → UInt8 := codesOf 43 47

def encode3 (a : UInt8 → UInt8) (i0 i1 i2 : UInt8) : List UInt8 :=
  [a (i0 >>> 2), a (i0 <<< 4 ||| i1 >>> 4), a (i1 <<< 2 ||| i2 >>> 6), a i2]

def encode2 (a : UInt8 → UInt8) (i0 i1 : UInt8) : List UInt8 :=
  [a (i0 >>> 2), a (i0 <<< 4 ||| i1 >>> 4), a (i1 <<< 2), 61]

def encode1 (a : UInt8 → UInt8) (i0 : UInt8) : List UInt8 := [a (i0 >>> 2), a (i0 <<< 4), 61, 61]

/-- The loop of `MNBASE64_ENCODE_BODY`, from the index `i` on. -/
def encodeLoop (a : UInt8 → UInt8) (src : List UInt8) : Nat → Nat → List UInt8 → List UInt8
  | 0, _, dst => dst
  | count + 1, i, dst =>
      encodeLoop a src count (i + 1)
        (copyInto dst (i * 4) (encode3 a (src.getD (i * 3) 0) (src.getD (i * 3 + 1) 0) (src.getD (i * 3 + 2) 0)))

/-- The one or two bytes that are left from the index `i` on. -/
def encodeRest (a : UInt8 → UInt8) (src : List UInt8) (i : Nat) (dst : List UInt8) : List UInt8 :=
  if src.length % 3 = 2 then copyInto dst (i * 4) (encode2 a (src.getD (i * 3) 0) (src.getD (i * 3 + 1) 0))
  else if src.length % 3 = 1 then copyInto dst (i * 4) (encode1 a (src.getD (i * 3) 0))
  else dst

/-- `MNBASE64_ENCODE_BODY`. What it leaves is the answer and the memory at `dst`. -/
def encodeBody (a : UInt8 → UInt8) (src dst : List UInt8) (dstsz : Nat) : Int × List UInt8 :=
  if dstsz < (src.length / 3 + 1) * 4 then (-1, dst)
  else (0, encodeRest a src (src.length / 3) (encodeLoop a src (src.length / 3) 0 dst))

def mnbase64EncodeMime : List UInt8 → List UInt8 → Nat → Int × List UInt8 := encodeBody alphabetMime

def mnbase64EncodeUrlStd : List UInt8 → List UInt8 → Nat → Int × List UInt8 := encodeBody alphabetUrlStd

/-- What `src[k]` is while there is that much in the memory at `dst`. -/
abbrev Source := List UInt8 → Nat → UInt8

/-- A buffer of its own, which stays as it is. -/
def apart (src : List UInt8) : Source := fun _ k => src.getD k 0

/-- The buffer that is written to. -/
def shared : Source := fun dst k => dst.getD k 0

/-- The loop over `MNBASE64_DECODE_LOOP` from the index `i` on, with `*dstsz`. What it leaves is the
answer, `*dstsz` and the memory at `dst`. -/
def decodeLoop (codes : UInt8 → UInt8) (src : Source) : Nat → Nat → Nat → List UInt8 → Int × Nat × List UInt8
  | 0, _, dstsz, dst => (0, dstsz, dst)
  | count + 1, i, dstsz, dst =>
      let all := src dst (i * 4) ||| src dst (i * 4 + 1) ||| src dst (i * 4 + 2) ||| src dst (i * 4 + 3)
      -- some byte is no ASCII, or all four are control characters
      if all &&& 128 ≠ 0 ∨ all &&& 224 = 0 then (-1, dstsz, dst)
      else if src dst (i * 4) = 61 ∨ src dst (i * 4 + 1) = 61 then (0, dstsz, dst)
      else
        let dst := dst.set (i * 3) (codes (src dst (i * 4)) <<< 2 ||| codes (src dst (i * 4 + 1)) >>> 4)
        if src dst (i * 4 + 2) = 61 then (0, dstsz + 1, dst)
        else
          let dst := dst.set (i * 3 + 1) (codes (src dst (i * 4 + 1)) <<< 4 ||| codes (src dst (i * 4 + 2)) >>> 2)
          if src dst (i * 4 + 3) = 61 then (0, dstsz + 2, dst)
          else
            let dst := dst.set (i * 3 + 2) (codes (src dst (i * 4 + 2)) <<< 6 ||| codes (src dst (i * 4 + 3)))
            decodeLoop codes src count (i + 1) (dstsz + 3) dst

/-- The body of both decoders; `*dstsz` is left alone where the sizes are refused. -/
def decodeBody (codes : UInt8 → UInt8) (src : Source) (srcsz : Nat) (dst : List UInt8) (dstsz : Nat) :
    Int × Nat × List UInt8 :=
  if srcsz % 4 ≠ 0 ∨ dstsz / 3 * 4 < srcsz then (-1, dstsz, dst) else decodeLoop codes src (srcsz / 4) 0 0 dst

def mnbase64DecodeMime : Source → Nat → List UInt8 → Nat → Int × Nat × List UInt8 := decodeBody codesMime

def mnbase64DecodeUrlStd : Source → Nat → List UInt8 → Nat → Int × Nat × List UInt8 := decodeBody codesUrlStd

def mnbase64DecodeMimeInplace (s : List UInt8) (sz : Nat) : Int × Nat × List UInt8 := mnbase64DecodeMime shared sz s sz

def mnbase64DecodeUrlStdInplace (s : List UInt8) (sz : Nat) : Int × Nat × List UInt8 :=
  mnbase64DecodeUrlStd shared sz s sz

theorem alphabetUrlStd_eq : alphabetUrlStd = alphabetOf 45 95 := rfl

/-- The table knows the plus sign and not the minus sign. -/
theorem codesUrlStd_eq : codesUrlStd = codesOf 43 95 := rfl

/-- "AQID" is read as 1, 2, 3, and written so. -/
example : mnbase64DecodeMime (apart [65, 81, 73, 68]) 4 [7, 7, 7, 7] 4 = (0, 3, [1, 2, 3, 7]) := by decide

example : mnbase64EncodeMime [1, 2, 3] (List.replicate 8 7) 8 = (0, [65, 81, 73, 68, 7, 7, 7, 7]) := by decide

end MnCommon.Base64
