import Mathlib.Data.List.Basic

/-! The URL alphabet of `base64.c`. -/

namespace MnCommon.Bytes

/-- The character of the alphabet for six bits; the bits above them do not matter. -/
def alphabetUrlStd (bits : UInt8) : UInt8 :=
  let k := bits &&& 63
  if k < 26 then 65 + k else if k < 52 then 71 + k else if k < 62 then k - 4 else if k = 62 then 45 else 95

/-- The table has the value of 62 at the plus sign, not at the minus sign. -/
def codesUrlStd (c : UInt8) : UInt8 :=
  if 65 ≤ c ∧ c ≤ 90 then c - 65
  else if 97 ≤ c ∧ c ≤ 122 then c - 71
  else if 48 ≤ c ∧ c ≤ 57 then c + 4
  else if c = 43 then 62
  else if c = 95 then 63
  else 0

/-- `encode3`, `encode2` and `encode1` for the whole input. -/
def encodeAll : List UInt8 → List UInt8
  | [] => []
  | [i0] => [alphabetUrlStd (i0 >>> 2), alphabetUrlStd (i0 <<< 4), 61, 61]
  | [i0, i1] =>
      [alphabetUrlStd (i0 >>> 2), alphabetUrlStd (i0 <<< 4 ||| i1 >>> 4), alphabetUrlStd (i1 <<< 2), 61]
  | i0 :: i1 :: i2 :: rest =>
      alphabetUrlStd (i0 >>> 2) :: alphabetUrlStd (i0 <<< 4 ||| i1 >>> 4) ::
        alphabetUrlStd (i1 <<< 2 ||| i2 >>> 6) :: alphabetUrlStd i2 :: encodeAll rest

/-- What is written to `dst`, or the answer -1. -/
def mnbase64EncodeUrlStd (src : List UInt8) (dstsz : Nat) : Option (List UInt8) :=
  if dstsz < (src.length / 3 + 1) * 4 then none else some (encodeAll src)

/-- The loop of `mnbase64_decode_url_std` in place; no byte is read after it has been
written to. What it leaves is the answer, `*dstsz` and the memory. -/
def decodeLoop : Nat → Nat → Nat → List UInt8 → Int × Nat × List UInt8
  | 0, _, dstsz, data => (0, dstsz, data)
  | count + 1, i, dstsz, data =>
      let c0 := data.getD (i * 4) 0
      let c1 := data.getD (i * 4 + 1) 0
      let c2 := data.getD (i * 4 + 2) 0
      let c3 := data.getD (i * 4 + 3) 0
      let all := c0 ||| c1 ||| c2 ||| c3
      -- some byte is no ASCII, or all four are control characters
      if all &&& 128 ≠ 0 ∨ all &&& 224 = 0 then (-1, dstsz, data)
      else if c0 = 61 ∨ c1 = 61 then (0, dstsz, data)
      else
        let data := data.set (i * 3) (codesUrlStd c0 <<< 2 ||| codesUrlStd c1 >>> 4)
        if c2 = 61 then (0, dstsz + 1, data)
        else
          let data := data.set (i * 3 + 1) (codesUrlStd c1 <<< 4 ||| codesUrlStd c2 >>> 2)
          if c3 = 61 then (0, dstsz + 2, data)
          else
            let data := data.set (i * 3 + 2) (codesUrlStd c2 <<< 6 ||| codesUrlStd c3)
            decodeLoop count (i + 1) (dstsz + 3) data

/-- `*sz` is left alone where the size is refused. -/
def mnbase64DecodeUrlStdInplace (data : List UInt8) (sz : Nat) : Int × Nat × List UInt8 :=
  if sz % 4 ≠ 0 ∨ sz / 3 * 4 < sz then (-1, sz, data) else decodeLoop (sz / 4) 0 0 data

variable {data : List UInt8}

theorem decodeLoop_length (count i dstsz : Nat) (data : List UInt8) :
    (decodeLoop count i dstsz data).2.2.length = data.length := by
  induction count generalizing i dstsz data with
  | zero => rfl
  | succ count ih =>
      rw [decodeLoop]
      split_ifs
      · rfl
      · rfl
      · exact List.length_set
      · rw [List.length_set, List.length_set]
      · rw [ih, List.length_set, List.length_set, List.length_set]

theorem decodeLoop_dstsz (count i dstsz : Nat) (data : List UInt8) :
    (decodeLoop count i dstsz data).2.1 ≤ dstsz + 3 * count := by
  induction count generalizing i dstsz data with
  | zero => exact Nat.le_refl _
  | succ count ih =>
      rw [decodeLoop]
      split_ifs
      · exact Nat.le_add_right _ _
      · exact Nat.le_add_right _ _
      · change dstsz + 1 ≤ _
        omega
      · change dstsz + 2 ≤ _
        omega
      · apply Nat.le_trans (ih _ _ _)
        omega

theorem mnbase64DecodeUrlStdInplace_length (data : List UInt8) (sz : Nat) :
    (mnbase64DecodeUrlStdInplace data sz).2.2.length = data.length := by
  rw [mnbase64DecodeUrlStdInplace]
  split
  · rfl
  · exact decodeLoop_length _ _ _ _

/-- What is decoded is not longer. -/
theorem mnbase64DecodeUrlStdInplace_sz (data : List UInt8) (sz : Nat) :
    (mnbase64DecodeUrlStdInplace data sz).2.1 ≤ sz := by
  rw [mnbase64DecodeUrlStdInplace]
  split
  · exact Nat.le_refl sz
  · have bounded := decodeLoop_dstsz (sz / 4) 0 0 data
    omega

theorem encodeAll_length (src : List UInt8) : (encodeAll src).length = (src.length + 2) / 3 * 4 := by
  induction src using encodeAll.induct with
  | case1 => rfl
  | case2 i0 => simp [encodeAll]
  | case3 i0 i1 => simp [encodeAll]
  | case4 i0 i1 i2 rest ih =>
      rw [encodeAll, List.length_cons, List.length_cons, List.length_cons, List.length_cons, ih, List.length_cons,
        List.length_cons, List.length_cons]
      omega

/-- "AQID" is read as 1, 2, 3. -/
example : mnbase64DecodeUrlStdInplace [65, 81, 73, 68, 0] 4 = (0, 3, [1, 2, 3, 68, 0]) := by decide

end MnCommon.Bytes
