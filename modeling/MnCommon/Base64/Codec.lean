import MnCommon.Base64.Model

/-! What the loops of `base64.c` write, as functions of the characters. -/

namespace MnCommon.Base64

open Bytes (alphabetUrlStd codesUrlStd)
open ByteStrings (copyInto copyInto_append)
open Radix (octets sextets)

/-- The characters for some bytes. -/
def encodeChars (a : UInt8 → UInt8) : List UInt8 → List UInt8
  | [] => []
  | [i0] => encode1 a i0
  | [i0, i1] => encode2 a i0 i1
  | i0 :: i1 :: i2 :: rest => encode3 a i0 i1 i2 ++ encodeChars a rest

/-- Four characters that end the loop with -1. -/
def Refused (c0 c1 c2 c3 : UInt8) : Prop :=
  (c0 ||| c1 ||| c2 ||| c3) &&& 128 ≠ 0 ∨ (c0 ||| c1 ||| c2 ||| c3) &&& 224 = 0

instance (c0 c1 c2 c3 : UInt8) : Decidable (Refused c0 c1 c2 c3) := inferInstanceAs (Decidable (_ ∨ _))

/-- The answer for some characters, and the bytes that have been decoded. -/
def decodeChars (codes : UInt8 → UInt8) : List UInt8 → Int × List UInt8
  | c0 :: c1 :: c2 :: c3 :: rest =>
      if Refused c0 c1 c2 c3 then (-1, [])
      else if c0 = 61 ∨ c1 = 61 then (0, [])
      else if c2 = 61 then (0, octets [codes c0, codes c1])
      else if c3 = 61 then (0, octets [codes c0, codes c1, codes c2])
      else
        ((decodeChars codes rest).1, octets [codes c0, codes c1, codes c2, codes c3] ++ (decodeChars codes rest).2)
  | _ => (0, [])

variable {a codes : UInt8 → UInt8} {src dst chars front rest : List UInt8} {i k dstsz : Nat}

/-- The bytes behind the part that is done. -/
theorem getD_behind (length : front.length = i) (rest : List UInt8) (k : Nat) :
    (front ++ rest).getD (i + k) 0 = rest.getD k 0 := by
  rw [List.getD_eq_getElem?_getD, List.getElem?_append_right (length ▸ Nat.le_add_right i k), length,
    Nat.add_sub_cancel_left, List.getD_eq_getElem?_getD]

theorem encodeRest_spec (a : UInt8 → UInt8) (front rest dst : List UInt8) (length : front.length = i * 3) :
    encodeRest a (front ++ rest) (i + rest.length / 3)
        (encodeLoop a (front ++ rest) (rest.length / 3) i dst) = copyInto dst (i * 4) (encodeChars a rest) := by
  induction rest using encodeChars.induct generalizing front i dst with
  | case1 =>
      have size : (front ++ []).length % 3 = 0 := by
        rw [List.append_nil, length, Nat.mul_mod_left]
      rw [encodeRest, size, if_neg (by decide), if_neg (by decide)]
      rfl
  | case2 i0 =>
      have size : (front ++ [i0]).length % 3 = 1 := by
        rw [List.length_append, length, List.length_singleton]
        omega
      have first := getD_behind length [i0] 0
      have groups : [i0].length / 3 = 0 := by rw [List.length_singleton]
      rw [groups, encodeLoop, encodeRest, size, if_neg (by decide), if_pos rfl, Nat.add_zero, encodeChars]
      rw [Nat.add_zero] at first
      rw [first]
      rfl
  | case3 i0 i1 =>
      have size : (front ++ [i0, i1]).length % 3 = 2 := by
        rw [List.length_append, length, List.length_cons, List.length_singleton]
        omega
      have first := getD_behind length [i0, i1] 0
      have second := getD_behind length [i0, i1] 1
      have groups : [i0, i1].length / 3 = 0 := by rw [List.length_cons, List.length_singleton]
      rw [groups, encodeLoop, encodeRest, size, if_pos rfl, Nat.add_zero, encodeChars]
      rw [Nat.add_zero] at first
      rw [first, second]
      rfl
  | case4 i0 i1 i2 rest ih =>
      have groups : (i0 :: i1 :: i2 :: rest).length / 3 = rest.length / 3 + 1 := by
        simp only [List.length_cons]
        omega
      have first := getD_behind length (i0 :: i1 :: i2 :: rest) 0
      have second := getD_behind length (i0 :: i1 :: i2 :: rest) 1
      have third := getD_behind length (i0 :: i1 :: i2 :: rest) 2
      have further : (front ++ [i0, i1, i2]).length = (i + 1) * 3 := by
        rw [List.length_append, length]
        simp only [List.length_cons, List.length_nil]
        omega
      have later := ih (front ++ [i0, i1, i2]) (copyInto dst (i * 4) (encode3 a i0 i1 i2)) further
      rw [List.append_assoc] at later
      rw [groups, encodeLoop, Nat.add_comm _ 1, ← Nat.add_assoc]
      rw [Nat.add_zero] at first
      rw [first, second, third, encodeChars, copyInto_append]
      have width : i * 4 + (encode3 a i0 i1 i2).length = (i + 1) * 4 := by
        rw [encode3]
        simp only [List.length_cons, List.length_nil]
        omega
      rw [width, ← later]
      rfl

theorem encodeBody_eq (a : UInt8 → UInt8) (src dst : List UInt8) (room : (src.length / 3 + 1) * 4 ≤ dstsz) :
    encodeBody a src dst dstsz = (0, copyInto dst 0 (encodeChars a src)) := by
  have whole := encodeRest_spec a [] src dst (i := 0) rfl
  rw [List.nil_append, Nat.zero_add, Nat.zero_mul] at whole
  rw [encodeBody, if_neg (Nat.not_lt.mpr room), whole]

theorem length_encodeChars (a : UInt8 → UInt8) (src : List UInt8) :
    (encodeChars a src).length = (src.length + 2) / 3 * 4 := by
  induction src using encodeChars.induct with
  | case1 => rfl
  | case2 i0 => simp only [encodeChars, encode1, List.length_cons, List.length_nil]
  | case3 i0 i1 => simp only [encodeChars, encode2, List.length_cons, List.length_nil]
  | case4 i0 i1 i2 rest ih =>
      rw [encodeChars, List.length_append, ih, encode3]
      simp only [List.length_cons, List.length_nil]
      omega

/-- A byte that is written changes nothing at other indices. -/
def Steady (src : Source) : Prop := ∀ dst j v k, j ≠ k → src (dst.set j v) k = src dst k

theorem steady_apart (chars : List UInt8) : Steady (apart chars) := fun _ _ _ _ _ => rfl

theorem steady_shared : Steady shared := by
  intro dst j v k other
  rw [shared, shared, List.getD_eq_getElem?_getD, List.getElem?_set_ne other, List.getD_eq_getElem?_getD]

/-- The first byte of a round is not behind the first character of it. -/
theorem Steady.behind_one {src : Source} (steady : Steady src) (far : 1 ≤ k) (v : UInt8) :
    src (dst.set (i * 3) v) (i * 4 + k) = src dst (i * 4 + k) :=
  steady _ _ _ _ (by omega)

theorem Steady.behind_two {src : Source} (steady : Steady src) (far : 2 ≤ k) (v w : UInt8) :
    src ((dst.set (i * 3) v).set (i * 3 + 1) w) (i * 4 + k) = src dst (i * 4 + k) := by
  rw [steady _ _ _ _ (by omega)]
  exact steady.behind_one (Nat.le_of_succ_le far) v

/-- The characters that the loop has before it from the index `i` on. -/
def Reads (src : Source) (dst : List UInt8) (i : Nat) (chars : List UInt8) : Prop :=
  ∀ k, k < chars.length → src dst (i * 4 + k) = chars.getD k 0

/-- One round, in which no character is overwritten before it is read for the last time. -/
theorem decodeLoop_group {src : Source} (steady : Steady src) {c0 c1 c2 c3 : UInt8}
    (reads : Reads src dst i (c0 :: c1 :: c2 :: c3 :: rest)) :
    decodeLoop codes src ((c0 :: c1 :: c2 :: c3 :: rest).length / 4) i dstsz dst =
      if Refused c0 c1 c2 c3 then (-1, dstsz, dst)
      else if c0 = 61 ∨ c1 = 61 then (0, dstsz, dst)
      else if c2 = 61 then (0, dstsz + 1, copyInto dst (i * 3) (octets [codes c0, codes c1]))
      else if c3 = 61 then (0, dstsz + 2, copyInto dst (i * 3) (octets [codes c0, codes c1, codes c2]))
      else
        decodeLoop codes src (rest.length / 4) (i + 1) (dstsz + 3)
          (copyInto dst (i * 3) (octets [codes c0, codes c1, codes c2, codes c3])) := by
  have groups : (c0 :: c1 :: c2 :: c3 :: rest).length / 4 = rest.length / 4 + 1 := by
    simp only [List.length_cons]
    omega
  have many : ∀ k, k < 4 → k < (c0 :: c1 :: c2 :: c3 :: rest).length := by
    intro k low
    simp only [List.length_cons]
    omega
  have first : src dst (i * 4) = c0 := reads 0 (many 0 (by decide))
  have second : src dst (i * 4 + 1) = c1 := reads 1 (many 1 (by decide))
  have third : src dst (i * 4 + 2) = c2 := reads 2 (many 2 (by decide))
  have fourth : src dst (i * 4 + 3) = c3 := reads 3 (many 3 (by decide))
  rw [groups, decodeLoop]
  dsimp only
  rw [steady.behind_one (k := 1) (by decide), steady.behind_one (k := 2) (by decide),
    steady.behind_two (k := 2) (by decide), steady.behind_two (k := 3) (by decide), first, second, third, fourth]
  rfl

/-- The bytes of one round are in front of the characters of the next one. -/
theorem Reads.next {src : Source} (steady : Steady src) {c0 c1 c2 c3 : UInt8}
    (reads : Reads src dst i (c0 :: c1 :: c2 :: c3 :: rest)) (b0 b1 b2 : UInt8) :
    Reads src (copyInto dst (i * 3) [b0, b1, b2]) (i + 1) rest := by
  intro k low
  have kept := reads (k + 4) (by simpa using low)
  have behind : i * 4 + (k + 4) = (i + 1) * 4 + k := by omega
  rw [behind] at kept
  rw [copyInto, copyInto, copyInto, copyInto, steady _ _ _ _ (by omega), steady _ _ _ _ (by omega),
    steady _ _ _ _ (by omega), kept]
  rfl

/-- What the loop leaves, in a buffer of its own and in the one that it reads. -/
theorem decodeLoop_spec {src : Source} (steady : Steady src) (codes : UInt8 → UInt8) (chars dst : List UInt8)
    (i dstsz : Nat) (reads : Reads src dst i chars) :
    decodeLoop codes src (chars.length / 4) i dstsz dst =
      ((decodeChars codes chars).1, dstsz + (decodeChars codes chars).2.length,
        copyInto dst (i * 3) (decodeChars codes chars).2) := by
  fun_induction decodeChars codes chars generalizing i dstsz dst with
  | case1 c0 c1 c2 c3 rest refused =>
      rw [decodeLoop_group steady reads, if_pos refused]
      rfl
  | case2 c0 c1 c2 c3 rest accepted early =>
      rw [decodeLoop_group steady reads, if_neg accepted, if_pos early]
      rfl
  | case3 c0 c1 c3 rest accepted early =>
      rw [decodeLoop_group steady reads, if_neg accepted, if_neg early, if_pos rfl]
      rfl
  | case4 c0 c1 c2 rest accepted early more =>
      rw [decodeLoop_group steady reads, if_neg accepted, if_neg early, if_neg more, if_pos rfl]
      rfl
  | case5 c0 c1 c2 c3 rest accepted early more last ih =>
      rw [decodeLoop_group steady reads, if_neg accepted, if_neg early, if_neg more, if_neg last]
      dsimp only
      have later := ih _ _ (dstsz + 3) (reads.next steady (codes c0 <<< 2 ||| codes c1 >>> 4)
        (codes c1 <<< 4 ||| codes c2 >>> 2) (codes c2 <<< 6 ||| codes c3))
      have three : (octets [codes c0, codes c1, codes c2, codes c3]).length = 3 := rfl
      rw [copyInto_append, List.length_append, three, ← Nat.add_assoc, ← Nat.succ_mul]
      exact later
  | case6 chars few =>
      have none : chars.length / 4 = 0 := by
        match chars with
        | [] | [_] | [_, _] | [_, _, _] => simp
        | c0 :: c1 :: c2 :: c3 :: rest => exact absurd rfl (few c0 c1 c2 c3 rest)
      rw [none]
      rfl

/-- Not more is written than the characters before the index stand for. -/
theorem length_decodeChars (codes : UInt8 → UInt8) (chars : List UInt8) :
    (decodeChars codes chars).2.length ≤ chars.length / 4 * 3 := by
  fun_induction decodeChars codes chars with
  | case1 | case2 | case6 => exact Nat.zero_le _
  | case3 c0 c1 c3 rest =>
      simp only [octets, List.length_cons, List.length_nil]
      omega
  | case4 c0 c1 c2 rest =>
      simp only [octets, List.length_cons, List.length_nil]
      omega
  | case5 c0 c1 c2 c3 rest accepted early more last ih =>
      simp only [octets, List.length_append, List.length_cons, List.length_nil]
      omega

/-- The bytes of the characters, at the front of the memory. -/
theorem decodeBody_eq {src : Source} (steady : Steady src) (codes : UInt8 → UInt8) (reads : Reads src dst 0 chars)
    (whole : chars.length % 4 = 0) (room : chars.length ≤ dstsz / 3 * 4) :
    decodeBody codes src chars.length dst dstsz =
      ((decodeChars codes chars).1, (decodeChars codes chars).2.length,
        copyInto dst 0 (decodeChars codes chars).2) := by
  have fits : ¬ (chars.length % 4 ≠ 0 ∨ dstsz / 3 * 4 < chars.length) := by
    rw [not_or, not_not]
    exact ⟨whole, Nat.not_lt.mpr room⟩
  rw [decodeBody, if_neg fits, decodeLoop_spec steady codes chars dst 0 0 reads, Nat.zero_add, Nat.zero_mul]

theorem decodeBody_refused {src : Source} {srcsz : Nat} (codes : UInt8 → UInt8) (dst : List UInt8)
    (refused : srcsz % 4 ≠ 0 ∨ dstsz / 3 * 4 < srcsz) : decodeBody codes src srcsz dst dstsz = (-1, dstsz, dst) := by
  rw [decodeBody, if_pos refused]

end MnCommon.Base64
