import MnCommon.Base64.RoundTrip

/-! Which characters the decoders accept, and that a buffer may be decoded into itself. -/

namespace MnCommon.Base64

open Bytes (alphabetUrlStd codesUrlStd)
open ByteStrings (copyInto copyInto_front length_copyInto take_copyInto)
open Radix

/-- All fours up to the first one with an equals sign hold ASCII characters, of which at least one is no
control character. -/
def Passed : List UInt8 → Prop
  | c0 :: c1 :: c2 :: c3 :: rest =>
      (∀ c ∈ [c0, c1, c2, c3], c < 128) ∧ (∃ c ∈ [c0, c1, c2, c3], 32 ≤ c) ∧
        (61 ∉ [c0, c1, c2, c3] → Passed rest)
  | _ => True

/-- Characters of an alphabet that fill their bytes up with zeros and their fours with equals signs. -/
def Canonical (a : UInt8 → UInt8) (chars : List UInt8) : Prop := ∃ groups, Filled groups ∧ chars = spelled a groups

/-- What is encoded again into the memory at `out`. -/
def Reencoded (encode : List UInt8 → List UInt8 → Nat → Int × List UInt8) (decoded : Nat × List UInt8)
    (out : List UInt8) (outsz : Nat) : List UInt8 :=
  (encode (decoded.2.take decoded.1) out outsz).2.take ((decoded.1 + 2) / 3 * 4)

variable {a codes : UInt8 → UInt8} {chars src dst out : List UInt8} {dstsz outsz : Nat}

theorem passed_refused {c0 c1 c2 c3 : UInt8} (refused : Refused c0 c1 c2 c3) (rest : List UInt8) :
    ¬ Passed (c0 :: c1 :: c2 :: c3 :: rest) := by
  rintro ⟨ascii, printable, _⟩
  exact accepted_iff.mpr ⟨ascii, printable⟩ refused

theorem passed_accepted {c0 c1 c2 c3 : UInt8} (pass : ¬ Refused c0 c1 c2 c3) (rest : List UInt8) :
    Passed (c0 :: c1 :: c2 :: c3 :: rest) ↔ (61 ∉ [c0, c1, c2, c3] → Passed rest) := by
  rcases accepted_iff.mp pass with ⟨ascii, printable⟩
  rw [Passed]
  exact ⟨fun passed => passed.2.2, fun later => ⟨ascii, printable, later⟩⟩

theorem decodeChars_passed (codes : UInt8 → UInt8) (chars : List UInt8) :
    (decodeChars codes chars).1 = 0 ↔ Passed chars := by
  fun_induction decodeChars codes chars with
  | case1 c0 c1 c2 c3 rest refused => exact iff_of_false (by simp) (passed_refused refused rest)
  | case2 c0 c1 c2 c3 rest pass early =>
      rw [passed_accepted pass]
      apply iff_of_true rfl
      intro without
      rcases early with rfl | rfl <;> simp at without
  | case3 c0 c1 c3 rest early pass =>
      rw [passed_accepted pass]
      apply iff_of_true rfl
      intro without
      simp at without
  | case4 c0 c1 c2 rest early more pass =>
      rw [passed_accepted pass]
      apply iff_of_true rfl
      intro without
      simp at without
  | case5 c0 c1 c2 c3 rest pass early more last ih =>
      rw [not_or] at early
      have without : 61 ∉ [c0, c1, c2, c3] := by
        simp only [List.mem_cons, List.not_mem_nil, or_false, not_or]
        exact ⟨Ne.symm early.1, Ne.symm early.2, Ne.symm more, Ne.symm last⟩
      rw [passed_accepted pass, ← ih]
      exact ⟨fun later _ => later, fun later => later without⟩
  | case6 chars few =>
      rcases chars with _ | ⟨c0, _ | ⟨c1, _ | ⟨c2, _ | ⟨c3, rest⟩⟩⟩⟩
      · exact iff_of_true rfl trivial
      · exact iff_of_true rfl trivial
      · exact iff_of_true rfl trivial
      · exact iff_of_true rfl trivial
      · exact absurd rfl (few c0 c1 c2 c3 rest)

/-- Both answers of a decoder. -/
theorem decodeBody_accepts (codes : UInt8 → UInt8) (chars dst : List UInt8) (dstsz : Nat) :
    (decodeBody codes (apart chars) chars.length dst dstsz).1 = 0 ↔
      chars.length % 4 = 0 ∧ chars.length ≤ dstsz / 3 * 4 ∧ Passed chars := by
  by_cases refused : chars.length % 4 ≠ 0 ∨ dstsz / 3 * 4 < chars.length
  · rw [decodeBody_refused codes dst refused]
    apply iff_of_false (fun zero => nomatch zero)
    rintro ⟨whole, room, _⟩
    exact refused.elim (absurd whole) (Nat.not_lt.mpr room)
  · rw [not_or, not_not, Nat.not_lt] at refused
    rcases refused with ⟨whole, room⟩
    rw [decodeBody_eq (steady_apart chars) codes (reads_apart chars) whole room, decodeChars_passed]
    exact ⟨fun pass => ⟨whole, room, pass⟩, fun accepts => accepts.2.2⟩

/-- What comes back if all characters of the alphabet that occur have a value. -/
theorem encodeChars_decodeChars (alphabet : Alphabet a) (codes : UInt8 → UInt8) (chars : List UInt8)
    (known : ∀ v, v < 64 → a v ∈ chars → codes (a v) = v) :
    encodeChars a (decodeChars codes chars).2 = chars ↔ Canonical a chars := by
  rw [encodeChars_eq alphabet]
  constructor
  · intro same
    exact ⟨sextets (decodeChars codes chars).2, filled_sextets _, same.symm⟩
  · rintro ⟨groups, filled, rfl⟩
    have values : ∀ v ∈ groups, codes (a v) = id v := by
      intro v mem
      apply known v (filled.low v mem)
      exact List.mem_append_left _ (List.mem_map_of_mem mem)
    rw [decodeChars_spelled alphabet codes filled.shape, List.map_congr_left values, List.map_id]
    dsimp only
    rw [sextets_octets filled]

theorem reencoded_iff (alphabet : Alphabet a) (codes : UInt8 → UInt8) (fits : dstsz ≤ dst.length)
    (known : ∀ v, v < 64 → a v ∈ chars → codes (a v) = v) (room : (dstsz / 3 + 1) * 4 ≤ outsz)
    (inside : outsz ≤ out.length) (accepts : (decodeBody codes (apart chars) chars.length dst dstsz).1 = 0) :
    Reencoded (encodeBody a) (decodeBody codes (apart chars) chars.length dst dstsz).2 out outsz = chars ↔
      Canonical a chars := by
  rcases (decodeBody_accepts codes chars dst dstsz).mp accepts with ⟨whole, roomy, _⟩
  have short := length_decodeChars codes chars
  have length := length_encodeChars a (decodeChars codes chars).2
  rw [Reencoded, decodeBody_eq (steady_apart chars) codes (reads_apart chars) whole roomy]
  dsimp only
  rw [take_copyInto (by omega), encodeBody_eq a _ out (by omega), ← length]
  dsimp only
  rw [take_copyInto (by omega), encodeChars_decodeChars alphabet codes chars known]

/-- What a decoder accepts, and what of it the encoder writes again. -/
def AcceptsPassed (a : UInt8 → UInt8) (encode : List UInt8 → List UInt8 → Nat → Int × List UInt8)
    (decode : Source → Nat → List UInt8 → Nat → Int × Nat × List UInt8) (chars dst : List UInt8) (dstsz : Nat)
    (out : List UInt8) (outsz : Nat) : Prop :=
  ((decode (apart chars) chars.length dst dstsz).1 = 0 ↔
      chars.length % 4 = 0 ∧ chars.length ≤ dstsz / 3 * 4 ∧ Passed chars) ∧
    ((decode (apart chars) chars.length dst dstsz).1 = 0 →
      (Reencoded encode (decode (apart chars) chars.length dst dstsz).2 out outsz = chars ↔ Canonical a chars))

theorem codes_known (v : UInt8) (low : v < 64) : codesMime (alphabetMime v) = v :=
  (codes_alphabetMime v).trans (and_63 v low)

theorem codes_known_urlStd (v : UInt8) (low : v < 64) (other : alphabetUrlStd v ≠ 45) :
    codesUrlStd (alphabetUrlStd v) = v := by
  rw [codes_alphabetUrlStd, and_63 v low, if_neg]
  rintro rfl
  exact other rfl

/-- The minus sign is left out for the URL alphabet. -/
theorem decoders_accept_passed (chars : List UInt8) (fits : dstsz ≤ dst.length) (room : (dstsz / 3 + 1) * 4 ≤ outsz)
    (inside : outsz ≤ out.length) :
    AcceptsPassed alphabetMime mnbase64EncodeMime mnbase64DecodeMime chars dst dstsz out outsz ∧
      (45 ∉ chars →
        AcceptsPassed alphabetUrlStd mnbase64EncodeUrlStd mnbase64DecodeUrlStd chars dst dstsz out outsz) := by
  constructor
  · refine ⟨decodeBody_accepts codesMime chars dst dstsz, ?_⟩
    apply reencoded_iff alphabet_mime codesMime fits _ room inside
    intro v low _
    exact codes_known v low
  · intro without
    refine ⟨decodeBody_accepts codesUrlStd chars dst dstsz, ?_⟩
    apply reencoded_iff alphabet_urlStd codesUrlStd fits _ room inside
    intro v low mem
    apply codes_known_urlStd v low
    intro minus
    rw [minus] at mem
    exact without mem

theorem decoders_accept_passed_three :
    3 ≤ 3 ∧
      AcceptsPassed alphabetMime mnbase64EncodeMime mnbase64DecodeMime [65, 81, 73, 68] [7, 7, 7] 3
        (List.replicate 8 7) 8 ∧
      ((45 : UInt8) ∉ [65, 81, 73, 68] →
        AcceptsPassed alphabetUrlStd mnbase64EncodeUrlStd mnbase64DecodeUrlStd [65, 81, 73, 68] [7, 7, 7] 3
          (List.replicate 8 7) 8) :=
  ⟨by decide, decoders_accept_passed [65, 81, 73, 68] (by decide) (by decide) (by decide)⟩

/-- "!!!!" is read as three zeros, which are written as "AAAA". -/
theorem decoders_accept_foreign :
    ((mnbase64DecodeMime (apart [33, 33, 33, 33]) 4 [7, 7, 7] 3).1 = 0 ∧
      Reencoded mnbase64EncodeMime (mnbase64DecodeMime (apart [33, 33, 33, 33]) 4 [7, 7, 7] 3).2
        (List.replicate 8 7) 8 ≠ [33, 33, 33, 33]) ∧
    ((mnbase64DecodeUrlStd (apart [33, 33, 33, 33]) 4 [7, 7, 7] 3).1 = 0 ∧
      Reencoded mnbase64EncodeUrlStd (mnbase64DecodeUrlStd (apart [33, 33, 33, 33]) 4 [7, 7, 7] 3).2
        (List.replicate 8 7) 8 ≠ [33, 33, 33, 33]) := by decide

/-- A buffer that is decoded into itself holds what a buffer of its own would. -/
def InplaceAgrees (inplace : List UInt8 → Nat → Int × Nat × List UInt8)
    (decode : Source → Nat → List UInt8 → Nat → Int × Nat × List UInt8) (s : List UInt8) (sz : Nat)
    (dst : List UInt8) (dstsz : Nat) : Prop :=
  (inplace s sz).1 = (decode (apart s) sz dst dstsz).1 ∧
    if sz % 4 = 0 then
      (inplace s sz).2.1 = (decode (apart s) sz dst dstsz).2.1 ∧
        (inplace s sz).2.2.take (inplace s sz).2.1 =
          (decode (apart s) sz dst dstsz).2.2.take (decode (apart s) sz dst dstsz).2.1
    else
      -- nothing is decoded, and the size that has been passed is left
      (inplace s sz).2 = (sz, s) ∧ (decode (apart s) sz dst dstsz).2 = (dstsz, dst)

theorem decodeBody_inplace (codes : UInt8 → UInt8) {s : List UInt8} {sz : Nat} (whole : sz ≤ s.length)
    (room : sz ≤ dstsz / 3 * 4) (fits : dstsz ≤ dst.length) :
    InplaceAgrees (fun s sz => decodeBody codes shared sz s sz) (decodeBody codes) s sz dst dstsz := by
  have length : (s.take sz).length = sz := List.length_take_of_le whole
  rw [InplaceAgrees]
  by_cases fours : sz % 4 = 0
  · have reads : ∀ src : Source, (∀ k, src s k = s.getD k 0) → Reads src s 0 (s.take sz) := by
      intro src same k low
      rw [Nat.zero_mul, Nat.zero_add, same, List.getD_eq_getElem?_getD, List.getD_eq_getElem?_getD,
        List.getElem?_take_of_lt (low.trans_eq length)]
    have alone : Reads (apart s) dst 0 (s.take sz) := reads (apart s) fun _ => rfl
    have both : Reads shared s 0 (s.take sz) := reads shared fun _ => rfl
    have short := length_decodeChars codes (s.take sz)
    have own := decodeBody_eq (steady_apart s) codes alone (length.symm ▸ fours) (length.trans_le room)
    have inplace : decodeBody codes shared (s.take sz).length s sz = _ :=
      decodeBody_eq steady_shared codes both (length.symm ▸ fours) (by omega)
    rw [length] at own inplace short
    rw [own, inplace, if_pos fours]
    dsimp only
    rw [take_copyInto (by omega), take_copyInto (by omega)]
    exact ⟨rfl, rfl, rfl⟩
  · rw [decodeBody_refused codes s (.inl fours), decodeBody_refused codes dst (.inl fours), if_neg fours]
    exact ⟨rfl, rfl, rfl⟩

theorem decode_inplace_agrees {s : List UInt8} {sz : Nat} (whole : sz ≤ s.length) (room : sz ≤ dstsz / 3 * 4)
    (fits : dstsz ≤ dst.length) :
    InplaceAgrees mnbase64DecodeMimeInplace mnbase64DecodeMime s sz dst dstsz ∧
      InplaceAgrees mnbase64DecodeUrlStdInplace mnbase64DecodeUrlStd s sz dst dstsz :=
  ⟨decodeBody_inplace codesMime whole room fits, decodeBody_inplace codesUrlStd whole room fits⟩

theorem decode_inplace_agrees_four :
    4 ≤ 5 ∧ InplaceAgrees mnbase64DecodeMimeInplace mnbase64DecodeMime [65, 81, 73, 68, 0] 4 [7, 7, 7] 3 ∧
      InplaceAgrees mnbase64DecodeUrlStdInplace mnbase64DecodeUrlStd [65, 81, 73, 68, 0] 4 [7, 7, 7] 3 :=
  ⟨by decide, decode_inplace_agrees (by decide) (by decide) (by decide)⟩

end MnCommon.Base64
