import MnCommon.Base64.Codec

/-! What comes back of bytes that are encoded and decoded, and which characters stand for
bytes. -/

namespace MnCommon.Base64

open Bytes (alphabetUrlStd codesUrlStd)
open ByteStrings (copyInto copyInto_front take_copyInto)
open Radix

/-- A table of characters that the decoders let pass. -/
structure Alphabet (a : UInt8 → UInt8) : Prop where
  low : ∀ v, a (v &&& 63) = a v
  ascii : ∀ v, a v < 128
  printable : ∀ v, 32 ≤ a v
  unpadded : ∀ v, a v ≠ 61

/-- A letter or a digit. -/
def Alphanumeric (c : UInt8) : Prop := 65 ≤ c ∧ c ≤ 90 ∨ 97 ≤ c ∧ c ≤ 122 ∨ 48 ≤ c ∧ c ≤ 57

theorem alphabetOf_cases (c62 c63 v : UInt8) :
    Alphanumeric (alphabetOf c62 c63 v) ∨ alphabetOf c62 c63 v = c62 ∨ alphabetOf c62 c63 v = c63 := by
  have low := lt_64 v
  rw [alphabetOf, Alphanumeric]
  generalize v &&& 63 = k at low
  split_ifs with upper letter digit last
  · left
    simp only [UInt8.le_iff_toNat_le, UInt8.lt_iff_toNat_lt, UInt8.toNat_add, UInt8.toNat_ofNat] at *
    omega
  · left
    simp only [UInt8.le_iff_toNat_le, UInt8.lt_iff_toNat_lt, UInt8.toNat_add, UInt8.toNat_ofNat] at *
    omega
  · left
    simp only [UInt8.le_iff_toNat_le, UInt8.lt_iff_toNat_lt, UInt8.toNat_sub, UInt8.toNat_ofNat] at *
    omega
  · exact .inr (.inl rfl)
  · exact .inr (.inr rfl)

/-- A character that the decoders let pass. -/
def Printed (c : UInt8) : Prop := c < 128 ∧ 32 ≤ c ∧ c ≠ 61

theorem Alphanumeric.printed {c : UInt8} (alphanumeric : Alphanumeric c) : Printed c := by
  rw [Printed, ne_eq, ← UInt8.toNat_inj]
  simp only [Alphanumeric, UInt8.le_iff_toNat_le, UInt8.lt_iff_toNat_lt, UInt8.toNat_ofNat] at *
  omega

theorem alphabet_of {c62 c63 : UInt8} (first : Printed c62) (second : Printed c63) : Alphabet (alphabetOf c62 c63) := by
  have printed : ∀ v, Printed (alphabetOf c62 c63 v) := by
    intro v
    rcases alphabetOf_cases c62 c63 v with alphanumeric | same | same
    · exact alphanumeric.printed
    · rw [same]
      exact first
    · rw [same]
      exact second
  constructor
  · intro v
    rw [alphabetOf, UInt8.and_assoc, UInt8.and_self, alphabetOf]
  · exact fun v => (printed v).1
  · exact fun v => (printed v).2.1
  · exact fun v => (printed v).2.2

theorem alphabet_mime : Alphabet alphabetMime :=
  alphabet_of ⟨by decide, by decide, by decide⟩ ⟨by decide, by decide, by decide⟩

theorem alphabet_urlStd : Alphabet alphabetUrlStd := by
  rw [alphabetUrlStd_eq]
  exact alphabet_of ⟨by decide, by decide, by decide⟩ ⟨by decide, by decide, by decide⟩

/-- The characters that fill the last four up. -/
def padding (count : Nat) : List UInt8 := List.replicate ((4 - count % 4) % 4) 61

/-- The characters of some groups of six bits. -/
def spelled (a : UInt8 → UInt8) (groups : List UInt8) : List UInt8 := groups.map a ++ padding groups.length

variable {a codes : UInt8 → UInt8} {c0 c1 c2 c3 : UInt8} {chars src dst back groups : List UInt8} {dstsz backsz : Nat}

theorem padding_four (count : Nat) : padding (count + 4) = padding count := by
  rw [padding, Nat.add_mod_right, padding]

theorem spelled_four (a : UInt8 → UInt8) (p q r s : UInt8) (groups : List UInt8) :
    spelled a (p :: q :: r :: s :: groups) = a p :: a q :: a r :: a s :: spelled a groups := by
  change _ ++ padding (groups.length + 4) = _
  rw [padding_four]
  rfl

theorem encodeChars_eq (alphabet : Alphabet a) (src : List UInt8) : encodeChars a src = spelled a (sextets src) := by
  induction src using encodeChars.induct with
  | case1 => rfl
  | case2 i0 =>
      rw [encodeChars, encode1, ← alphabet.low (i0 <<< 4)]
      rfl
  | case3 i0 i1 =>
      rw [encodeChars, encode2, ← alphabet.low (i0 <<< 4 ||| i1 >>> 4), ← alphabet.low (i1 <<< 2)]
      rfl
  | case4 i0 i1 i2 rest ih =>
      rw [encodeChars, encode3, ih, sextets, spelled_four, alphabet.low, alphabet.low, alphabet.low]
      rfl

theorem masked (c0 c1 c2 c3 m : UInt8) :
    (c0 ||| c1 ||| c2 ||| c3) &&& m = 0 ↔ ∀ c ∈ [c0, c1, c2, c3], c &&& m = 0 := by
  rw [or_and, or_and, or_and, UInt8.or_eq_zero_iff, UInt8.or_eq_zero_iff, UInt8.or_eq_zero_iff]
  simp only [List.forall_mem_cons, List.not_mem_nil, false_imp_iff, implies_true, and_true, and_assoc]

theorem and_224 (c : UInt8) : c &&& 224 = 0 ↔ ¬ 32 ≤ c := by
  rw [UInt8.not_le, UInt8.lt_iff_toNat_lt]
  exact and_high_eq_zero 31 224 (k := 5) rfl rfl rfl c

/-- What the test of four characters at a time lets pass. -/
theorem accepted_iff :
    ¬ Refused c0 c1 c2 c3 ↔ (∀ c ∈ [c0, c1, c2, c3], c < 128) ∧ ∃ c ∈ [c0, c1, c2, c3], 32 ≤ c := by
  rw [Refused, not_or, not_not, masked, masked]
  constructor
  · rintro ⟨ascii, some⟩
    have low : ∀ c ∈ [c0, c1, c2, c3], c < 128 := fun c mem => (and_128 c).mp (ascii c mem)
    refine ⟨low, ?_⟩
    by_contra control
    apply some
    intro c mem
    exact (and_224 c).mpr fun printable => control ⟨c, mem, printable⟩
  · rintro ⟨low, c, mem, printable⟩
    refine ⟨fun c mem => (and_128 c).mpr (low c mem), fun control => ?_⟩
    exact (and_224 c).mp (control c mem) printable

/-- Characters of an alphabet, with an equals sign behind two of them or none. -/
theorem accepted (alphabet : Alphabet a) (p q : UInt8) (third : c2 = 61 ∨ ∃ r, c2 = a r)
    (fourth : c3 = 61 ∨ ∃ s, c3 = a s) : ¬ Refused (a p) (a q) c2 c3 := by
  have ascii : ∀ c, (c = 61 ∨ ∃ v, c = a v) → c < 128 := by
    rintro c (rfl | ⟨v, rfl⟩)
    · decide
    · exact alphabet.ascii v
  rw [accepted_iff]
  constructor
  · simp only [List.forall_mem_cons, List.not_mem_nil, false_imp_iff, implies_true, and_true]
    exact ⟨alphabet.ascii p, alphabet.ascii q, ascii c2 third, ascii c3 fourth⟩
  · exact ⟨a p, List.mem_cons_self, alphabet.printable p⟩

/-- The bytes of characters that are spelled, if one group is not left alone. -/
theorem decodeChars_spelled (alphabet : Alphabet a) (codes : UInt8 → UInt8) (shape : groups.length % 4 ≠ 1) :
    decodeChars codes (spelled a groups) = (0, octets (groups.map fun v => codes (a v))) := by
  have plain : ∀ p q, ¬ (a p = 61 ∨ a q = 61) := by
    intro p q padded
    exact padded.elim (alphabet.unpadded p) (alphabet.unpadded q)
  induction groups using by_fours with
  | none => rfl
  | one p => exact absurd rfl shape
  | two p q =>
      have pass := accepted alphabet p q (.inl rfl) (.inl rfl)
      change decodeChars codes [a p, a q, 61, 61] = _
      rw [decodeChars, if_neg pass, if_neg (plain p q), if_pos rfl]
      rfl
  | three p q r =>
      have pass := accepted alphabet p q (.inr ⟨r, rfl⟩) (.inl rfl)
      change decodeChars codes [a p, a q, a r, 61] = _
      rw [decodeChars, if_neg pass, if_neg (plain p q), if_neg (alphabet.unpadded r), if_pos rfl]
      rfl
  | four p q r s rest ih =>
      have pass := accepted alphabet p q (.inr ⟨r, rfl⟩) (.inr ⟨s, rfl⟩)
      have whole : rest.length % 4 ≠ 1 := by
        intro one
        apply shape
        simp only [List.length_cons]
        omega
      rw [spelled_four, decodeChars, if_neg pass, if_neg (plain p q), if_neg (alphabet.unpadded r),
        if_neg (alphabet.unpadded s), ih whole]
      rfl

theorem reads_apart (chars : List UInt8) : Reads (apart chars) dst 0 chars := by
  intro k low
  rw [Nat.zero_mul, Nat.zero_add, apart]

/-- Characters that have been written to the front of a buffer. -/
theorem reads_written (short : chars.length ≤ dst.length) : Reads (apart (copyInto dst 0 chars)) back 0 chars := by
  intro k low
  have front := take_copyInto short
  rw [Nat.zero_mul, Nat.zero_add, apart, List.getD_eq_getElem?_getD, ← List.getElem?_take_of_lt low, front,
    List.getD_eq_getElem?_getD]

/-- Some bytes are encoded into the memory at `dst` and then decoded into the memory at `back`. -/
def Restored (encode : List UInt8 → List UInt8 → Nat → Int × List UInt8)
    (decode : Source → Nat → List UInt8 → Nat → Int × Nat × List UInt8) (src dst : List UInt8) (dstsz : Nat)
    (back : List UInt8) (backsz : Nat) : Prop :=
  (encode src dst dstsz).1 = 0 ∧
    decode (apart (encode src dst dstsz).2) ((src.length + 2) / 3 * 4) back backsz =
      (0, src.length, src ++ back.drop src.length)

theorem restored_iff (alphabet : Alphabet a) (codes : UInt8 → UInt8) (room : (src.length / 3 + 1) * 4 ≤ dstsz)
    (fits : dstsz ≤ dst.length) (large : (src.length + 2) / 3 * 4 ≤ backsz / 3 * 4) (inside : backsz ≤ back.length) :
    Restored (encodeBody a) (decodeBody codes) src dst dstsz back backsz ↔
      octets ((sextets src).map fun v => codes (a v)) = src := by
  have length := length_encodeChars a src
  have same : (octets ((sextets src).map fun v => codes (a v))).length = src.length := by
    rw [length_octets_map, octets_sextets]
  have reads : Reads (apart (copyInto dst 0 (encodeChars a src))) back 0 (encodeChars a src) :=
    reads_written (by omega)
  have decoded := decodeBody_eq (steady_apart _) codes reads (by omega) (length.trans_le large)
  have written : copyInto back 0 (octets ((sextets src).map fun v => codes (a v))) = _ := copyInto_front (by omega)
  rw [same] at written
  rw [length, encodeChars_eq alphabet, decodeChars_spelled alphabet codes (filled_sextets src).shape] at decoded
  dsimp only at decoded
  rw [written, same] at decoded
  rw [Restored, encodeBody_eq a src dst room, encodeChars_eq alphabet, decoded]
  simp only [true_and, Prod.mk.injEq]
  exact List.append_left_inj _

section codes

variable {k v : UInt8} (c62 c63 d62 d63 : UInt8)

theorem codesOf_upper (low : k < 26) : codesOf d62 d63 (65 + k) = k := by
  rw [codesOf, if_pos, ← UInt8.toNat_inj]
  all_goals
    simp only [UInt8.le_iff_toNat_le, UInt8.lt_iff_toNat_lt, UInt8.toNat_add, UInt8.toNat_sub, UInt8.toNat_ofNat] at *
  all_goals omega

theorem codesOf_lower (high : ¬ k < 26) (low : k < 52) : codesOf d62 d63 (71 + k) = k := by
  rw [codesOf, if_neg, if_pos, ← UInt8.toNat_inj]
  all_goals
    simp only [UInt8.le_iff_toNat_le, UInt8.lt_iff_toNat_lt, UInt8.toNat_add, UInt8.toNat_sub, UInt8.toNat_ofNat] at *
  all_goals omega

theorem codesOf_digit (high : ¬ k < 52) (low : k < 62) : codesOf d62 d63 (k - 4) = k := by
  rw [codesOf, if_neg, if_neg, if_pos, ← UInt8.toNat_inj]
  all_goals
    simp only [UInt8.le_iff_toNat_le, UInt8.lt_iff_toNat_lt, UInt8.toNat_add, UInt8.toNat_sub, UInt8.toNat_ofNat] at *
  all_goals omega

/-- A table has the values of the letters and digits at their places in the alphabet. -/
theorem codesOf_alphabetOf (low : v &&& 63 < 62) : codesOf d62 d63 (alphabetOf c62 c63 v) = v &&& 63 := by
  rw [alphabetOf]
  generalize v &&& 63 = k at low
  split_ifs with upper letter
  · exact codesOf_upper d62 d63 upper
  · exact codesOf_lower d62 d63 upper letter
  · exact codesOf_digit d62 d63 letter low

theorem alphabetOf_62 (last : v &&& 63 = 62) : alphabetOf c62 c63 v = c62 := by
  rw [alphabetOf, last]
  rfl

theorem alphabetOf_63 (last : v &&& 63 = 63) : alphabetOf c62 c63 v = c63 := by
  rw [alphabetOf, last]
  rfl

theorem sextet_cases (v : UInt8) : v &&& 63 < 62 ∨ v &&& 63 = 62 ∨ v &&& 63 = 63 := by
  have low := lt_64 v
  rw [← UInt8.toNat_inj, ← UInt8.toNat_inj]
  generalize v &&& 63 = k at low
  simp only [UInt8.lt_iff_toNat_lt, UInt8.toNat_ofNat] at *
  omega

end codes

theorem codes_alphabetMime (v : UInt8) : codesMime (alphabetMime v) = v &&& 63 := by
  rw [codesMime, alphabetMime]
  rcases sextet_cases v with low | last | last
  · exact codesOf_alphabetOf 43 47 43 47 low
  · rw [alphabetOf_62 43 47 last, last]
    rfl
  · rw [alphabetOf_63 43 47 last, last]
    rfl

/-- The value of the minus sign is lost. -/
theorem codes_alphabetUrlStd (v : UInt8) :
    codesUrlStd (alphabetUrlStd v) = if v &&& 63 = 62 then 0 else v &&& 63 := by
  rw [codesUrlStd_eq, alphabetUrlStd_eq]
  rcases sextet_cases v with low | last | last
  · rw [codesOf_alphabetOf 45 95 43 95 low, if_neg]
    intro last
    rw [last] at low
    exact absurd low (by decide)
  · rw [alphabetOf_62 45 95 last, if_pos last]
    rfl
  · rw [alphabetOf_63 45 95 last, last]
    rfl
theorem mime_restores (room : (src.length / 3 + 1) * 4 ≤ dstsz) (fits : dstsz ≤ dst.length)
    (large : (src.length + 2) / 3 * 4 ≤ backsz / 3 * 4) (inside : backsz ≤ back.length) :
    Restored mnbase64EncodeMime mnbase64DecodeMime src dst dstsz back backsz := by
  apply (restored_iff alphabet_mime codesMime room fits large inside).mpr
  have known : ∀ v ∈ sextets src, codesMime (alphabetMime v) = id v := by
    intro v mem
    rw [codes_alphabetMime, and_63 v ((filled_sextets src).low v mem)]
    rfl
  rw [List.map_congr_left known, List.map_id, octets_sextets]

theorem mime_restores_three :
    (3 / 3 + 1) * 4 ≤ 8 ∧ Restored mnbase64EncodeMime mnbase64DecodeMime [1, 2, 3] (List.replicate 8 7) 8 [7, 7, 7] 3 :=
  ⟨by decide, mime_restores (by decide) (by decide) (by decide) (by decide)⟩

theorem urlStd_low (v : UInt8) : codesUrlStd (alphabetUrlStd v) < 64 := by
  rw [codes_alphabetUrlStd]
  split
  · decide
  · exact lt_64 v

/-- Bits that are not set are not set in the value of the table either. -/
theorem urlStd_spare {m : UInt8} (inside : 63 &&& m = m) (v : UInt8) (spare : v &&& m = 0) :
    codesUrlStd (alphabetUrlStd v) &&& m = 0 := by
  rw [codes_alphabetUrlStd]
  split
  · exact UInt8.zero_and
  · rw [UInt8.and_assoc, inside, spare]

/-- The groups that come back with the value of the table. -/
theorem urlStd_groups (src : List UInt8) :
    octets ((sextets src).map fun v => codesUrlStd (alphabetUrlStd v)) = src ↔ 62 ∉ sextets src := by
  have filled := filled_sextets src
  have known : ∀ v ∈ sextets src, codesUrlStd (alphabetUrlStd v) = v ↔ v ≠ 62 := by
    intro v mem
    rw [codes_alphabetUrlStd, and_63 v (filled.low v mem)]
    split
    next minus => rw [minus]; decide
    next other => exact iff_of_true rfl other
  have filled' : Filled ((sextets src).map fun v => codesUrlStd (alphabetUrlStd v)) :=
    filled.map urlStd_low (urlStd_spare (by decide)) (urlStd_spare (by decide))
  constructor
  · intro same minus
    have groups : (sextets src).map (fun v => codesUrlStd (alphabetUrlStd v)) = (sextets src).map id := by
      rw [List.map_id]
      exact octets_injective filled' filled (same.trans (octets_sextets src).symm)
    exact (known 62 minus).mp (List.map_inj_left.mp groups 62 minus) rfl
  · intro without
    have groups : (sextets src).map (fun v => codesUrlStd (alphabetUrlStd v)) = (sextets src).map id := by
      apply List.map_congr_left
      intro v mem
      apply (known v mem).mpr
      rintro rfl
      exact without mem
    rw [groups, List.map_id, octets_sextets]

theorem urlStd_restores_iff (room : (src.length / 3 + 1) * 4 ≤ dstsz) (fits : dstsz ≤ dst.length)
    (large : (src.length + 2) / 3 * 4 ≤ backsz / 3 * 4) (inside : backsz ≤ back.length) :
    Restored mnbase64EncodeUrlStd mnbase64DecodeUrlStd src dst dstsz back backsz ↔ 62 ∉ sextets src :=
  (restored_iff alphabet_urlStd codesUrlStd room fits large inside).trans (urlStd_groups src)

theorem urlStd_restores_iff_three :
    (3 / 3 + 1) * 4 ≤ 8 ∧
      (Restored mnbase64EncodeUrlStd mnbase64DecodeUrlStd [1, 2, 3] (List.replicate 8 7) 8 [7, 7, 7] 3 ↔
        62 ∉ sextets [1, 2, 3]) :=
  ⟨by decide, urlStd_restores_iff (by decide) (by decide) (by decide) (by decide)⟩

/-- The byte 248 is written as "-A==" and read as zero. -/
theorem urlStd_loses_minus :
    ¬ Restored mnbase64EncodeUrlStd mnbase64DecodeUrlStd [248] (List.replicate 4 7) 4 [7, 7, 7] 3 := by
  rw [Restored]
  decide

end MnCommon.Base64
