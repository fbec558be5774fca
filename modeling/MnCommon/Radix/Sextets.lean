import Mathlib.Data.List.Basic
import Mathlib.Tactic.IntervalCases

/-! Bytes as groups of six bits, the last of which is filled up with zeros. -/

namespace MnCommon.Radix

/-- The groups of six bits of some bytes. -/
def sextets : List UInt8 → List UInt8
  | [] => []
  | [a] => [a >>> 2, a <<< 4 &&& 63]
  | [a, b] => [a >>> 2, (a <<< 4 ||| b >>> 4) &&& 63, b <<< 2 &&& 63]
  | a :: b :: c :: rest =>
      (a >>> 2) :: ((a <<< 4 ||| b >>> 4) &&& 63) :: ((b <<< 2 ||| c >>> 6) &&& 63) :: (c &&& 63) :: sextets rest

/-- The bytes that some groups make up. Bits that do not fill a byte are left out. -/
def octets : List UInt8 → List UInt8
  | p :: q :: r :: s :: rest => (p <<< 2 ||| q >>> 4) :: (q <<< 4 ||| r >>> 2) :: (r <<< 6 ||| s) :: octets rest
  | [p, q, r] => [p <<< 2 ||| q >>> 4, q <<< 4 ||| r >>> 2]
  | [p, q] => [p <<< 2 ||| q >>> 4]
  | _ => []

/-- Groups of six bits that fill their last byte up with zeros. -/
def Filled : List UInt8 → Prop
  | p :: q :: r :: s :: rest => p < 64 ∧ q < 64 ∧ r < 64 ∧ s < 64 ∧ Filled rest
  | [p, q, r] => p < 64 ∧ q < 64 ∧ r < 64 ∧ r &&& 3 = 0
  | [p, q] => p < 64 ∧ q < 64 ∧ q &&& 15 = 0
  | [_] => False
  | [] => True

/-- Induction over the fours of a list, the last of which may be short. -/
@[elab_as_elim]
theorem by_fours {α : Type} {motive : List α → Prop} (none : motive []) (one : ∀ p, motive [p])
    (two : ∀ p q, motive [p, q]) (three : ∀ p q r, motive [p, q, r])
    (four : ∀ p q r s rest, motive rest → motive (p :: q :: r :: s :: rest)) : ∀ list, motive list
  | [] => none
  | [p] => one p
  | [p, q] => two p q
  | [p, q, r] => three p q r
  | p :: q :: r :: s :: rest => four p q r s rest (by_fours none one two three four rest)

/-- A byte below a power of two has its low bits only. -/
theorem and_low {low : UInt8} {k : Nat} (mask : low.toNat = 2 ^ k - 1) {v : UInt8} (small : v.toNat < 2 ^ k) :
    v &&& low = v := by
  apply UInt8.toNat_inj.mp
  calc
    (v &&& low).toNat = v.toNat &&& (2 ^ k - 1) := by rw [UInt8.toNat_and, mask]
    _ = v.toNat % 2 ^ k := Nat.and_two_pow_sub_one_eq_mod v.toNat k
    _ = v.toNat := Nat.mod_eq_of_lt small

theorem and_63 (v : UInt8) (low : v < 64) : v &&& 63 = v := and_low (k := 6) rfl (UInt8.lt_iff_toNat_lt.mp low)

theorem lt_64 (v : UInt8) : v &&& 63 < 64 := UInt8.and_lt_add_one (by decide)

/-- The bits that a shift leaves. -/
theorem shift_lt {k m : UInt8} (whole : 2 ^ (k.toNat % 8) * m.toNat = 256) (v : UInt8) : v >>> k < m := by
  apply UInt8.lt_iff_toNat_lt.mpr
  rw [UInt8.toNat_shiftRight, Nat.shiftRight_eq_div_pow]
  apply Nat.div_lt_of_lt_mul
  rw [whole]
  exact v.toNat_lt

theorem shift_lt_64 (v : UInt8) : v >>> 2 < 64 := shift_lt (by decide) v

theorem or_and (x y m : UInt8) : (x ||| y) &&& m = x &&& m ||| y &&& m := by
  apply UInt8.eq_of_toBitVec_eq
  ext i low
  simp only [UInt8.toBitVec_and, UInt8.toBitVec_or, BitVec.getElem_and, BitVec.getElem_or, Bool.and_or_distrib_right]

/-- A byte without high bits is below a power of two. -/
theorem and_high_eq_zero (low high : UInt8) {k : Nat} (mask : low.toNat = 2 ^ k - 1) (disjoint : low &&& high = 0)
    (whole : low ||| high = 255) (v : UInt8) : v &&& high = 0 ↔ v.toNat < 2 ^ k := by
  constructor
  · intro without
    have parts : v = v &&& low := by
      calc
        v = (low ||| high) &&& v := by rw [whole]; exact UInt8.neg_one_and.symm
        _ = v &&& low := by rw [or_and, UInt8.and_comm high, without, UInt8.or_zero, UInt8.and_comm]
    have small : (v &&& low).toNat ≤ low.toNat := UInt8.le_iff_toNat_le.mp UInt8.and_le_right
    have positive := Nat.two_pow_pos k
    rw [parts]
    omega
  · intro small
    rw [← and_low mask small, UInt8.and_assoc, disjoint, UInt8.and_zero]

theorem and_128 (c : UInt8) : c &&& 128 = 0 ↔ c < 128 := by
  rw [UInt8.lt_iff_toNat_lt]
  exact and_high_eq_zero 127 128 (k := 7) rfl rfl rfl c

/-- The six bits in two parts. -/
theorem and_63_parts {low high : UInt8} (whole : low ||| high = 63) (v : UInt8) :
    v &&& 63 = v &&& low ||| v &&& high := by
  rw [← whole, UInt8.and_comm, or_and, UInt8.and_comm low, UInt8.and_comm high]

section bits

variable (a b c p q r s : UInt8)

theorem byte_first : (a >>> 2) <<< 2 ||| ((a <<< 4 ||| b >>> 4) &&& 63) >>> 4 = a := by
  apply UInt8.eq_of_toBitVec_eq
  ext i low
  interval_cases i <;> simp

theorem byte_second : ((a <<< 4 ||| b >>> 4) &&& 63) <<< 4 ||| ((b <<< 2 ||| c >>> 6) &&& 63) >>> 2 = b := by
  apply UInt8.eq_of_toBitVec_eq
  ext i low
  interval_cases i <;> simp

theorem byte_third : ((b <<< 2 ||| c >>> 6) &&& 63) <<< 6 ||| (c &&& 63) = c := by
  apply UInt8.eq_of_toBitVec_eq
  ext i low
  interval_cases i <;> simp

theorem group_first : ((p &&& 63) <<< 2 ||| (q &&& 63) >>> 4) >>> 2 = p &&& 63 := by
  apply UInt8.eq_of_toBitVec_eq
  ext i low
  interval_cases i <;> simp

theorem group_second :
    (((p &&& 63) <<< 2 ||| (q &&& 63) >>> 4) <<< 4 ||| ((q &&& 63) <<< 4 ||| (r &&& 63) >>> 2) >>> 4) &&& 63 =
      q &&& 63 := by
  apply UInt8.eq_of_toBitVec_eq
  ext i low
  interval_cases i <;> simp

theorem group_third :
    (((q &&& 63) <<< 4 ||| (r &&& 63) >>> 2) <<< 2 ||| ((r &&& 63) <<< 6 ||| (s &&& 63)) >>> 6) &&& 63 =
      r &&& 63 := by
  apply UInt8.eq_of_toBitVec_eq
  ext i low
  interval_cases i <;> simp

theorem group_fourth : ((r &&& 63) <<< 6 ||| (s &&& 63)) &&& 63 = s &&& 63 := by
  apply UInt8.eq_of_toBitVec_eq
  ext i low
  interval_cases i <;> simp

theorem group_last_second : ((p &&& 63) <<< 2 ||| (q &&& 63) >>> 4) <<< 4 &&& 63 = q &&& 48 := by
  apply UInt8.eq_of_toBitVec_eq
  ext i low
  interval_cases i <;> simp

theorem group_last_third : ((q &&& 63) <<< 4 ||| (r &&& 63) >>> 2) <<< 2 &&& 63 = r &&& 60 := by
  apply UInt8.eq_of_toBitVec_eq
  ext i low
  interval_cases i <;> simp

end bits

theorem spare_four {q : UInt8} (low : q < 64) (spare : q &&& 15 = 0) : q &&& 48 = q := by
  have parts : q &&& 63 = q &&& 15 ||| q &&& 48 := and_63_parts (by decide) q
  rw [and_63 q low, spare, UInt8.zero_or] at parts
  exact parts.symm

theorem spare_two {r : UInt8} (low : r < 64) (spare : r &&& 3 = 0) : r &&& 60 = r := by
  have parts : r &&& 63 = r &&& 3 ||| r &&& 60 := and_63_parts (by decide) r
  rw [and_63 r low, spare, UInt8.zero_or] at parts
  exact parts.symm

theorem filled_four (a : UInt8) : (a <<< 4 &&& 63) &&& 15 = 0 := by
  apply UInt8.eq_of_toBitVec_eq
  ext i low
  interval_cases i <;> simp

theorem filled_two (b : UInt8) : (b <<< 2 &&& 63) &&& 3 = 0 := by
  apply UInt8.eq_of_toBitVec_eq
  ext i low
  interval_cases i <;> simp

theorem octets_sextets (bytes : List UInt8) : octets (sextets bytes) = bytes := by
  induction bytes using sextets.induct with
  | case1 => rfl
  | case2 a =>
      have whole := byte_first a 0
      rw [UInt8.zero_shiftRight, UInt8.or_zero] at whole
      rw [sextets, octets, whole]
  | case3 a b =>
      have whole := byte_second a b 0
      rw [UInt8.zero_shiftRight, UInt8.or_zero] at whole
      rw [sextets, octets, byte_first, whole]
  | case4 a b c rest ih => rw [sextets, octets, byte_first, byte_second, byte_third, ih]

theorem filled_sextets (bytes : List UInt8) : Filled (sextets bytes) := by
  induction bytes using sextets.induct with
  | case1 => trivial
  | case2 a => exact ⟨shift_lt_64 a, lt_64 _, filled_four a⟩
  | case3 a b => exact ⟨shift_lt_64 a, lt_64 _, lt_64 _, filled_two b⟩
  | case4 a b c rest ih => exact ⟨shift_lt_64 a, lt_64 _, lt_64 _, lt_64 _, ih⟩

theorem Filled.low {groups : List UInt8} (filled : Filled groups) : ∀ v ∈ groups, v < 64 := by
  induction groups using by_fours with
  | none => exact List.forall_mem_nil _
  | one p => exact filled.elim
  | two p q =>
      rcases filled with ⟨lowp, lowq, spare⟩
      simp only [List.forall_mem_cons]
      exact ⟨lowp, lowq, List.forall_mem_nil _⟩
  | three p q r =>
      rcases filled with ⟨lowp, lowq, lowr, spare⟩
      simp only [List.forall_mem_cons]
      exact ⟨lowp, lowq, lowr, List.forall_mem_nil _⟩
  | four p q r s rest ih =>
      rcases filled with ⟨lowp, lowq, lowr, lows, others⟩
      simp only [List.forall_mem_cons]
      exact ⟨lowp, lowq, lowr, lows, ih others⟩

theorem Filled.shape {groups : List UInt8} (filled : Filled groups) : groups.length % 4 ≠ 1 := by
  induction groups using by_fours with
  | none => exact Nat.zero_ne_one
  | one p => exact filled.elim
  | two p q => simp
  | three p q r => simp
  | four p q r s rest ih =>
      have shape := ih filled.2.2.2.2
      simp only [List.length_cons]
      omega

/-- Values that have zeros where the groups have them. -/
theorem Filled.map {groups : List UInt8} (filled : Filled groups) {f : UInt8 → UInt8} (low : ∀ v, f v < 64)
    (nibble : ∀ v, v &&& 15 = 0 → f v &&& 15 = 0) (pair : ∀ v, v &&& 3 = 0 → f v &&& 3 = 0) :
    Filled (groups.map f) := by
  induction groups using by_fours with
  | none => trivial
  | one p => exact filled.elim
  | two p q => exact ⟨low p, low q, nibble q filled.2.2⟩
  | three p q r => exact ⟨low p, low q, low r, pair r filled.2.2.2⟩
  | four p q r s rest ih => exact ⟨low p, low q, low r, low s, ih filled.2.2.2.2⟩

theorem length_octets_map (f : UInt8 → UInt8) (groups : List UInt8) :
    (octets (groups.map f)).length = (octets groups).length := by
  induction groups using by_fours with
  | none => rfl
  | one p => rfl
  | two p q => rfl
  | three p q r => rfl
  | four p q r s rest ih =>
      simp only [List.map_cons, octets, List.length_cons]
      rw [ih]

theorem sextets_octets {groups : List UInt8} (filled : Filled groups) : sextets (octets groups) = groups := by
  induction groups using by_fours with
  | none => rfl
  | one p => exact filled.elim
  | two p q =>
      rcases filled with ⟨lowp, lowq, spare⟩
      have first := group_first p q
      have second := group_last_second p q
      rw [and_63 p lowp, and_63 q lowq] at first
      rw [and_63 p lowp, and_63 q lowq, spare_four lowq spare] at second
      rw [octets, sextets, first, second]
  | three p q r =>
      rcases filled with ⟨lowp, lowq, lowr, spare⟩
      have first := group_first p q
      have second := group_second p q r
      have third := group_last_third q r
      rw [and_63 p lowp, and_63 q lowq] at first
      rw [and_63 p lowp, and_63 q lowq, and_63 r lowr] at second
      rw [and_63 q lowq, and_63 r lowr, spare_two lowr spare] at third
      rw [octets, sextets, first, second, third]
  | four p q r s rest ih =>
      rcases filled with ⟨lowp, lowq, lowr, lows, others⟩
      have first := group_first p q
      have second := group_second p q r
      have third := group_third q r s
      have fourth := group_fourth r s
      rw [and_63 p lowp, and_63 q lowq] at first
      rw [and_63 p lowp, and_63 q lowq, and_63 r lowr] at second
      rw [and_63 q lowq, and_63 r lowr, and_63 s lows] at third
      rw [and_63 r lowr, and_63 s lows] at fourth
      rw [octets, sextets, first, second, third, fourth, ih others]

/-- Groups that fill their bytes up with zeros are determined by the bytes. -/
theorem octets_injective {groups others : List UInt8} (filled : Filled groups) (filled' : Filled others)
    (same : octets groups = octets others) : groups = others := by
  rw [← sextets_octets filled, same, sextets_octets filled']

end MnCommon.Radix
