import Mathlib.Data.Nat.Digits.Lemmas

/-! Numbers of 64 bits that are compared by the sign of their difference, as places on a circle, and numbers of which
the digits to a power of two are treated all at once. -/

namespace MnCommon.Radix

section Circle

/-- From `u` it is at most half a circle on to `v`. -/
def Before (u v : UInt64) : Prop := 0 < (v - u).toNat ∧ (v - u).toNat ≤ 2 ^ 63

instance (u v : UInt64) : Decidable (Before u v) := inferInstanceAs (Decidable (_ ∧ _))

/-- Three numbers of which the first and the second are not opposite, and which are not ordered
around more than half a circle. -/
def Halved (u v w : UInt64) : Prop :=
  (v - u).toNat ≠ 2 ^ 63 ∧ (Before u v → Before v w → (v - u).toNat + (w - v).toNat ≤ 2 ^ 63)

variable {u v w : UInt64}

theorem sub_toNat (u v : UInt64) : (v - u).toNat = (2 ^ 64 - u.toNat + v.toNat) % 2 ^ 64 := UInt64.toNat_sub v u

theorem sub_toNat_eq_zero : (v - u).toNat = 0 ↔ u = v := by
  have small := u.toNat_lt
  have small' := v.toNat_lt
  rw [sub_toNat, ← UInt64.toNat_inj]
  omega

theorem toInt64_neg_iff (d : UInt64) : d.toInt64 < 0 ↔ 2 ^ 63 ≤ d.toNat := by
  have halves : d.toBitVec.toInt < 0 ↔ 2 ^ 64 ≤ 2 * d.toBitVec.toNat := BitVec.toInt_neg_iff
  rw [Int64.lt_iff_toInt_lt]
  change d.toBitVec.toInt < 0 ↔ _
  rw [halves, UInt64.toNat_toBitVec]
  omega

/-- The sign of the difference. -/
theorem before_iff_neg : Before u v ↔ (u - v).toInt64 < 0 := by
  have small := u.toNat_lt
  have small' := v.toNat_lt
  rw [toInt64_neg_iff, Before, sub_toNat, sub_toNat]
  omega

theorem not_before_self (u : UInt64) : ¬ Before u u := by
  rintro ⟨positive, _⟩
  rw [UInt64.sub_self] at positive
  exact absurd positive (by decide)

/-- Both directions, for numbers that differ. -/
theorem before_swap (differ : u ≠ v) : (Before v u ↔ ¬ Before u v) ↔ (v - u).toNat ≠ 2 ^ 63 := by
  have small := u.toNat_lt
  have small' := v.toNat_lt
  have other : u.toNat ≠ v.toNat := fun same => differ (UInt64.toNat_inj.mp same)
  rw [Before, Before, sub_toNat, sub_toNat]
  omega

theorem before_or (differ : u ≠ v) : Before u v ∨ Before v u := by
  have small := u.toNat_lt
  have small' := v.toNat_lt
  have other : u.toNat ≠ v.toNat := fun same => differ (UInt64.toNat_inj.mp same)
  rw [Before, Before, sub_toNat, sub_toNat]
  omega

theorem before_trans_iff (first : Before u v) (second : Before v w) (opposite : (v - u).toNat ≠ 2 ^ 63) :
    Before u w ↔ (v - u).toNat + (w - v).toNat ≤ 2 ^ 63 := by
  have small := u.toNat_lt
  have small' := v.toNat_lt
  have small'' := w.toNat_lt
  rw [Before, sub_toNat] at first second ⊢
  rw [sub_toNat] at opposite
  rw [sub_toNat, sub_toNat]
  omega

end Circle

section Lanes

variable {w a b m n : Nat} {xs : List Nat}

/-- The bits that two numbers share are those of the lowest digits and those above them. -/
theorem and_lanes (low : a < 2 ^ w) (low' : b < 2 ^ w) :
    (a + 2 ^ w * m) &&& (b + 2 ^ w * n) = 0 ↔ a &&& b = 0 ∧ m &&& n = 0 := by
  have first : ((a + 2 ^ w * m) &&& (b + 2 ^ w * n)) % 2 ^ w = a &&& b := by
    rw [Nat.and_mod_two_pow, Nat.add_mul_mod_self_left, Nat.add_mul_mod_self_left, Nat.mod_eq_of_lt low,
      Nat.mod_eq_of_lt low']
  have others : ((a + 2 ^ w * m) &&& (b + 2 ^ w * n)) / 2 ^ w = m &&& n := by
    have positive := Nat.two_pow_pos w
    rw [Nat.and_div_two_pow, Nat.add_mul_div_left _ _ positive, Nat.add_mul_div_left _ _ positive,
      Nat.div_eq_of_lt low, Nat.div_eq_of_lt low', Nat.zero_add, Nat.zero_add]
  rw [← first, ← others]
  constructor
  · intro none
    rw [none, Nat.zero_mod, Nat.zero_div]
    exact ⟨rfl, rfl⟩
  · rintro ⟨below, above⟩
    rw [← Nat.div_add_mod ((a + 2 ^ w * m) &&& (b + 2 ^ w * n)) (2 ^ w), below, above]
    rfl

/-- A mask for all digits finds what it finds in one of them. -/
theorem and_digits (mask : a < 2 ^ w) (low : ∀ x ∈ xs, x < 2 ^ w) :
    Nat.ofDigits (2 ^ w) xs &&& Nat.ofDigits (2 ^ w) (List.replicate xs.length a) = 0 ↔ ∀ x ∈ xs, x &&& a = 0 := by
  induction xs with
  | nil =>
      rw [List.length_nil, List.replicate_zero, Nat.ofDigits_nil]
      exact iff_of_true rfl nofun
  | cons x xs ih =>
      rcases List.forall_mem_cons.mp low with ⟨here, others⟩
      rw [List.length_cons, List.replicate_succ, Nat.ofDigits_cons, Nat.ofDigits_cons, and_lanes here mask, ih others,
        List.forall_mem_cons]

end Lanes

end MnCommon.Radix
