import MnCommon.Pbtrie.Model
import MnCommon.Tries.Patricia
import Mathlib.Data.Nat.Bitwise

/-! The masks of `pbtrie.c` as numbers of free digits. -/

namespace MnCommon.Pbtrie

open Memory Trees Tries

/-- The mask that leaves the lowest `free` digits of a key out. -/
def mask (free : Nat) : UInt64 := if free ≥ 64 then 0 else uint64Max <<< free.toUInt64

theorem xmask_eq (keyPrefix key : UInt64) : xmask keyPrefix key = mask (flsl (keyPrefix ^^^ key)) := rfl

variable {i j : Nat} {x y k : UInt64}

theorem mask_toNat (small : i ≤ 64) : (mask i).toNat = 2 ^ 64 - 2 ^ i := by
  have table : ∀ n : Fin 65, (mask n).toNat = 2 ^ 64 - 2 ^ n.val := by decide +kernel
  exact table ⟨i, Nat.lt_succ_of_le small⟩

theorem mask_lt_iff (small : i ≤ 64) (small' : j ≤ 64) : mask i < mask j ↔ j < i := by
  have high := Nat.pow_le_pow_right (Nat.two_pos) small
  have high' := Nat.pow_le_pow_right (Nat.two_pos) small'
  rw [UInt64.lt_iff_toNat_lt, mask_toNat small, mask_toNat small']
  constructor
  · intro less
    have powers : 2 ^ j < 2 ^ i := by omega
    exact (Nat.pow_lt_pow_iff_right Nat.one_lt_two).mp powers
  · intro less
    have powers := (Nat.pow_lt_pow_iff_right Nat.one_lt_two).mpr less
    omega

theorem min_mask (small : i ≤ 64) (small' : j ≤ 64) : min (mask i) (mask j) = mask (max i j) := by
  change (if mask i ≤ mask j then _ else _) = _
  by_cases order : mask i ≤ mask j
  · have less : j ≤ i := by
      by_contra other
      exact absurd ((mask_lt_iff small' small).mpr (Nat.lt_of_not_le other)) (UInt64.not_lt.mpr order)
    rw [if_pos order, Nat.max_eq_left less]
  · have less := (mask_lt_iff small' small).mp (UInt64.not_le.mp order)
    rw [if_neg order, Nat.max_eq_right less.le]

theorem mask_zero : mask 0 = uint64Max := by decide

theorem mask_full : mask 64 = 0 := by decide

theorem and_mask (k : UInt64) (small : i ≤ 64) : (k &&& mask i).toNat = k.toNat / 2 ^ i * 2 ^ i := by
  have shape : 2 ^ 64 - 2 ^ i = (2 ^ (64 - i) - 1) * 2 ^ i := by
    rw [Nat.sub_mul, ← pow_add, Nat.sub_add_cancel small, Nat.one_mul]
  rw [UInt64.toNat_and, mask_toNat small, shape]
  apply Nat.eq_of_testBit_eq
  intro digit
  rw [Nat.testBit_and, Nat.testBit_mul_two_pow, Nat.testBit_mul_two_pow, Nat.testBit_two_pow_sub_one,
    Nat.testBit_div_two_pow]
  by_cases low : i ≤ digit
  · rw [decide_eq_true low, Bool.true_and, Bool.true_and, Nat.sub_add_cancel low]
    by_cases high : digit - i < 64 - i
    · rw [decide_eq_true high, Bool.and_true]
    · have beyond : k.toNat < 2 ^ digit :=
        k.toNat_lt.trans_le (Nat.pow_le_pow_right Nat.two_pos (by omega))
      rw [Nat.testBit_lt_two_pow beyond, Bool.false_and]
  · rw [decide_eq_false low, Bool.false_and, Bool.false_and, Bool.and_false]

theorem flsl_le_iff : flsl x ≤ i ↔ x.toNat < 2 ^ i := by
  rw [flsl]
  by_cases zero : x = 0
  · subst zero
    rw [if_pos rfl]
    exact ⟨fun _ => Nat.two_pow_pos i, fun _ => Nat.zero_le i⟩
  · have some : x.toNat ≠ 0 := fun none => zero (UInt64.toNat_inj.mp none)
    rw [if_neg zero, Nat.succ_le_iff, Nat.log2_lt some]

/-- The number of digits below which two keys differ. -/
theorem flsl_xor_le_iff : flsl (x ^^^ y) ≤ i ↔ x.toNat / 2 ^ i = y.toNat / 2 ^ i := by
  rw [flsl_le_iff, UInt64.toNat_xor, ← Nat.div_eq_zero_iff_lt (Nat.two_pow_pos i), Nat.xor_div_two_pow,
    Nat.xor_eq_zero_iff]

theorem flsl_le (x : UInt64) : flsl x ≤ 64 := flsl_le_iff.mpr x.toNat_lt

theorem shift_mask (proper : i ≤ 63) (deep : 0 < i) :
    ((mask i).toInt64 >>> 1).toUInt64 = mask (i - 1) := by
  have table : ∀ n : Fin 64, 0 < n.val → ((mask n).toInt64 >>> 1).toUInt64 = mask (n - 1) := by decide +kernel
  exact table ⟨i, Nat.lt_succ_of_le proper⟩ deep

/-- `childsel` reads the digit after the mask. -/
theorem childsel_eq (proper : i ≤ 63) (deep : 0 < i) (base : x.toNat = k.toNat / 2 ^ i * 2 ^ i) :
    childsel (mask i) x k = nextSide k.toNat (Prefix.cut k.toNat i) := by
  have low : i - 1 + 1 = i := Nat.sub_add_cancel deep
  have halves : k.toNat / 2 ^ (i - 1) / 2 = k.toNat / 2 ^ i := by
    rw [Nat.div_div_eq_div_mul, ← pow_succ, low]
  have split := Nat.div_add_mod (k.toNat / 2 ^ (i - 1)) 2
  have power : 2 ^ i = 2 * 2 ^ (i - 1) := by rw [← low, pow_succ, Nat.mul_comm, Nat.add_sub_cancel]
  have positive := Nat.two_pow_pos (i - 1)
  have order : k &&& mask (i - 1) ≤ x ↔ k.toNat / 2 ^ (i - 1) % 2 = 0 := by
    rw [UInt64.le_iff_toNat_le, and_mask k (by omega), base, ← halves, power, ← Nat.mul_assoc,
      Nat.mul_le_mul_right_iff positive]
    omega
  rw [childsel, shift_mask proper deep]
  change _ = sideOf (k.toNat / 2 ^ (i - 1) % 2 == 1)
  rcases Nat.mod_two_eq_zero_or_one (k.toNat / 2 ^ (i - 1)) with even | odd
  · rw [if_pos (order.mpr even), even]
    rfl
  · have differs : ¬ k &&& mask (i - 1) ≤ x := fun less => Nat.one_ne_zero (odd.symm.trans (order.mp less))
    rw [if_neg differs, odd]
    rfl

end MnCommon.Pbtrie
