import MnCommon.Arrays.Model

/-! From elements to their addresses and back. The data of an array lie at an address `s`, which is a
`uintptr_t`. -/

namespace MnCommon.Arrays

/-- NULL is no element. -/
def arrayGet (s : Nat) (ar : Mnarray) (idx : Nat) : Option Nat :=
  if idx < ar.elnum then some (s + ar.elsz * idx) else none

/-- The quotient becomes an `int`. -/
def arrayIndex (s : Nat) (ar : Mnarray) (n : Nat) : Int :=
  let d := (2 ^ 64 - s + n) % 2 ^ 64
  if s ≤ n ∧ n < s * ar.elsz % 2 ^ 64 ∧ d % ar.elsz = 0 then ((d / ar.elsz : Nat) : Int).bmod (2 ^ 32) else -1

/-- `array_index` finds the elements that `array_get` answers, and nothing else. -/
def Inverts (s : Nat) (ar : Mnarray) : Prop :=
  (∀ i p, arrayGet s ar i = some p → arrayIndex s ar p = i) ∧
    ∀ n < 2 ^ 64, (∀ i, arrayGet s ar i ≠ some n) → arrayIndex s ar n = -1

/-- What is taken for the end of the data is behind the last element, and not behind the end; the
indices fit into an `int`. -/
def EndsRight (s : Nat) (ar : Mnarray) : Prop :=
  ar.elnum ≤ 2 ^ 31 ∧
    if ar.elnum = 0 then s * ar.elsz % 2 ^ 64 ≤ s
    else s + ar.elsz * (ar.elnum - 1) < s * ar.elsz % 2 ^ 64 ∧ s * ar.elsz % 2 ^ 64 ≤ s + ar.elsz * ar.elnum

variable {s n k i : Nat} {ar : Mnarray}

theorem arrayGet_eq_some : arrayGet s ar i = some n ↔ i < ar.elnum ∧ s + ar.elsz * i = n := by
  rw [arrayGet]
  split
  next inside => rw [Option.some.injEq, and_iff_right inside]
  next outside => exact iff_of_false nofun fun both => outside both.1

/-- The address of some element, if there were as many. -/
theorem arrayIndex_multiple (positive : 0 < ar.elsz) (address : s + ar.elsz * k < 2 ^ 64) :
    arrayIndex s ar (s + ar.elsz * k) =
      if s + ar.elsz * k < s * ar.elsz % 2 ^ 64 then ((k : Nat) : Int).bmod (2 ^ 32) else -1 := by
  have distance : (2 ^ 64 - s + (s + ar.elsz * k)) % 2 ^ 64 = ar.elsz * k := by omega
  rw [arrayIndex, distance, Nat.mul_mod_right, Nat.mul_div_cancel_left _ positive]
  simp only [Nat.le_add_right, true_and, and_true]

/-- Other addresses. -/
theorem arrayIndex_other (address : n < 2 ^ 64) (other : ∀ k, n ≠ s + ar.elsz * k) : arrayIndex s ar n = -1 := by
  rw [arrayIndex]
  apply if_neg
  rintro ⟨behind, _, multiple⟩
  have distance : (2 ^ 64 - s + n) % 2 ^ 64 = n - s := by omega
  rw [distance] at multiple
  rcases Nat.dvd_of_mod_eq_zero multiple with ⟨k, quotient⟩
  exact other k (by omega)

theorem bmod_small (low : k < 2 ^ 31) : ((k : Nat) : Int).bmod (2 ^ 32) = k := by
  apply Int.bmod_eq_of_le <;> omega

theorem bmod_limit : ((2 ^ 31 : Nat) : Int).bmod (2 ^ 32) = -(2 ^ 31) := by decide

/-- Which multiples lie below the number that is taken for the end. -/
theorem below_end_iff (right : EndsRight s ar) (k : Nat) : s + ar.elsz * k < s * ar.elsz % 2 ^ 64 ↔ k < ar.elnum := by
  rcases right with ⟨_, ends⟩
  split at ends
  next empty => omega
  next filled =>
    constructor
    · intro below
      by_contra behind
      have far : ar.elsz * ar.elnum ≤ ar.elsz * k := Nat.mul_le_mul_left _ (Nat.not_lt.mp behind)
      omega
    · intro inside
      have near : ar.elsz * k ≤ ar.elsz * (ar.elnum - 1) := Nat.mul_le_mul_left _ (by omega)
      omega

theorem element_lt (positive : 0 < ar.elsz) (inside : i < ar.elnum) : ar.elsz * i < ar.elsz * ar.elnum :=
  Nat.mul_lt_mul_of_pos_left inside positive

theorem EndsRight.inverts (positive : 0 < ar.elsz) (whole : s + ar.elsz * ar.elnum ≤ 2 ^ 64)
    (right : EndsRight s ar) : Inverts s ar := by
  constructor
  · intro i p got
    rcases arrayGet_eq_some.mp got with ⟨inside, rfl⟩
    have low := element_lt positive inside
    rw [arrayIndex_multiple positive (by omega), if_pos ((below_end_iff right i).mpr inside)]
    exact bmod_small (inside.trans_le right.1)
  · intro n address none
    by_cases multiple : ∃ k, n = s + ar.elsz * k
    · rcases multiple with ⟨k, rfl⟩
      have outside : ¬ k < ar.elnum := fun inside => none k (arrayGet_eq_some.mpr ⟨inside, rfl⟩)
      rw [arrayIndex_multiple positive address, if_neg fun below => outside ((below_end_iff right k).mp below)]
    · exact arrayIndex_other address fun k same => multiple ⟨k, same⟩

/-- The answer for a place that is below the number that is taken for the end. -/
theorem Inverts.below {i : Nat} (positive : 0 < ar.elsz) (whole : s + ar.elsz * ar.elnum ≤ 2 ^ 64)
    (inverts : Inverts s ar) (inside : i < ar.elnum) :
    s + ar.elsz * i < s * ar.elsz % 2 ^ 64 ∧ ((i : Nat) : Int).bmod (2 ^ 32) = i := by
  have low := element_lt positive inside
  have found := inverts.1 i _ (arrayGet_eq_some.mpr ⟨inside, rfl⟩)
  rw [arrayIndex_multiple positive (by omega)] at found
  split at found
  next below => exact ⟨below, found⟩
  next => omega

/-- Nothing behind the elements is below it. -/
theorem Inverts.above (positive : 0 < ar.elsz) (small : ar.elnum ≤ 2 ^ 31) (inverts : Inverts s ar) :
    s * ar.elsz % 2 ^ 64 ≤ s + ar.elsz * ar.elnum := by
  by_contra below
  have address : s + ar.elsz * ar.elnum < 2 ^ 64 := (Nat.not_le.mp below).trans (Nat.mod_lt _ (Nat.two_pow_pos 64))
  have outside : ∀ i, arrayGet s ar i ≠ some (s + ar.elsz * ar.elnum) := by
    intro i got
    rcases arrayGet_eq_some.mp got with ⟨inside, same⟩
    have low := element_lt positive inside
    omega
  have found := inverts.2 _ address outside
  rw [arrayIndex_multiple positive address, if_pos (Nat.not_le.mp below)] at found
  rcases Nat.lt_or_eq_of_le small with low | limit
  · rw [bmod_small low] at found
    omega
  · rw [limit, bmod_limit] at found
    exact absurd found (by decide)

theorem array_index_inverts_iff (positive : 0 < ar.elsz) (whole : s + ar.elsz * ar.elnum ≤ 2 ^ 64) :
    Inverts s ar ↔ EndsRight s ar := by
  constructor
  · intro inverts
    have small : ar.elnum ≤ 2 ^ 31 := by
      by_contra large
      have found := (inverts.below positive whole (Nat.not_le.mp large)).2
      rw [bmod_limit] at found
      exact absurd found (by decide)
    have above := inverts.above positive small
    refine ⟨small, ?_⟩
    split
    next empty => rwa [empty, Nat.mul_zero, Nat.add_zero] at above
    next filled => exact ⟨(inverts.below positive whole (Nat.sub_one_lt filled)).1, above⟩
  · exact EndsRight.inverts positive whole

/-- Two elements of five bytes at the address 2. -/
theorem array_index_inverts_iff_sample :
    (0 < 5 ∧ 2 + 5 * 2 ≤ 2 ^ 64) ∧
      (Inverts 2 ⟨5, 2, none, 16, none, none⟩ ↔ EndsRight 2 ⟨5, 2, none, 16, none, none⟩) :=
  ⟨by decide, array_index_inverts_iff (by decide) (by decide)⟩

/-- The address behind two elements of eight bytes has the index 2. -/
theorem array_index_behind : ¬ Inverts 4096 ⟨8, 2, none, 16, none, none⟩ := by
  intro inverts
  have outside : ∀ i, arrayGet 4096 ⟨8, 2, none, 16, none, none⟩ i ≠ some 4112 := by
    intro i got
    rcases arrayGet_eq_some.mp got with ⟨inside, same⟩
    change i < 2 at inside
    change 4096 + 8 * i = 4112 at same
    omega
  exact absurd (inverts.2 4112 (by decide) outside) (by decide)

end MnCommon.Arrays
