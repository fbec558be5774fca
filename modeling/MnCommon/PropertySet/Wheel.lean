import Mathlib.Data.Nat.Prime.Basic
import Mathlib.Tactic.NormNum.Prime
import MnCommon.PropertySet.Model

/-! The size of the table of a property set. -/

namespace MnCommon.PropertySet

variable {n fuel i p q : Nat}

/-- The last value of `6 * i + 5` that an `int` holds and the loop takes. -/
def wheelEnd : Nat := 2147483639

/-- How far the loop has come: the last index that was no multiple of five is one or
two steps back. -/
def Rolling (i p : Nat) : Prop := 6 * i ≤ p + 1 ∨ i % 5 = 1 ∧ 6 * i ≤ p + 7

theorem wheelFrom_ok (rolling : Rolling i p) (small : p ≤ wheelEnd) (few : n ≤ wheelEnd) (positive : 5 ≤ p)
    (enough : n + 3 ≤ fuel + i) : ∃ q, wheelFrom n fuel i p = .ok q ∧ 5 ≤ q ∧ q ≤ wheelEnd := by
  induction fuel generalizing i p with
  | zero =>
      refine ⟨p, if_neg ?_, positive, small⟩
      simp only [Rolling] at rolling
      omega
  | succ fuel ih =>
      rw [wheelFrom]
      by_cases more : p < n
      · rw [if_pos more]
        simp only [Rolling, wheelEnd] at rolling small few
        by_cases multiple : i % 5 ≠ 0
        · have fits : 6 * i + 5 < 2 ^ 31 := by omega
          rw [if_pos multiple, if_pos fits]
          apply ih
          · exact .inl (by omega)
          · simp only [wheelEnd]
            omega
          · omega
          · omega
        · rw [if_neg multiple]
          apply ih _ small positive
          · omega
          · exact .inr ⟨by omega, by omega⟩
      · rw [if_neg more]
        exact ⟨p, rfl, positive, small⟩

/-- The loop finds no number beyond the end. -/
theorem le_of_wheelFrom (small : p ≤ wheelEnd) (found : wheelFrom n fuel i p = .ok q) : n ≤ wheelEnd := by
  induction fuel generalizing i p with
  | zero =>
      rw [wheelFrom] at found
      split at found
      · cases found
      · omega
  | succ fuel ih =>
      rw [wheelFrom] at found
      split at found
      · split at found
        next multiple =>
          split at found
          next fits =>
            apply ih _ found
            simp only [wheelEnd]
            omega
          next => cases found
        next => exact ih small found
      · omega

theorem wheel_ok (few : n ≤ wheelEnd) : ∃ q, wheel2x3FindPrime n = .ok q ∧ 5 ≤ q ∧ q ≤ wheelEnd :=
  wheelFrom_ok (.inr ⟨rfl, by decide⟩) (by decide) few (Nat.le_refl 5) (Nat.le_refl _)

theorem le_of_wheel (found : wheel2x3FindPrime n = .ok q) : n ≤ wheelEnd := le_of_wheelFrom (by decide) found

/-- The values of the loop. -/
def Spoke (p : Nat) : Prop := p % 6 = 5 ∧ (p = 5 ∨ p % 5 ≠ 0)

/-- The value `p` in front of the index `i`. -/
structure Turned (n i p : Nat) : Prop where
  spoke : Spoke p
  latest : ∀ q, Spoke q → q < 6 * i + 5 → q ≤ p
  below : ∀ q, Spoke q → q < p → q < n
  index : 1 ≤ i

theorem Turned.first (n : Nat) : Turned n 1 5 where
  spoke := ⟨rfl, .inl rfl⟩
  latest q spoke less := by
    have residue := spoke.1
    omega
  below q spoke less := by
    have residue := spoke.1
    omega
  index := Nat.le_refl 1

theorem Turned.next (turned : Turned n i p) (more : p < n) (multiple : i % 5 ≠ 0) : Turned n (i + 1) (6 * i + 5) where
  spoke := ⟨by omega, .inr (by omega)⟩
  latest q spoke less := by
    have residue := spoke.1
    omega
  below q spoke less := Nat.lt_of_le_of_lt (turned.latest q spoke less) more
  index := Nat.le_add_left 1 i

theorem Turned.skip (turned : Turned n i p) (multiple : i % 5 = 0) : Turned n (i + 1) p where
  spoke := turned.spoke
  latest q spoke less := by
    by_cases before : q < 6 * i + 5
    · exact turned.latest q spoke before
    · -- This value is left out, as a multiple of five.
      have index := turned.index
      rcases spoke with ⟨residue, five | other⟩ <;> omega
  below := turned.below
  index := Nat.le_add_left 1 i

/-- At the end of the loop. -/
theorem Turned.least (turned : Turned n i p) (enough : ¬ p < n) : IsLeast {v | n ≤ v ∧ Spoke v} p := by
  refine ⟨⟨Nat.le_of_not_lt enough, turned.spoke⟩, ?_⟩
  rintro v ⟨large, spoke⟩
  by_contra less
  exact absurd (turned.below v spoke (Nat.lt_of_not_le less)) (Nat.not_lt.mpr large)

theorem wheelFrom_least (turned : Turned n i p) (found : wheelFrom n fuel i p = .ok q) :
    IsLeast {v | n ≤ v ∧ Spoke v} q := by
  induction fuel generalizing i p with
  | zero =>
      rw [wheelFrom] at found
      split at found
      · cases found
      · next enough =>
          cases found
          exact turned.least enough
  | succ fuel ih =>
      rw [wheelFrom] at found
      split at found
      · next more =>
          split at found
          · next multiple =>
              split at found
              · exact ih (turned.next more multiple) found
              · cases found
          · next multiple => exact ih (turned.skip (by omega)) found
      · next enough =>
          cases found
          exact turned.least enough

theorem wheel_least (found : wheel2x3FindPrime n = .ok p) : IsLeast {v | n ≤ v ∧ Spoke v} p :=
  wheelFrom_least (.first n) found

/-- A number that the wheel takes for a prime, with no prime of its kind in front of it from `n` on. -/
structure Missed (n m : Nat) : Prop where
  reached : n ≤ m
  residue : m % 6 = 5
  other : m % 5 ≠ 0
  composite : ¬ m.Prime
  first : ∀ q, n ≤ q → q < m → q % 6 = 5 → ¬ q.Prime

theorem spoke_of_prime (prime : p.Prime) (residue : p % 6 = 5) : Spoke p := by
  refine ⟨residue, or_iff_not_imp_left.mpr ?_⟩
  intro other multiple
  exact other ((Nat.prime_dvd_prime_iff_eq Nat.prime_five prime).mp (Nat.dvd_of_mod_eq_zero multiple)).symm

theorem prime_iff_not_missed (least : IsLeast {v | n ≤ v ∧ Spoke v} p) : p.Prime ↔ ¬ ∃ m, Missed n m := by
  rcases least with ⟨⟨large, spoke⟩, lower⟩
  constructor
  · rintro prime ⟨m, missed⟩
    have before : p ≤ m := lower ⟨missed.reached, missed.residue, .inr missed.other⟩
    rcases Nat.lt_or_eq_of_le before with less | same
    · exact missed.first p large less spoke.1 prime
    · exact missed.composite (same ▸ prime)
  · intro none
    by_contra composite
    have other : p % 5 ≠ 0 := by
      rcases spoke.2 with rfl | other
      · exact absurd Nat.prime_five composite
      · exact other
    refine none ⟨p, large, spoke.1, other, composite, ?_⟩
    intro q here less residue prime
    exact absurd (lower ⟨here, spoke_of_prime prime residue⟩) (Nat.not_le.mpr less)

/-- The loop finds a prime just when no composite number of the wheel comes before the next prime of it. -/
theorem wheel_finds_prime (few : n ≤ wheelEnd) :
    (∃ p, wheel2x3FindPrime n = .ok p ∧ p.Prime ∧ n ≤ p) ↔ ¬ ∃ m, Missed n m := by
  rcases wheel_ok few with ⟨p, found, -, -⟩
  have least := wheel_least found
  rw [← prime_iff_not_missed least, found]
  constructor
  · rintro ⟨q, same, prime, -⟩
    cases same
    exact prime
  · intro prime
    exact ⟨p, rfl, prime, least.1.1⟩

theorem wheel_finds_seventeen : ¬ ∃ m, Missed 12 m :=
  (wheel_finds_prime (by decide)).mp ⟨17, rfl, by norm_num, by decide⟩

/-- 77 is 7 * 11. -/
theorem wheel_finds_composite : ¬ ∀ n ≤ wheelEnd, ∃ p, wheel2x3FindPrime n = .ok p ∧ p.Prime ∧ n ≤ p := by
  intro all
  rcases all 72 (by decide) with ⟨p, found, prime, -⟩
  have value : wheel2x3FindPrime 72 = .ok 77 := rfl
  cases value.symm.trans found
  exact absurd prime (by norm_num)

end MnCommon.PropertySet
