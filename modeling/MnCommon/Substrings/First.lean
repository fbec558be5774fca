import Mathlib.Data.List.Infix

/-! Where a pattern stands in a list, from the left. -/

namespace MnCommon.Substrings

variable {α : Type} {pattern text : List α} {i k : Nat}

/-- The pattern stands at the index. -/
def OccursAt (pattern text : List α) (i : Nat) : Prop := pattern <+: text.drop i

theorem occursAt_drop : OccursAt pattern (text.drop k) i ↔ OccursAt pattern text (k + i) := by
  rw [OccursAt, OccursAt, List.drop_drop]

/-- A pattern ends inside of the list. -/
theorem OccursAt.fits (occurs : OccursAt pattern text i) (filled : pattern ≠ []) : i + pattern.length ≤ text.length := by
  have short := occurs.length_le
  have positive := List.length_pos_iff.mpr filled
  rw [List.length_drop] at short
  omega

theorem infix_iff_occursAt : pattern <:+: text ↔ ∃ i, OccursAt pattern text i := by
  constructor
  · rintro ⟨front, back, rfl⟩
    refine ⟨front.length, ?_⟩
    rw [OccursAt, List.append_assoc, List.drop_left]
    exact List.prefix_append pattern back
  · rintro ⟨i, occurs⟩
    exact occurs.isInfix.trans (List.drop_suffix i text).isInfix

variable [DecidableEq α]

/-- The first index at which the pattern stands. -/
def firstIn (pattern : List α) : List α → Option Nat
  | [] => if pattern = [] then some 0 else none
  | c :: rest => if pattern <+: c :: rest then some 0 else (firstIn pattern rest).map (· + 1)

theorem firstIn_eq_some (filled : pattern ≠ []) :
    firstIn pattern text = some i ↔ OccursAt pattern text i ∧ ∀ j < i, ¬ OccursAt pattern text j := by
  induction text generalizing i with
  | nil =>
      have absent : ∀ j, ¬ OccursAt pattern [] j := by
        intro j occurs
        rw [OccursAt, List.drop_nil, List.prefix_nil] at occurs
        exact filled occurs
      rw [firstIn, if_neg filled]
      exact iff_of_false nofun fun both => absent i both.1
  | cons c rest ih =>
      rw [firstIn]
      split
      next here =>
        constructor
        · intro same
          cases same
          exact ⟨here, fun _ below => absurd below (Nat.not_lt_zero _)⟩
        · rintro ⟨-, before⟩
          cases i with
          | zero => rfl
          | succ i => exact absurd here (before 0 (Nat.succ_pos i))
      next elsewhere =>
        rw [Option.map_eq_some_iff]
        constructor
        · rintro ⟨k, found, rfl⟩
          rcases ih.mp found with ⟨occurs, before⟩
          refine ⟨occurs, fun j below => ?_⟩
          cases j with
          | zero => exact elsewhere
          | succ j => exact before j (Nat.lt_of_succ_lt_succ below)
        · rintro ⟨occurs, before⟩
          cases i with
          | zero => exact absurd occurs elsewhere
          | succ i => exact ⟨i, ih.mpr ⟨occurs, fun j below => before (j + 1) (Nat.succ_lt_succ below)⟩, rfl⟩

theorem firstIn_eq_none (filled : pattern ≠ []) : firstIn pattern text = none ↔ ¬ pattern <:+: text := by
  induction text with
  | nil =>
      rw [firstIn, if_neg filled, List.infix_nil]
      exact iff_of_true rfl filled
  | cons c rest ih =>
      rw [firstIn, List.infix_cons_iff, not_or]
      split
      next here => exact iff_of_false nofun fun both => both.1 here
      next elsewhere => rw [Option.map_eq_none_iff, ih, and_iff_right elsewhere]

/-- The first index from `k` on at which the pattern stands. -/
def firstFrom (pattern text : List α) (k : Nat) : Option Nat := (firstIn pattern (text.drop k)).map (k + ·)

theorem firstFrom_eq_some (filled : pattern ≠ []) :
    firstFrom pattern text k = some i ↔
      k ≤ i ∧ OccursAt pattern text i ∧ ∀ j, k ≤ j → j < i → ¬ OccursAt pattern text j := by
  rw [firstFrom, Option.map_eq_some_iff]
  constructor
  · rintro ⟨d, found, rfl⟩
    rcases (firstIn_eq_some filled).mp found with ⟨occurs, before⟩
    refine ⟨Nat.le_add_right k d, occursAt_drop.mp occurs, fun j least below => ?_⟩
    have none := before (j - k) (by omega)
    rwa [occursAt_drop, Nat.add_sub_cancel' least] at none
  · rintro ⟨least, occurs, before⟩
    refine ⟨i - k, (firstIn_eq_some filled).mpr ⟨?_, fun j below => ?_⟩, Nat.add_sub_cancel' least⟩
    · rwa [occursAt_drop, Nat.add_sub_cancel' least]
    · rw [occursAt_drop]
      exact before (k + j) (Nat.le_add_right k j) (by omega)

theorem firstFrom_eq_none (filled : pattern ≠ []) :
    firstFrom pattern text k = none ↔ ∀ i, k ≤ i → ¬ OccursAt pattern text i := by
  rw [firstFrom, Option.map_eq_none_iff, firstIn_eq_none filled, infix_iff_occursAt, not_exists]
  constructor
  · intro none i least occurs
    apply none (i - k)
    rwa [occursAt_drop, Nat.add_sub_cancel' least]
  · intro none i occurs
    exact none (k + i) (Nat.le_add_right k i) (occursAt_drop.mp occurs)

/-- In front of its first occurrence a pattern does not stand. -/
theorem not_infix_take (filled : pattern ≠ []) (first : firstIn pattern text = some i) : ¬ pattern <:+: text.take i := by
  rw [infix_iff_occursAt]
  rintro ⟨j, occurs⟩
  have short := occurs.fits filled
  have positive := List.length_pos_iff.mpr filled
  have inside := List.length_take_le i text
  apply ((firstIn_eq_some filled).mp first).2 j (by omega)
  rw [OccursAt, List.drop_take] at occurs
  exact occurs.trans (List.take_prefix _ _)

/-- What is in front of the first occurrence, the pattern and what is behind it. -/
theorem split_first (filled : pattern ≠ []) (first : firstIn pattern text = some i) :
    text.take i ++ (pattern ++ text.drop (i + pattern.length)) = text := by
  rcases ((firstIn_eq_some filled).mp first).1 with ⟨back, shape⟩
  have behind : text.drop (i + pattern.length) = back := by
    rw [← List.drop_drop, ← shape, List.drop_left]
  rw [behind, shape, List.take_append_drop]

end MnCommon.Substrings
