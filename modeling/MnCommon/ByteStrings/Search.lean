import Mathlib.Order.Lattice.Nat
import MnCommon.ByteStrings.Calls
import MnCommon.Substrings.First

/-! What `strrstr` finds with `strstr`. -/

namespace MnCommon.ByteStrings

open Memory Substrings

variable {data text behind little : List UInt8} {i k m p fuel : Nat} {res : Option Nat}

/-- The characters in front of the first NUL. Without one they are read past the end of the memory. -/
def charsOf : List UInt8 → Option (List UInt8)
  | [] => none
  | c :: rest => if c = 0 then some [] else (charsOf rest).map (c :: ·)

/-- Where in the memory `little` stands first from the index on, if no read leaves the memory. -/
def strstr (data : List UInt8) (big : Nat) (little : List UInt8) : Option (Option Nat) :=
  (charsOf (data.drop big)).map fun chars => (firstIn little chars).map (big + ·)

/-- The loop of `strrstr`. -/
def strrstrLoop (data little : List UInt8) : Nat → Nat → Option Nat → Option (Option Nat)
  | 0, _, _ => none
  | fuel + 1, big, res =>
      match strstr data big little with
      | none => none
      | some none => some res
      | some (some tmp) => strrstrLoop data little fuel (big + little.length) (some tmp)

/-- For a string at the beginning of the memory. The index gets further with every search. -/
def strrstr (data little : List UInt8) : Option (Option Nat) :=
  if little.length = 0 then (charsOf data).map fun chars => some chars.length
  else strrstrLoop data little data.length 0 none

theorem charsOf_ended (clean : 0 ∉ text) (behind : List UInt8) : charsOf (text ++ 0 :: behind) = some text := by
  induction text with
  | nil => rfl
  | cons c rest ih =>
      rw [List.mem_cons, not_or] at clean
      rw [List.cons_append, charsOf, if_neg (Ne.symm clean.1), ih clean.2]
      rfl

theorem strstr_ahead (clean : 0 ∉ text) (ahead : data.drop k = text ++ 0 :: behind) :
    strstr data k little = some ((firstIn little text).map (k + ·)) := by
  rw [strstr, ahead, charsOf_ended clean]
  rfl

/-- Inside of the string the search stays inside of it. -/
theorem strstr_ended (clean : 0 ∉ text) (inside : k ≤ text.length) :
    strstr (text ++ [0]) k little = some (firstFrom little text k) := by
  have ahead : (text ++ [0]).drop k = text.drop k ++ [0] := List.drop_append_of_le_length inside
  exact strstr_ahead (fun within => clean (List.mem_of_mem_drop within)) ahead

/-- Nothing is found any more. -/
theorem strrstrLoop_stop (clean : 0 ∉ text) (filled : little ≠ []) (inside : k ≤ text.length)
    (absent : ∀ i, k ≤ i → ¬ OccursAt little text i) (fuel : Nat) (res : Option Nat) :
    strrstrLoop (text ++ [0]) little (fuel + 1) k res = some res := by
  rw [strrstrLoop, strstr_ended clean inside, (firstFrom_eq_none filled).mpr absent]

/-- With the last occurrence at `p`, the last search that finds anything begins at the last multiple of the
length in front of `p`. -/
theorem strrstrLoop_last (clean : 0 ∉ text) (filled : little ≠ []) (last : IsGreatest {i | OccursAt little text i} p)
    (start : m * little.length ≤ p) (enough : p / little.length + 2 ≤ fuel + m) :
    strrstrLoop (text ++ [0]) little fuel (m * little.length) res =
      some (firstFrom little text (p / little.length * little.length)) := by
  have positive := List.length_pos_iff.mpr filled
  have fits := OccursAt.fits last.1 filled
  have further : m ≤ p / little.length := (Nat.le_div_iff_mul_le positive).mpr start
  induction fuel generalizing m res with
  | zero => omega
  | succ fuel ih =>
      have found : firstFrom little text (m * little.length) ≠ none := by
        rw [Ne, firstFrom_eq_none filled]
        exact fun absent => absent p start last.1
      rcases Option.ne_none_iff_exists'.mp found with ⟨tmp, here⟩
      rw [strrstrLoop, strstr_ended clean (by omega), here]
      dsimp only
      rw [← Nat.succ_mul]
      by_cases more : (m + 1) * little.length ≤ p
      · exact ih more (by omega) ((Nat.le_div_iff_mul_le positive).mpr more)
      · have final : m = p / little.length := by
          apply Nat.le_antisymm further
          exact Nat.le_of_lt_succ ((Nat.div_lt_iff_lt_mul positive).mpr (Nat.lt_of_not_le more))
        have absent : ∀ i, (m + 1) * little.length ≤ i → ¬ OccursAt little text i := by
          intro i least occurs
          exact more (least.trans (last.2 occurs))
        have inside : (m + 1) * little.length ≤ text.length := by
          rw [Nat.succ_mul]
          omega
        cases fuel with
        | zero => omega
        | succ fuel => rw [strrstrLoop_stop clean filled inside absent, ← here, final]

/-- `strrstr` answers the greatest index at which `little` stands, if there is one, and leaves the memory nowhere. -/
def FindsLast (data text little : List UInt8) : Prop :=
  ∃ res, strrstr data little = some res ∧ ∀ p, res = some p ↔ IsGreatest {i | OccursAt little text i} p

theorem exists_last (filled : little ≠ []) (occurs : OccursAt little text i) :
    ∃ p, IsGreatest {i | OccursAt little text i} p := by
  have bounded : BddAbove {i | OccursAt little text i} := by
    refine ⟨text.length, fun j there => ?_⟩
    exact (Nat.le_add_right j little.length).trans (OccursAt.fits there filled)
  exact ⟨_, Nat.sSup_mem ⟨i, occurs⟩ bounded, fun j there => le_csSup bounded there⟩

/-- Two indices are within the same multiples of a length. -/
theorem same_window {q n : Nat} (positive : 0 < n) (below : q < p) : q / n = p / n ↔ p / n * n ≤ q := by
  rw [← Nat.le_div_iff_mul_le positive]
  constructor
  · exact fun same => same.ge
  · exact fun least => Nat.le_antisymm (Nat.div_le_div_right below.le) least

/-- The last occurrence is found when no other one begins in the same window of the length of `little`. -/
theorem strrstr_last_iff (clean : 0 ∉ text) (filled : little ≠ []) :
    FindsLast (text ++ [0]) text little ↔
      ∀ p, IsGreatest {i | OccursAt little text i} p →
        ∀ q < p, OccursAt little text q → q / little.length ≠ p / little.length := by
  have positive := List.length_pos_iff.mpr filled
  have size : (text ++ [(0 : UInt8)]).length = text.length + 1 := List.length_append
  have loop : strrstr (text ++ [0]) little = strrstrLoop (text ++ [0]) little (text.length + 1) 0 none := by
    rw [strrstr, if_neg (Nat.ne_of_gt positive), size]
  by_cases anywhere : ∃ i, OccursAt little text i
  · rcases exists_last filled anywhere.choose_spec with ⟨p, last⟩
    have fits := OccursAt.fits last.1 filled
    have windows : p / little.length ≤ p := Nat.div_le_self p _
    have started : strrstrLoop (text ++ [0]) little (text.length + 1) (0 * little.length) none = _ :=
      strrstrLoop_last clean filled last (by omega) (by omega)
    rw [Nat.zero_mul] at started
    have only : ∀ r, IsGreatest {i | OccursAt little text i} r ↔ r = p := by
      intro r
      constructor
      · exact fun greatest => greatest.unique last
      · rintro rfl
        exact last
    have found : firstFrom little text (p / little.length * little.length) = some p ↔
        ∀ q < p, OccursAt little text q → q / little.length ≠ p / little.length := by
      have here : OccursAt little text p := last.1
      rw [firstFrom_eq_some filled, and_iff_right (Nat.div_mul_le_self p _), and_iff_right here]
      constructor
      · intro before q below occurs same
        exact before q ((same_window positive below).mp same) below occurs
      · intro apart q least below occurs
        exact apart q below occurs ((same_window positive below).mpr least)
    rw [FindsLast, loop, started]
    simp only [only, forall_eq, ← found]
    constructor
    · rintro ⟨res, same, answer⟩
      cases same
      exact (answer p).mpr rfl
    · intro first
      refine ⟨_, rfl, fun r => ?_⟩
      rw [first, Option.some.injEq, eq_comm]
  · rw [not_exists] at anywhere
    have stopped := strrstrLoop_stop clean filled (Nat.zero_le _) (fun i _ => anywhere i) text.length none
    refine iff_of_true ⟨none, loop.trans stopped, fun p => ?_⟩ fun p last => absurd last.1 (anywhere p)
    exact iff_of_false nofun fun last => anywhere p last.1

/-- "b" in "ab". -/
theorem strrstr_last_iff_ab :
    0 ∉ ([97, 98] : List UInt8) ∧ ([98] : List UInt8) ≠ [] ∧
      (FindsLast ([97, 98] ++ [0]) [97, 98] [98] ↔
        ∀ p, IsGreatest {i | OccursAt [98] ([97, 98] : List UInt8) i} p →
          ∀ q < p, OccursAt [98] ([97, 98] : List UInt8) q → q / 1 ≠ p / 1) :=
  ⟨by decide, by decide, strrstr_last_iff (by decide) (by decide)⟩

/-- "aa" stands in "aaa" at 0 and 1, and 0 is the answer. -/
theorem strrstr_misses_last :
    0 ∉ ([97, 97, 97] : List UInt8) ∧ ([97, 97] : List UInt8) ≠ [] ∧
      ¬ FindsLast ([97, 97, 97] ++ [0]) [97, 97, 97] [97, 97] := by
  refine ⟨by decide, by decide, ?_⟩
  rintro ⟨res, ran, answer⟩
  have first : strrstr ([97, 97, 97] ++ [0]) [97, 97] = some (some 0) := by decide
  have last : IsGreatest {i | OccursAt [97, 97] ([97, 97, 97] : List UInt8) i} 1 := by
    constructor
    · exact ⟨[], rfl⟩
    · intro i occurs
      have fits : i + 2 ≤ 3 := OccursAt.fits occurs (by decide)
      omega
  cases first.symm.trans ran
  exact absurd ((answer 1).mpr last) (by decide)

end MnCommon.ByteStrings
