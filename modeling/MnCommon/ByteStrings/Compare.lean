import MnCommon.ByteStrings.Cache
import MnCommon.Radix.Words

/-! Which strings `bytes_cmp` puts in an order. -/

namespace MnCommon.ByteStrings

open Memory Bytes Radix

variable {s : BytesStore} {x y z : MnBytes} {a b c : Addr} {xs ys zs : List UInt8}

theorem memcmp_swap (xs ys : List UInt8) : memcmp ys xs = - memcmp xs ys := by
  fun_induction memcmp xs ys with
  | case1 x xs ys ih =>
      rw [memcmp, if_pos rfl, ih]
  | case2 x xs y ys other less =>
      rw [memcmp, if_neg (Ne.symm other), if_neg (UInt8.lt_asymm less)]
      rfl
  | case3 x xs y ys other more =>
      have less : y < x := UInt8.lt_of_le_of_ne (UInt8.not_lt.mp more) (Ne.symm other)
      rw [memcmp, if_neg (Ne.symm other), if_pos less]
  | case4 xs ys short =>
      cases xs with
      | nil => cases ys <;> rfl
      | cons x xs =>
          cases ys with
          | nil => rfl
          | cons y ys => exact absurd rfl (short x xs y ys rfl)

theorem memcmp_cons_neg (x y : UInt8) (xs ys : List UInt8) :
    memcmp (x :: xs) (y :: ys) < 0 ↔ x < y ∨ x = y ∧ memcmp xs ys < 0 := by
  rw [memcmp]
  split
  next same => simp [same]
  next other =>
    split
    next less => exact iff_of_true (by decide) (.inl less)
    next more => exact iff_of_false (by decide) fun either => either.elim more fun both => other both.1

theorem memcmp_trans (lengths : xs.length = ys.length) (lengths' : ys.length = zs.length) (first : memcmp xs ys < 0)
    (second : memcmp ys zs < 0) : memcmp xs zs < 0 := by
  induction xs generalizing ys zs with
  | nil => cases first
  | cons x xs ih =>
      cases ys with
      | nil => cases lengths
      | cons y ys =>
          cases zs with
          | nil => cases lengths'
          | cons z zs =>
              rw [memcmp_cons_neg] at first second ⊢
              rcases first with less | ⟨rfl, first⟩
              · rcases second with less' | ⟨rfl, _⟩
                · exact .inl (UInt8.lt_trans less less')
                · exact .inl less
              · rcases second with less | ⟨rfl, second⟩
                · exact .inl less
                · exact .inr ⟨rfl, ih (Nat.succ.inj lengths) (Nat.succ.inj lengths') first second⟩

/-- The comparison of sizes and bytes, for strings with the same hash. -/
def comparedBytes (x y : MnBytes) : Int :=
  if x.sz = y.sz then memcmp x.content y.content else if y.sz < x.sz then 1 else -1

theorem comparedBytes_swap (x y : MnBytes) : comparedBytes y x = - comparedBytes x y := by
  rw [comparedBytes, comparedBytes]
  split
  next same => rw [if_pos same.symm, memcmp_swap]
  next other =>
    rw [if_neg (Ne.symm other)]
    split
    next less =>
      rw [if_neg (lt_asymm less)]
      rfl
    next more => rw [if_pos (lt_of_le_of_ne (not_lt.mp more) other)]

theorem comparedBytes_neg (x y : MnBytes) :
    comparedBytes x y < 0 ↔ x.sz < y.sz ∨ x.sz = y.sz ∧ memcmp x.content y.content < 0 := by
  rw [comparedBytes]
  split
  next same => simp [same]
  next other =>
    split
    next more => exact iff_of_false (by decide) (by omega)
    next less => exact iff_of_true (by decide) (by omega)

theorem comparedBytes_trans (first : comparedBytes x y < 0) (second : comparedBytes y z < 0) :
    comparedBytes x z < 0 := by
  rw [comparedBytes_neg] at first second ⊢
  rcases first with less | ⟨size, first⟩
  · exact .inl (by omega)
  · rcases second with less | ⟨size', second⟩
    · exact .inl (by omega)
    · have lengths : x.content.length = y.content.length := by rw [length_content, length_content, size]
      have lengths' : y.content.length = z.content.length := by rw [length_content, length_content, size']
      exact .inr ⟨size.trans size', memcmp_trans lengths lengths' first second⟩

theorem compared_same (same : fasthash 0 x.content = fasthash 0 y.content) : compared x y = comparedBytes x y := by
  rw [compared, if_pos ((toInt64_sub_eq_zero _ _).mpr same)]
  rfl

/-- Strings with different hashes. -/
theorem compared_other (other : fasthash 0 x.content ≠ fasthash 0 y.content) :
    compared x y = if Before (fasthash 0 x.content) (fasthash 0 y.content) then -1 else 1 := by
  have differ := mt (toInt64_sub_eq_zero _ _).mp other
  rw [compared, if_neg differ]
  by_cases before : Before (fasthash 0 x.content) (fasthash 0 y.content)
  · have negative := before_iff_neg.mp before
    rw [if_pos before, if_neg (Int64.lt_asymm negative)]
  · have positive := mt before_iff_neg.mpr before
    rw [if_neg before, if_pos (Int64.lt_of_le_of_ne (Int64.not_lt.mp positive) (Ne.symm differ))]

theorem compared_neg_iff (x y : MnBytes) :
    compared x y < 0 ↔ Before (fasthash 0 x.content) (fasthash 0 y.content) ∨
      fasthash 0 x.content = fasthash 0 y.content ∧ comparedBytes x y < 0 := by
  by_cases same : fasthash 0 x.content = fasthash 0 y.content
  · have no : ¬ Before (fasthash 0 x.content) (fasthash 0 y.content) := same ▸ not_before_self _
    rw [compared_same same, or_iff_right no, and_iff_right same]
  · rw [compared_other same, or_iff_left fun both => same both.1]
    split
    next before => exact iff_of_true (by decide) before
    next no => exact iff_of_false (by decide) no

/-- The two orders of a pair. -/
theorem compared_swap_iff (x y : MnBytes) :
    (compared x y).sign = - (compared y x).sign ↔
      (fasthash 0 y.content - fasthash 0 x.content).toNat ≠ 2 ^ 63 := by
  by_cases same : fasthash 0 x.content = fasthash 0 y.content
  · rw [compared_same same, compared_same same.symm, comparedBytes_swap x y, Int.sign_neg, Int.neg_neg, same,
      UInt64.sub_self]
    exact iff_of_true rfl (by decide)
  · rw [compared_other same, compared_other (Ne.symm same), ← before_swap same]
    by_cases before : Before (fasthash 0 x.content) (fasthash 0 y.content)
    · by_cases after : Before (fasthash 0 y.content) (fasthash 0 x.content)
      · simp [before, after]
      · simp [before, after]
    · have after := (before_or same).resolve_left before
      simp [before, after]

/-- Transitivity, if the first two are not opposite. -/
theorem compared_trans_iff (x y z : MnBytes)
    (opposite : (fasthash 0 y.content - fasthash 0 x.content).toNat ≠ 2 ^ 63) :
    (compared x y < 0 → compared y z < 0 → compared x z < 0) ↔
      (Before (fasthash 0 x.content) (fasthash 0 y.content) → Before (fasthash 0 y.content) (fasthash 0 z.content) →
        (fasthash 0 y.content - fasthash 0 x.content).toNat + (fasthash 0 z.content - fasthash 0 y.content).toNat ≤
          2 ^ 63) := by
  constructor
  · intro trans first second
    have third := trans ((compared_neg_iff x y).mpr (.inl first)) ((compared_neg_iff y z).mpr (.inl second))
    rcases (compared_neg_iff x z).mp third with before | ⟨same, _⟩
    · exact (before_trans_iff first second opposite).mp before
    · have differ : fasthash 0 x.content ≠ fasthash 0 y.content := by
        intro equal
        rw [equal] at first
        exact not_before_self _ first
      rw [← same] at second
      exact absurd first (((before_swap differ).mpr opposite).mp second)
  · intro halves first second
    rw [compared_neg_iff] at first second ⊢
    rcases first with before | ⟨same, less⟩
    · rcases second with before' | ⟨same', _⟩
      · exact .inl ((before_trans_iff before before' opposite).mpr (halves before before'))
      · exact .inl (same' ▸ before)
    · rcases second with before' | ⟨same', less'⟩
      · exact .inl (same ▸ before')
      · exact .inr ⟨same.trans same', comparedBytes_trans less less'⟩

/-- What `bytes_cmp` answers for two strings in memory. -/
def Answers (s : BytesStore) (p q : Ptr) (res : Int) : Prop := ∃ next, bytesCmp p q s = .ok (res, next)

/-- What a sorted container needs to know of three strings. -/
def Ordered (s : BytesStore) (p q r : Ptr) : Prop :=
  ∃ pq qp qr pr, Answers s p q pq ∧ Answers s q p qp ∧ Answers s q r qr ∧ Answers s p r pr ∧
    pq.sign = - qp.sign ∧ (pq < 0 → qr < 0 → pr < 0)

theorem ordered_iff_compared (cached : Cached s) (first : s.heap.lookup a = some x) (second : s.heap.lookup b = some y)
    (third : s.heap.lookup c = some z) :
    Ordered s (some a) (some b) (some c) ↔
      (compared x y).sign = - (compared y x).sign ∧ (compared x y < 0 → compared y z < 0 → compared x z < 0) := by
  have ab := bytesCmp_ok cached first second
  have ba := bytesCmp_ok cached second first
  have bc := bytesCmp_ok cached second third
  have ac := bytesCmp_ok cached first third
  constructor
  · rintro ⟨pq, qp, qr, pr, ⟨_, ran⟩, ⟨_, ran'⟩, ⟨_, ran''⟩, ⟨_, ran'''⟩, swap, trans⟩
    rcases ab with ⟨_, answered⟩
    cases answered.symm.trans ran
    rcases ba with ⟨_, answered⟩
    cases answered.symm.trans ran'
    rcases bc with ⟨_, answered⟩
    cases answered.symm.trans ran''
    rcases ac with ⟨_, answered⟩
    cases answered.symm.trans ran'''
    exact ⟨swap, trans⟩
  · rintro ⟨swap, trans⟩
    exact ⟨_, _, _, _, ab, ba, bc, ac, swap, trans⟩

theorem bytes_cmp_ordered_iff (cached : Cached s) (first : s.heap.lookup a = some x) (second : s.heap.lookup b = some y)
    (third : s.heap.lookup c = some z) :
    Ordered s (some a) (some b) (some c) ↔
      Halved (fasthash 0 x.content) (fasthash 0 y.content) (fasthash 0 z.content) := by
  rw [ordered_iff_compared cached first second third, compared_swap_iff, Halved]
  apply and_congr_right
  intro opposite
  exact compared_trans_iff x y z opposite

/-- Eight times the same character. -/
def eightfold (c : UInt8) : MnBytes := ⟨1, 9, 0, List.replicate 8 c ++ [0], le_rfl⟩

def threeStrings : BytesStore where
  heap := ((Finmap.insert 1 (eightfold 97) ∅).insert 2 (eightfold 100)).insert 3 (eightfold 103)
  vars := ()
  tick := 0

theorem cached_threeStrings : Cached threeStrings := by
  have none : Cached ⟨∅, (), 0⟩ := by
    intro a x cell
    rw [Finmap.lookup_empty] at cell
    cases cell
  have one := allRecords_insert none 1 (remembers_of_reset (x := eightfold 97) rfl) 0
  have two := allRecords_insert one 2 (remembers_of_reset (x := eightfold 100) rfl) 0
  exact allRecords_insert two 3 (remembers_of_reset (x := eightfold 103) rfl) 0

theorem bytes_cmp_ordered_iff_three :
    Cached threeStrings ∧ (Ordered threeStrings (some 1) (some 2) (some 3) ↔
      Halved (fasthash 0 (eightfold 97).content) (fasthash 0 (eightfold 100).content)
        (fasthash 0 (eightfold 103).content)) :=
  ⟨cached_threeStrings, bytes_cmp_ordered_iff cached_threeStrings rfl rfl rfl⟩

/-- "aaaaaaaa" is before "dddddddd" and this before "gggggggg", which is before "aaaaaaaa". -/
theorem bytes_cmp_cyclic : Cached threeStrings ∧ ¬ Ordered threeStrings (some 1) (some 2) (some 3) := by
  refine ⟨cached_threeStrings, ?_⟩
  rw [ordered_iff_compared (x := eightfold 97) (y := eightfold 100) (z := eightfold 103)
    cached_threeStrings rfl rfl rfl]
  rintro ⟨_, trans⟩
  have first : compared (eightfold 97) (eightfold 100) < 0 := by decide +kernel
  have second : compared (eightfold 100) (eightfold 103) < 0 := by decide +kernel
  exact absurd (trans first second) (by decide +kernel)

end MnCommon.ByteStrings
