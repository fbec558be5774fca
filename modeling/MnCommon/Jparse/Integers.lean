import MnCommon.Jparse.Lexemes
import MnCommon.Jparse.Operations

/-! What `jparse_expect_int` makes of the digits that it finds. -/

namespace MnCommon.Jparse

open Grammars (IsDigit rfc7159)

variable {ctx : JparseCtx} {rest ws sign digits left : List UInt8} {c d : UInt8} {st st' : IntState} {m : Nat}

/-- The number is one of the 64-bit type. -/
def InLong (n : Int) : Prop := -2 ^ 63 ≤ n ∧ n < 2 ^ 63

/-- `*val = *val * 10 + (ch - '0')` does not overflow. -/
def StepFits (st : IntState) (ch : UInt8) : Prop :=
  IsDigit ch → InLong (st.val.toInt * 10) ∧ InLong (st.val.toInt * 10 + ((ch.toNat - 48 : Nat) : Int))

/-- No step of the loop of `jparse_expect_int` overflows on the characters, nor does `*val *= sign` behind it. -/
def LoopFits (st : IntState) : List UInt8 → Prop
  | [] => InLong (st.val.toInt * st.sign.toInt)
  | ch :: rest =>
      match intStep st ch with
      | some st' => StepFits st ch ∧ LoopFits st' rest
      | none => InLong (st.val.toInt * st.sign.toInt)

def intStart : IntState := { first := true, val := 0, sign := 1 }

/-- The number that digits stand for, behind others that stand for `m`. -/
def magnitude (m : Nat) (digits : List UInt8) : Nat := digits.foldl (fun n d => 10 * n + (d.toNat - 48)) m

theorem magnitude_cons (m : Nat) (d : UInt8) (digits : List UInt8) :
    magnitude m (d :: digits) = magnitude (10 * m + (d.toNat - 48)) digits := by
  rw [magnitude, magnitude, List.foldl_cons]

theorem le_magnitude (m : Nat) (digits : List UInt8) : m ≤ magnitude m digits := by
  induction digits generalizing m with
  | nil => exact Nat.le_refl m
  | cons d digits ih =>
      have further := ih (10 * m + (d.toNat - 48))
      rw [magnitude_cons]
      omega

theorem toInt_digit (st : IntState) (value : st.val.toInt = m) (d : UInt8) (fits : 10 * m + (d.toNat - 48) < 2 ^ 63) :
    (st.val * 10 + Int64.ofNat (d.toNat - 48)).toInt = (10 * m + (d.toNat - 48) : Nat) := by
  have small : d.toNat - 48 < 2 ^ 63 := by omega
  have ten : (10 : Int64).toInt = 10 := rfl
  have product : (st.val * 10).toInt = m * 10 := by
    rw [Int64.toInt_mul, value, ten, Int.bmod_eq_of_le]
    · omega
    · omega
  rw [Int64.toInt_add, product, Int64.toInt_ofNat_of_lt small, Int.bmod_eq_of_le]
  · omega
  · omega
  · omega

theorem stepFits_iff (value : st.val.toInt = m) (digit : IsDigit d) :
    StepFits st d ↔ 10 * m + (d.toNat - 48) < 2 ^ 63 := by
  rw [StepFits, forall_prop_of_true digit, value, InLong, InLong]
  omega

theorem intStep_digit (st : IntState) (digit : IsDigit d) :
    intStep st d = some { st with first := false, val := st.val * 10 + Int64.ofNat (d.toNat - 48) } := if_pos digit

/-- Nothing behind the digits is read. -/
def StopsAt (st : IntState) (left : List UInt8) : Prop := ∀ c ∈ left.head?, intStep st c = none

theorem loopFits_ended (ends : StopsAt st left) : LoopFits st left ↔ InLong (st.val.toInt * st.sign.toInt) := by
  cases left with
  | nil => exact Iff.rfl
  | cons c left =>
      rw [LoopFits, ends c rfl]

theorem signed_fits (st : IntState) (sign : st.sign.toInt = 1 ∨ st.sign.toInt = -1) (value : st.val.toInt = m) :
    InLong (st.val.toInt * st.sign.toInt) := by
  have short := st.val.toInt_lt
  rw [value] at short ⊢
  rcases sign with plus | minus
  · rw [plus, InLong]
    omega
  · rw [minus, InLong]
    omega

/-- From digit to digit the number stays one of the type, or it has left it for good. -/
theorem loopFits_digits (digits : List UInt8) (st : IntState) (m : Nat) (value : st.val.toInt = m)
    (sign : st.sign.toInt = 1 ∨ st.sign.toInt = -1) (all : ∀ d ∈ digits, IsDigit d)
    (ends : ∀ st', digits.foldlM intStep st = some st' → StopsAt st' left) :
    LoopFits st (digits ++ left) ↔ magnitude m digits < 2 ^ 63 := by
  induction digits generalizing st m with
  | nil =>
      have short := st.val.toInt_lt
      rw [List.nil_append, loopFits_ended (ends st rfl)]
      refine iff_of_true (signed_fits st sign value) ?_
      change m < 2 ^ 63
      omega
  | cons d digits ih =>
      rcases List.forall_mem_cons.mp all with ⟨digit, others⟩
      have step := intStep_digit st digit
      rw [List.cons_append, LoopFits, step, magnitude_cons]
      dsimp only
      rw [stepFits_iff value digit]
      by_cases fits : 10 * m + (d.toNat - 48) < 2 ^ 63
      · rw [and_iff_right fits]
        apply ih { st with first := false, val := st.val * 10 + Int64.ofNat (d.toNat - 48) } _
          (toInt_digit st value d fits) sign others
        intro st' run
        apply ends
        rw [List.foldlM_cons, step]
        exact run
      · have further := le_magnitude (10 * m + (d.toNat - 48)) digits
        exact iff_of_false (fun both => fits both.1) (by omega)

/-- The state behind the digits. -/
theorem foldlM_digits (digits : List UInt8) (st : IntState) (all : ∀ d ∈ digits, IsDigit d) :
    ∃ st', digits.foldlM intStep st = some st' ∧ st'.sign = st.sign ∧ st'.first = (st.first && digits.isEmpty) ∧
      ∀ m : Nat, st.val.toInt = m → magnitude m digits < 2 ^ 63 → st'.val.toInt = magnitude m digits := by
  induction digits generalizing st with
  | nil => exact ⟨st, rfl, rfl, (Bool.and_true st.first).symm, fun m value _ => value⟩
  | cons d digits ih =>
      rcases List.forall_mem_cons.mp all with ⟨digit, others⟩
      rcases ih { st with first := false, val := st.val * 10 + Int64.ofNat (d.toNat - 48) } others with
        ⟨st', run, sign, first, number⟩
      refine ⟨st', ?_, sign, ?_, ?_⟩
      · rw [List.foldlM_cons, intStep_digit st digit]
        exact run
      · rw [first, List.isEmpty_cons, Bool.and_false, Bool.false_and]
      · intro m value fits
        have further := le_magnitude (10 * m + (d.toNat - 48)) digits
        rw [magnitude_cons] at fits ⊢
        exact number _ (toInt_digit st value d (by omega)) fits

/-- Spaces, a sign, digits and what follows them. In front of digits a sign may be missing, and without either
there is nothing to read. -/
structure IntText (rest ws sign digits left : List UInt8) : Prop where
  blank : Blank rest ws (sign ++ (digits ++ left))
  marks : sign = [] ∨ sign = [45] ∨ sign = [43]
  numeric : ∀ d ∈ digits, IsDigit d
  ends : ∀ c ∈ left.head?, ¬ IsDigit c
  nothing : sign = [] → digits = [] → ∀ c ∈ left.head?, c ≠ 45 ∧ c ≠ 43

/-- All that can be unread is of that kind. -/
theorem exists_intText (rest : List UInt8) : ∃ ws sign digits left, IntText rest ws sign digits left := by
  rcases exists_blank rest with ⟨ws, more, blank⟩
  have word : ∀ more : List UInt8, ∃ digits left, more = digits ++ left ∧ (∀ d ∈ digits, IsDigit d) ∧
      ∀ c ∈ left.head?, ¬ IsDigit c := by
    intro more
    induction more with
    | nil => exact ⟨[], [], rfl, nofun, nofun⟩
    | cons c more ih =>
        by_cases digit : IsDigit c
        · rcases ih with ⟨digits, left, same, all, ends⟩
          exact ⟨c :: digits, left, by rw [same]; rfl, List.forall_mem_cons.mpr ⟨digit, all⟩, ends⟩
        · exact ⟨[], c :: more, rfl, nofun, fun x head => Option.some.inj head ▸ digit⟩
  by_cases signed : ∃ c behind, more = c :: behind ∧ (c = 45 ∨ c = 43)
  · rcases signed with ⟨c, behind, rfl, marks⟩
    rcases word behind with ⟨digits, left, rfl, all, ends⟩
    refine ⟨ws, [c], digits, left, blank, ?_, all, ends, nofun⟩
    rcases marks with rfl | rfl
    · exact .inr (.inl rfl)
    · exact .inr (.inr rfl)
  · rcases word more with ⟨digits, left, rfl, all, ends⟩
    refine ⟨ws, [], digits, left, blank, .inl rfl, all, ends, ?_⟩
    rintro - rfl c head
    cases left with
    | nil => cases head
    | cons d left =>
        cases head
        rw [not_exists] at signed
        have others := not_exists.mp (signed c) left
        exact not_or.mp fun marks => others ⟨rfl, marks⟩

/-- The number that a sign and digits stand for. -/
def signedValue (sign digits : List UInt8) : Int := if sign = [45] then -(magnitude 0 digits : Int) else magnitude 0 digits

/-- `jparse_expect_int` reads a number of the type exactly and refuses any other one, if it is a literal
with something behind it, and its arithmetic does not overflow in any case. -/
def ReadsInt (ctx : JparseCtx) (sign digits left : List UInt8) : Prop :=
  (digits ≠ [] → left ≠ [] →
    (InLong (signedValue sign digits) → ∃ v, jparseExpectInt ctx = (.ok, (jparseExpectInt ctx).2.1, some v) ∧
      v.toInt = signedValue sign digits) ∧
    (¬ InLong (signedValue sign digits) → (jparseExpectInt ctx).1 ≠ .ok)) ∧
  ((reachNonblank ctx.begun).1 = .ok → LoopFits intStart (reachNonblank ctx.begun).2.unread)

/-- The state behind the sign. -/
theorem foldlM_sign (marks : sign = [] ∨ sign = [45] ∨ sign = [43]) :
    ∃ st, sign.foldlM intStep intStart = some st ∧ st.val.toInt = (0 : Nat) ∧ st.first = sign.isEmpty ∧
      st.sign.toInt = (if sign = [45] then -1 else 1) ∧ ∀ more, LoopFits intStart (sign ++ more) ↔ LoopFits st more := by
  have fits : ∀ c, ¬ IsDigit c → StepFits intStart c := fun c other digit => absurd digit other
  rcases marks with rfl | rfl | rfl
  · exact ⟨intStart, rfl, rfl, rfl, rfl, fun more => Iff.rfl⟩
  · refine ⟨{ first := false, val := 0, sign := -1 }, rfl, rfl, rfl, rfl, fun more => ?_⟩
    exact and_iff_right (fits 45 (by decide))
  · refine ⟨{ first := false, val := 0, sign := 1 }, rfl, rfl, rfl, rfl, fun more => ?_⟩
    exact and_iff_right (fits 43 (by decide))

/-- The loop goes to the end of the digits. -/
theorem IntText.run (spelled : IntText rest ws sign digits left) :
    ∃ st, Run intStep intStart (sign ++ (digits ++ left)) (sign ++ digits) st left ∧
      st.first = (sign.isEmpty && digits.isEmpty) ∧
      (LoopFits intStart (sign ++ (digits ++ left)) ↔ magnitude 0 digits < 2 ^ 63) ∧
      (magnitude 0 digits < 2 ^ 63 → (st.val * st.sign).toInt = signedValue sign digits) := by
  rcases foldlM_sign spelled.marks with ⟨st₀, first, zero, begun, negative, fits⟩
  rcases foldlM_digits digits st₀ spelled.numeric with ⟨st, run, same, state, number⟩
  have stops : StopsAt st left := by
    intro c head
    have other := spelled.ends c head
    rw [intStep, if_neg other, state, begun]
    split
    next start =>
      rw [Bool.and_eq_true, List.isEmpty_iff, List.isEmpty_iff] at start
      have plain := spelled.nothing start.1 start.2 c head
      rw [if_neg plain.1, if_neg plain.2]
    next => rfl
  have whole : (sign ++ digits).foldlM intStep intStart = some st := by
    rw [List.foldlM_append, first]
    exact run
  refine ⟨st, ⟨(List.append_assoc sign digits left).symm, whole, stops⟩, ?_, ?_, ?_⟩
  · rw [state, begun]
  · rw [fits]
    apply loopFits_digits digits st₀ 0 zero
    · rw [negative]
      split
      · exact .inr rfl
      · exact .inl rfl
    · exact spelled.numeric
    · intro st' run'
      cases run.symm.trans run'
      exact stops
  · intro short
    rw [Int64.toInt_mul, number 0 zero short, same, negative, signedValue]
    split
    · rw [Int.mul_neg_one, Int.bmod_eq_of_le] <;> omega
    · rw [Int.mul_one, Int.bmod_eq_of_le] <;> omega

/-- Digits with something behind them are read. -/
theorem jparseExpectInt_read (passes : Passes ctx.begun (reachNonblank ctx.begun).2 ws (sign ++ (digits ++ left)))
    (reached : (reachNonblank ctx.begun).1 = .ok)
    (run : Run intStep intStart (sign ++ (digits ++ left)) (sign ++ digits) st left) (begun : st.first = false)
    (ended : left ≠ []) : jparseExpectInt ctx = (.ok, (jparseExpectInt ctx).2.1, some (st.val * st.sign)) := by
  have run' : Run intStep intStart (reachNonblank ctx.begun).2.unread (sign ++ digits) st left :=
    ⟨passes.unread.trans run.split, run.run, run.stops⟩
  rcases scanAll_run run' passes.inside with ⟨head, state, -⟩
  rw [jparseExpectInt]
  rcases at_start : reachNonblank ctx.begun with ⟨res, next⟩
  rw [at_start] at reached head state
  cases reached
  dsimp only
  change (scanAll intStep { first := true, val := 0, sign := 1 } next).1 = _ at head
  change (scanAll intStep { first := true, val := 0, sign := 1 } next).2.1 = _ at state
  rcases scanned : scanAll intStep { first := true, val := 0, sign := 1 } next with ⟨ch, st', last⟩
  rw [scanned] at head state
  change ch = left.head? at head
  change st' = st at state
  subst head state
  have more : left.head? ≠ none := fun none => ended (List.head?_eq_none_iff.mp none)
  dsimp only
  rw [if_neg more, begun]
  rfl

/-- Integers are read as they are written, and without an overflow, just when the digits stand for a number that the type
has. The least number of the type is read with two overflows. -/
theorem reads_int_iff (ctx : JparseCtx) (inside : ctx.Inside) (ws sign digits left : List UInt8)
    (spelled : IntText ctx.unread ws sign digits left) : ReadsInt ctx sign digits left ↔ magnitude 0 digits < 2 ^ 63 := by
  rcases spelled.run with ⟨st, run, first, fits, number⟩
  rcases reachNonblank_blank spelled.blank.begun inside.begun with ⟨res, passes⟩
  have reached : digits ≠ [] → (reachNonblank ctx.begun).1 = .ok := by
    intro some
    rw [res, if_neg]
    simp [some]
  rw [ReadsInt, passes.unread, fits]
  constructor
  · rintro ⟨-, holds⟩
    by_cases none : digits = []
    · subst none
      exact Nat.two_pow_pos 63
    · exact holds (reached none)
  · intro short
    have within : InLong (signedValue sign digits) := by
      rw [InLong, signedValue]
      split <;> omega
    refine ⟨fun some ended => ⟨fun _ => ?_, fun wrong => absurd within wrong⟩, fun _ => short⟩
    have begun : st.first = false := by
      rw [first, List.isEmpty_eq_false_iff.mpr some, Bool.and_false]
    exact ⟨_, jparseExpectInt_read passes (reached some) run begun ended, number short⟩

/-- The text is `-7 `. -/
theorem reads_int_iff_seven :
    IntText (jparseStart [[45, 55, 32]]).unread [] [45] [55] [32] ∧
      (ReadsInt (jparseStart [[45, 55, 32]]) [45] [55] [32] ↔ magnitude 0 [55] < 2 ^ 63) := by
  have spelled : IntText (jparseStart [[45, 55, 32]]).unread [] [45] [55] [32] :=
    ⟨.of_cons rfl rfc7159.spaces_nil (by simp [rfc7159]), .inr (.inl rfl), by simp [IsDigit], by simp [IsDigit], nofun⟩
  exact ⟨spelled, reads_int_iff _ (jparseStart_inside (by simp)) _ _ _ _ spelled⟩

/-- 2^63, which is above the type. -/
def tooLarge : List UInt8 := [57, 50, 50, 51, 51, 55, 50, 48, 51, 54, 56, 53, 52, 55, 55, 53, 56, 48, 56]

/-- It is read as a negative number. -/
theorem int_overflows : ¬ ReadsInt (jparseStart [tooLarge ++ [32]]) [] tooLarge [32] := by
  rintro ⟨read, -⟩
  have value : signedValue [] tooLarge = 2 ^ 63 := rfl
  have beyond : ¬ InLong (signedValue [] tooLarge) := by
    rw [value, InLong]
    omega
  have done : (jparseExpectInt (jparseStart [tooLarge ++ [32]])).1 = .ok := rfl
  exact (read (by decide) (by decide)).2 beyond done

end MnCommon.Jparse
