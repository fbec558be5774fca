import MnCommon.Grammars.Unique

/-! The lexemes of RFC 7159, and the one container of a text. -/

namespace MnCommon.Grammars

variable {L : Lexicon} {p : Phrase} {body chars seg seg' before before' after after' : List UInt8} {v v' : Json}
  {c : UInt8}

theorem IsHex.plain (hex : IsHex c) : c ≠ 34 ∧ c ≠ 92 := by
  constructor
  all_goals
    rintro rfl
    simp [IsHex, IsDigit] at hex

theorem Chars.closed (valid : Chars body) : Closed body := by
  induction valid with
  | nil => exact .nil
  | unescaped _ quote slash _ ih => exact .char quote slash ih
  | escape _ _ ih => exact .escape _ ih
  | unicode a b c d _ ih =>
      apply Closed.escape
      exact .char a.plain.1 a.plain.2
        (.char b.plain.1 b.plain.2 (.char c.plain.1 c.plain.2 (.char d.plain.1 d.plain.2 ih)))

theorem IsHex.printable (hex : IsHex c) : 32 ≤ c := by
  simp only [IsHex, IsDigit] at hex
  grind

/-- A control character is escaped. -/
theorem Chars.printable (valid : Chars body) : ∀ c ∈ body, 32 ≤ c := by
  induction valid with
  | nil => simp
  | unescaped range _ _ _ ih => exact List.forall_mem_cons.mpr ⟨range, ih⟩
  | @escape d rest letter _ ih =>
      have range : 32 ≤ d := by
        simp only [List.mem_cons, List.not_mem_nil, or_false] at letter
        grind
      exact List.forall_mem_cons.mpr ⟨by decide, List.forall_mem_cons.mpr ⟨range, ih⟩⟩
  | unicode a b c d _ ih =>
      simp only [List.forall_mem_cons]
      exact ⟨by decide, by decide, a.printable, b.printable, c.printable, d.printable, ih⟩

/-- The characters of a number behind the first one. -/
def IsNumeric (c : UInt8) : Prop := IsDigit c ∨ c = 46 ∨ c = 101 ∨ c = 69 ∨ c = 45 ∨ c = 43

theorem IsNumeric.word (numeric : IsNumeric c) : IsWord c := by
  rcases numeric with digit | rfl | rfl | rfl | rfl | rfl
  · exact .inl digit
  all_goals decide

theorem IsNumeric.printable (numeric : IsNumeric c) : 32 ≤ c := by
  simp only [IsNumeric, IsDigit] at numeric
  grind

theorem Digits.numeric (digits : Digits chars) : ∀ c ∈ chars, IsNumeric c := fun c inside => .inl (digits.2 c inside)

theorem Frac.numeric (frac : Frac chars) : ∀ c ∈ chars, IsNumeric c := by
  rcases frac with ⟨ds, rfl, digits⟩
  exact List.forall_mem_cons.mpr ⟨.inr (.inl rfl), digits.numeric⟩

theorem Exp.numeric (exp : Exp chars) : ∀ c ∈ chars, IsNumeric c := by
  rcases exp with ⟨e, sign, ds, rfl, letter, signed, digits⟩
  have first : IsNumeric e := by
    rcases letter with rfl | rfl
    · exact .inr (.inr (.inl rfl))
    · exact .inr (.inr (.inr (.inl rfl)))
  have second : ∀ c ∈ sign, IsNumeric c := by
    rcases signed with rfl | rfl | rfl
    · simp
    · simp [IsNumeric]
    · simp [IsNumeric]
  exact List.forall_mem_cons.mpr ⟨first, List.forall_mem_append.mpr ⟨second, digits.numeric⟩⟩

theorem IntPart.digits (int : IntPart chars) : ∃ d ds, chars = d :: ds ∧ IsDigit d ∧ ∀ x ∈ ds, IsNumeric x := by
  rcases int with rfl | ⟨digits, -⟩
  · exact ⟨48, [], rfl, by decide, by simp⟩
  · cases chars with
    | nil => exact absurd rfl digits.1
    | cons d ds =>
        rcases List.forall_mem_cons.mp digits.2 with ⟨first, others⟩
        exact ⟨d, ds, rfl, first, fun x inside => .inl (others x inside)⟩

theorem Number.begins (number : Number chars) :
    ∃ c cs, chars = c :: cs ∧ (IsDigit c ∨ c = 45) ∧ ∀ x ∈ cs, IsNumeric x := by
  rcases number with ⟨minus, int, frac, exp, rfl, sign, whole, fraction, exponent⟩
  rcases whole.digits with ⟨d, ds, rfl, digit, digits⟩
  have second : ∀ x ∈ frac, IsNumeric x := by
    rcases fraction with rfl | fraction
    · simp
    · exact fraction.numeric
  have third : ∀ x ∈ exp, IsNumeric x := by
    rcases exponent with rfl | exponent
    · simp
    · exact exponent.numeric
  have more : ∀ x ∈ ds ++ (frac ++ exp), IsNumeric x :=
    List.forall_mem_append.mpr ⟨digits, List.forall_mem_append.mpr ⟨second, third⟩⟩
  rcases sign with rfl | rfl
  · exact ⟨d, ds ++ (frac ++ exp), rfl, .inl digit, more⟩
  · exact ⟨45, d :: (ds ++ (frac ++ exp)), rfl, .inr rfl, List.forall_mem_cons.mpr ⟨.inl digit, more⟩⟩

theorem Literal.letters (literal : Literal chars) : ∃ c cs, chars = c :: cs ∧ IsLetter c ∧ ∀ x ∈ cs, IsLetter x := by
  rcases literal with rfl | rfl | rfl
  all_goals exact ⟨_, _, rfl, by decide, by simp [IsLetter]⟩

theorem rfc7159_widest {x : Lexeme} (allowed : rfc7159.allows x) : widest.allows x := by
  cases x with
  | string body => exact Chars.closed allowed
  | number chars =>
      rcases Number.begins allowed with ⟨c, cs, rfl, first, others⟩
      exact ⟨c, cs, rfl, first, fun x inside => (others x inside).word⟩
  | token chars =>
      rcases Literal.letters allowed with ⟨c, cs, rfl, first, others⟩
      exact ⟨c, cs, rfl, first, fun x inside => .inr (.inl (others x inside))⟩
  | comma => trivial

theorem Derives.widened (derived : Derives rfc7159 p seg) : Derives widest p seg :=
  derived.change (fun _ _ space => space) fun x inside => rfc7159_widest (derived.allows x inside)

def Lexeme.bytes : Lexeme → List UInt8
  | .string body => body
  | .number chars => chars
  | .token chars => chars
  | .comma => []

theorem rfc7159_printable {x : Lexeme} (allowed : rfc7159.allows x) : ∀ c ∈ x.bytes, 32 ≤ c := by
  cases x with
  | string body => exact Chars.printable allowed
  | number chars =>
      rcases Number.begins allowed with ⟨c, cs, rfl, first, others⟩
      have range : 32 ≤ c := by
        simp only [IsDigit] at first
        grind
      exact List.forall_mem_cons.mpr ⟨range, fun x inside => (others x inside).printable⟩
  | token chars => rcases allowed with rfl | rfl | rfl <;> simp [Lexeme.bytes]
  | comma => simp [Lexeme.bytes]

/-- A character that is no space and no mark is one of a lexeme. -/
theorem Derives.free (derived : Derives L p seg) (space : ¬ L.space c) (mark : c ∉ [34, 123, 125, 91, 93, 44, 58])
    (lexemes : ∀ x ∈ p.lexemes, c ∉ x.bytes) : c ∉ seg := by
  have outside {ws : List UInt8} (spaces : L.Spaces ws) : c ∉ ws := fun inside => space (spaces c inside)
  simp only [List.mem_cons, List.not_mem_nil, or_false, not_or] at mark
  induction derived with
  | string _ | number _ | token _ =>
      simpa [Phrase.lexemes, Json.lexemes, Lexeme.bytes, mark] using lexemes
  | emptyObject spaces | emptyArray spaces => simp [mark, outside spaces]
  | object spaces _ ih | array spaces _ ih =>
      simp only [Phrase.lexemes, Json.lexemes] at lexemes ih
      simp [mark, outside spaces, ih lexemes]
  | lastMember _ spaces₁ spaces₂ _ spaces ih =>
      simp only [Phrase.lexemes, memberLexemes, List.append_nil, List.forall_mem_cons, Lexeme.bytes] at lexemes ih
      simp [mark, outside spaces₁, outside spaces₂, outside spaces, lexemes.1, ih lexemes.2]
  | member _ spaces₁ spaces₂ _ spaces spaces' _ first others =>
      simp only [Phrase.lexemes, memberLexemes, List.forall_mem_cons, List.forall_mem_append,
        Lexeme.bytes] at lexemes first others
      simp [mark, outside spaces₁, outside spaces₂, outside spaces, outside spaces', lexemes.1, first lexemes.2.1,
        others lexemes.2.2]
  | lastItem _ spaces ih =>
      simp only [Phrase.lexemes, itemLexemes, List.append_nil, if_false, Bool.false_eq_true] at lexemes ih
      simp [mark, outside spaces, ih lexemes]
  | comma _ _ spaces spaces' ih =>
      simp only [Phrase.lexemes, itemLexemes, List.append_nil, List.forall_mem_append] at lexemes ih
      simp [mark, outside spaces, outside spaces', ih lexemes.1]
  | item _ spaces spaces' _ first others =>
      simp only [Phrase.lexemes, itemLexemes, List.append_assoc, List.forall_mem_append] at lexemes first others
      simp [mark, outside spaces, outside spaces', first lexemes.1, others lexemes.2]

theorem container_opens (container : v.Container) (derived : Derives widest (.value v) seg) :
    ∃ c s, seg = c :: s ∧ (c = 123 ∨ c = 91) := by
  rcases derived.opens rfl with ⟨c, s, rfl, opens⟩
  cases v with
  | object _ => exact ⟨c, s, rfl, .inl opens⟩
  | array _ _ => exact ⟨c, s, rfl, .inr opens⟩
  | _ => exact container.elim

/-- A text has one container that comes first. -/
theorem container_unique (container : v.Container) (container' : v'.Container)
    (derived : Derives widest (.value v) seg) (derived' : Derives widest (.value v') seg')
    (outside : ∀ c ∈ before, c ≠ 123 ∧ c ≠ 91) (outside' : ∀ c ∈ before', c ≠ 123 ∧ c ≠ 91)
    (same : before ++ (seg ++ after) = before' ++ (seg' ++ after')) :
    before = before' ∧ v = v' ∧ seg = seg' ∧ after = after' := by
  have closed {w : Json} (container : w.Container) : ¬ (Phrase.value w).Open := by
    cases w <;> simp [Phrase.Open, Json.Container] at container ⊢
  rcases container_opens container derived with ⟨c, s, rfl, opens⟩
  rcases container_opens container' derived' with ⟨c', s', rfl, opens'⟩
  have ends : ¬ (c ≠ 123 ∧ c ≠ 91) := fun wrong => opens.elim wrong.1 wrong.2
  have ends' : ¬ (c' ≠ 123 ∧ c' ≠ 91) := fun wrong => opens'.elim wrong.1 wrong.2
  rcases split_unique outside outside' ends ends' same with ⟨rfl, rfl, others⟩
  have tails : c :: s ++ after = c :: s' ++ after' := congrArg (c :: ·) others
  rcases derived.unique _ _ _ _ derived' trivial (fun wrong => absurd wrong (closed container))
    (fun wrong => absurd wrong (closed container')) tails with ⟨whole, shape⟩
  rw [shape] at tails
  exact ⟨rfl, Phrase.value.inj whole, shape, List.append_cancel_left tails⟩

end MnCommon.Grammars
