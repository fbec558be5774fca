import Mathlib.Data.List.Basic

/-! A grammar of JSON texts over bytes. What counts as a space and which lexemes there
are is left open; RFC 7159 is one choice. -/

namespace MnCommon.Grammars

/-- The lexemes of a text. A comma is one only behind the last item of an array. -/
inductive Lexeme where
  | string (body : List UInt8)
  | number (chars : List UInt8)
  | token (chars : List UInt8)
  | comma
  deriving DecidableEq

structure Lexicon where
  space : UInt8 → Prop
  allows : Lexeme → Prop

def Lexicon.Spaces (L : Lexicon) (ws : List UInt8) : Prop := ∀ c ∈ ws, L.space c

theorem Lexicon.spaces_nil (L : Lexicon) : L.Spaces [] := List.forall_mem_nil L.space

/-- A document. Its strings, numbers and tokens are kept as they are written. -/
inductive Json where
  | string (body : List UInt8)
  | number (chars : List UInt8)
  | token (chars : List UInt8)
  | object (members : List (List UInt8 × Json))
  | array (items : List Json) (comma : Bool)

def Json.Container : Json → Prop
  | .object _ | .array _ _ => True
  | _ => False

/-- The members and the items are those of a container that has some, up to its end. -/
inductive Phrase where
  | value (v : Json)
  | members (ms : List (List UInt8 × Json))
  | items (vs : List Json) (comma : Bool)

inductive Derives (L : Lexicon) : Phrase → List UInt8 → Prop where
  | string {body : List UInt8} : L.allows (.string body) →
      Derives L (.value (.string body)) (34 :: (body ++ [34]))
  | number {chars : List UInt8} : L.allows (.number chars) → Derives L (.value (.number chars)) chars
  | token {chars : List UInt8} : L.allows (.token chars) → Derives L (.value (.token chars)) chars
  | emptyObject {ws : List UInt8} : L.Spaces ws → Derives L (.value (.object [])) (123 :: (ws ++ [125]))
  | object {ws seg : List UInt8} {ms : List (List UInt8 × Json)} : L.Spaces ws → Derives L (.members ms) seg →
      Derives L (.value (.object ms)) (123 :: (ws ++ seg))
  | emptyArray {ws : List UInt8} : L.Spaces ws → Derives L (.value (.array [] false)) (91 :: (ws ++ [93]))
  | array {ws seg : List UInt8} {vs : List Json} {comma : Bool} : L.Spaces ws → Derives L (.items vs comma) seg →
      Derives L (.value (.array vs comma)) (91 :: (ws ++ seg))
  | lastMember {key ws₁ ws₂ seg ws : List UInt8} {v : Json} : L.allows (.string key) → L.Spaces ws₁ → L.Spaces ws₂ →
      Derives L (.value v) seg → L.Spaces ws →
      Derives L (.members [(key, v)]) (34 :: (key ++ 34 :: (ws₁ ++ 58 :: (ws₂ ++ (seg ++ (ws ++ [125]))))))
  | member {key ws₁ ws₂ seg ws ws' more : List UInt8} {v : Json} {ms : List (List UInt8 × Json)} :
      L.allows (.string key) → L.Spaces ws₁ → L.Spaces ws₂ → Derives L (.value v) seg → L.Spaces ws → L.Spaces ws' →
      Derives L (.members ms) more →
      Derives L (.members ((key, v) :: ms))
        (34 :: (key ++ 34 :: (ws₁ ++ 58 :: (ws₂ ++ (seg ++ (ws ++ 44 :: (ws' ++ more)))))))
  | lastItem {seg ws : List UInt8} {v : Json} : Derives L (.value v) seg → L.Spaces ws →
      Derives L (.items [v] false) (seg ++ (ws ++ [93]))
  | comma {seg ws ws' : List UInt8} {v : Json} : L.allows .comma → Derives L (.value v) seg → L.Spaces ws →
      L.Spaces ws' → Derives L (.items [v] true) (seg ++ (ws ++ 44 :: (ws' ++ [93])))
  | item {seg ws ws' more : List UInt8} {v : Json} {vs : List Json} {comma : Bool} : Derives L (.value v) seg →
      L.Spaces ws → L.Spaces ws' → Derives L (.items vs comma) more →
      Derives L (.items (v :: vs) comma) (seg ++ (ws ++ 44 :: (ws' ++ more)))

/-- A text of one object or array, with spaces around it. -/
def Document (L : Lexicon) (v : Json) (text : List UInt8) : Prop :=
  ∃ before seg after, L.Spaces before ∧ v.Container ∧ Derives L (.value v) seg ∧ L.Spaces after ∧
    text = before ++ (seg ++ after)

mutual

def Json.lexemes : Json → List Lexeme
  | .string body => [.string body]
  | .number chars => [.number chars]
  | .token chars => [.token chars]
  | .object ms => memberLexemes ms
  | .array vs comma => itemLexemes vs ++ if comma then [.comma] else []

def memberLexemes : List (List UInt8 × Json) → List Lexeme
  | [] => []
  | (key, v) :: ms => .string key :: (v.lexemes ++ memberLexemes ms)

def itemLexemes : List Json → List Lexeme
  | [] => []
  | v :: vs => v.lexemes ++ itemLexemes vs

end

def Phrase.lexemes : Phrase → List Lexeme
  | .value v => v.lexemes
  | .members ms => memberLexemes ms
  | .items vs comma => itemLexemes vs ++ if comma then [.comma] else []

def IsDigit (c : UInt8) : Prop := 48 ≤ c ∧ c ≤ 57

def IsLetter (c : UInt8) : Prop := (97 ≤ c ∧ c ≤ 122) ∨ (65 ≤ c ∧ c ≤ 90)

def IsHex (c : UInt8) : Prop := IsDigit c ∨ (97 ≤ c ∧ c ≤ 102) ∨ (65 ≤ c ∧ c ≤ 70)

instance (c : UInt8) : Decidable (IsDigit c) := inferInstanceAs (Decidable (_ ∧ _))

instance (c : UInt8) : Decidable (IsLetter c) := inferInstanceAs (Decidable (_ ∨ _))

/-- What stands between the quotation marks of a string. -/
inductive Chars : List UInt8 → Prop where
  | nil : Chars []
  | unescaped {c : UInt8} {rest : List UInt8} : 32 ≤ c → c ≠ 34 → c ≠ 92 → Chars rest → Chars (c :: rest)
  | escape {c : UInt8} {rest : List UInt8} : c ∈ [34, 92, 47, 98, 102, 110, 114, 116] → Chars rest →
      Chars (92 :: c :: rest)
  | unicode {a b c d : UInt8} {rest : List UInt8} : IsHex a → IsHex b → IsHex c → IsHex d → Chars rest →
      Chars (92 :: 117 :: a :: b :: c :: d :: rest)

def Digits (ds : List UInt8) : Prop := ds ≠ [] ∧ ∀ d ∈ ds, IsDigit d

/-- No leading zeros. -/
def IntPart (ds : List UInt8) : Prop := ds = [48] ∨ (Digits ds ∧ ds.head? ≠ some 48)

def Frac (chars : List UInt8) : Prop := ∃ ds, chars = 46 :: ds ∧ Digits ds

def Exp (chars : List UInt8) : Prop :=
  ∃ e sign ds, chars = e :: (sign ++ ds) ∧ (e = 101 ∨ e = 69) ∧ (sign = [] ∨ sign = [43] ∨ sign = [45]) ∧ Digits ds

def Number (chars : List UInt8) : Prop :=
  ∃ minus int frac exp, chars = minus ++ (int ++ (frac ++ exp)) ∧ (minus = [] ∨ minus = [45]) ∧ IntPart int ∧
    (frac = [] ∨ Frac frac) ∧ (exp = [] ∨ Exp exp)

/-- `true`, `false` and `null`. -/
def Literal (chars : List UInt8) : Prop :=
  chars = [116, 114, 117, 101] ∨ chars = [102, 97, 108, 115, 101] ∨ chars = [110, 117, 108, 108]

def rfc7159 : Lexicon where
  space c := c = 32 ∨ c = 9 ∨ c = 10 ∨ c = 13
  allows
    | .string body => Chars body
    | .number chars => Number chars
    | .token chars => Literal chars
    | .comma => False

section

variable {L L' : Lexicon} {p : Phrase} {seg : List UInt8}

theorem Derives.allows (derived : Derives L p seg) : ∀ x ∈ p.lexemes, L.allows x := by
  induction derived with
  | string allowed | number allowed | token allowed =>
      simpa [Phrase.lexemes, Json.lexemes] using allowed
  | emptyObject _ | emptyArray _ => simp [Phrase.lexemes, Json.lexemes, memberLexemes, itemLexemes]
  | object _ _ ih | array _ _ ih => simpa [Phrase.lexemes, Json.lexemes] using ih
  | lastMember allowed _ _ _ _ ih =>
      simpa [Phrase.lexemes, memberLexemes] using ⟨allowed, ih⟩
  | member allowed _ _ _ _ _ _ first others =>
      simp only [Phrase.lexemes, memberLexemes, List.mem_cons, List.mem_append, or_imp, forall_and, forall_eq]
      exact ⟨allowed, first, others⟩
  | lastItem _ _ ih => simpa [Phrase.lexemes, itemLexemes] using ih
  | comma allowed _ _ _ ih =>
      simp only [Phrase.lexemes, itemLexemes, List.append_nil, if_true, List.mem_append, or_imp, forall_and,
        List.mem_singleton, forall_eq]
      exact ⟨ih, allowed⟩
  | item _ _ _ _ first others =>
      simp only [Phrase.lexemes, itemLexemes, List.append_assoc, List.mem_append, or_imp, forall_and] at others ⊢
      exact ⟨first, others⟩

theorem Lexicon.Spaces.mono {ws : List UInt8} (spaces : L.Spaces ws) (wider : ∀ c ∈ ws, L.space c → L'.space c) :
    L'.Spaces ws := fun c inside => wider c inside (spaces c inside)

/-- Another lexicon that has the spaces and the lexemes of a text. -/
theorem Derives.change (derived : Derives L p seg) (spaces : ∀ c ∈ seg, L.space c → L'.space c)
    (allowed : ∀ x ∈ p.lexemes, L'.allows x) : Derives L' p seg := by
  induction derived with
  | string _ => exact .string (allowed _ (by simp [Phrase.lexemes, Json.lexemes]))
  | number _ => exact .number (allowed _ (by simp [Phrase.lexemes, Json.lexemes]))
  | token _ => exact .token (allowed _ (by simp [Phrase.lexemes, Json.lexemes]))
  | emptyObject ws => exact .emptyObject (ws.mono fun c inside => spaces c (by simp [inside]))
  | emptyArray ws => exact .emptyArray (ws.mono fun c inside => spaces c (by simp [inside]))
  | object ws _ ih =>
      apply Derives.object (ws.mono fun c inside => spaces c (by simp [inside]))
      exact ih (fun c inside => spaces c (by simp [inside])) (by simpa [Phrase.lexemes, Json.lexemes] using allowed)
  | array ws _ ih =>
      apply Derives.array (ws.mono fun c inside => spaces c (by simp [inside]))
      exact ih (fun c inside => spaces c (by simp [inside])) (by simpa [Phrase.lexemes, Json.lexemes] using allowed)
  | lastMember _ ws₁ ws₂ _ ws ih =>
      simp only [Phrase.lexemes, memberLexemes, List.append_nil, List.mem_cons, forall_eq_or_imp] at allowed
      refine .lastMember allowed.1 (ws₁.mono fun c inside => spaces c (by simp [inside]))
        (ws₂.mono fun c inside => spaces c (by simp [inside])) ?_ (ws.mono fun c inside => spaces c (by simp [inside]))
      exact ih (fun c inside => spaces c (by simp [inside])) allowed.2
  | member _ ws₁ ws₂ _ ws ws' _ first others =>
      simp only [Phrase.lexemes, memberLexemes, List.mem_cons, List.mem_append, or_imp, forall_and,
        forall_eq] at allowed
      refine .member allowed.1 (ws₁.mono fun c inside => spaces c (by simp [inside]))
        (ws₂.mono fun c inside => spaces c (by simp [inside])) ?_ (ws.mono fun c inside => spaces c (by simp [inside]))
        (ws'.mono fun c inside => spaces c (by simp [inside])) ?_
      · exact first (fun c inside => spaces c (by simp [inside])) allowed.2.1
      · exact others (fun c inside => spaces c (by simp [inside])) allowed.2.2
  | lastItem _ ws ih =>
      refine .lastItem ?_ (ws.mono fun c inside => spaces c (by simp [inside]))
      exact ih (fun c inside => spaces c (by simp [inside])) (by simpa [Phrase.lexemes, itemLexemes] using allowed)
  | comma _ _ ws ws' ih =>
      simp only [Phrase.lexemes, itemLexemes, List.append_nil, if_true, List.mem_append, or_imp, forall_and,
        List.mem_singleton, forall_eq] at allowed
      refine .comma allowed.2 ?_ (ws.mono fun c inside => spaces c (by simp [inside]))
        (ws'.mono fun c inside => spaces c (by simp [inside]))
      exact ih (fun c inside => spaces c (by simp [inside])) allowed.1
  | item _ ws ws' _ first others =>
      simp only [Phrase.lexemes, itemLexemes, List.append_assoc, List.mem_append, or_imp, forall_and] at allowed others
      refine .item ?_ (ws.mono fun c inside => spaces c (by simp [inside]))
        (ws'.mono fun c inside => spaces c (by simp [inside])) ?_
      · exact first (fun c inside => spaces c (by simp [inside])) allowed.1
      · exact others (fun c inside => spaces c (by simp [inside])) allowed.2

end

end MnCommon.Grammars
