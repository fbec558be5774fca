import Mathlib.Data.Nat.Digits.Lemmas
import MnCommon.Grammars.Rfc7159

/-! What the strings and the integers of a text stand for. Escapes by code point are left aside. -/

namespace MnCommon.Grammars

variable {body text s s' ds : List UInt8} {c d : UInt8}

/-- The character that an escape with a letter stands for. -/
def escapeMeans (c : UInt8) : Option UInt8 :=
  if c = 34 ∨ c = 92 ∨ c = 47 then some c
  else if c = 98 then some 8
  else if c = 102 then some 12
  else if c = 110 then some 10
  else if c = 114 then some 13
  else if c = 116 then some 9
  else none

inductive Spells : List UInt8 → List UInt8 → Prop where
  | nil : Spells [] []
  | unescaped {c : UInt8} {body s : List UInt8} : 32 ≤ c → c ≠ 34 → c ≠ 92 → Spells body s → Spells (c :: body) (c :: s)
  | escape {c d : UInt8} {body s : List UInt8} : escapeMeans c = some d → Spells body s → Spells (92 :: c :: body) (d :: s)

theorem Spells.chars (spells : Spells body s) : Chars body := by
  induction spells with
  | nil => exact .nil
  | unescaped range quote slash _ ih => exact .unescaped range quote slash ih
  | @escape c d _ _ letter _ ih =>
      refine .escape ?_ ih
      rw [escapeMeans] at letter
      split_ifs at letter with marked back form line carriage tab
      · rcases marked with rfl | rfl | rfl <;> simp
      all_goals simp [*]

/-- It stands for one string. -/
theorem Spells.unique (spells : Spells body s) (spells' : Spells body s') : s = s' := by
  induction spells generalizing s' with
  | nil =>
      cases spells'
      rfl
  | unescaped _ _ slash _ ih =>
      cases spells' with
      | unescaped _ _ _ more => rw [ih more]
      | escape _ _ => exact absurd rfl slash
  | escape letter _ ih =>
      cases spells' with
      | unescaped _ _ slash _ => exact absurd rfl slash
      | escape letter' more => rw [Option.some.inj (letter.symm.trans letter'), ih more]

theorem Spells.escaped (spells : Spells (92 :: c :: body) (d :: s)) : Spells body s := by
  cases spells with
  | unescaped _ _ slash _ => exact absurd rfl slash
  | escape _ more => exact more

theorem Spells.plain (spells : Spells (c :: body) (d :: s)) (slash : c ≠ 92) : 32 ≤ c ∧ Spells body s := by
  cases spells with
  | unescaped range _ _ more => exact ⟨range, more⟩
  | escape _ _ => exact absurd rfl slash

/-- A string that needs no escapes stands for itself. -/
theorem spells_plain (plain : ∀ c ∈ s, 32 ≤ c ∧ c ≠ 34 ∧ c ≠ 92) : Spells s s := by
  induction s with
  | nil => exact .nil
  | cons c s ih =>
      rcases List.forall_mem_cons.mp plain with ⟨⟨range, quote, slash⟩, others⟩
      exact .unescaped range quote slash (ih others)

def decimal (ds : List UInt8) : Nat := Nat.ofDigits 10 (ds.reverse.map fun d => d.toNat - 48)

/-- Digits with a minus or without. -/
def Integer (chars : List UInt8) (n : Int) : Prop :=
  ∃ ds, IntPart ds ∧ ((chars = ds ∧ n = decimal ds) ∨ (chars = 45 :: ds ∧ n = -decimal ds))

theorem Integer.number {n : Int} (integer : Integer text n) : Number text := by
  rcases integer with ⟨ds, int, ⟨rfl, -⟩ | ⟨rfl, -⟩⟩
  · exact ⟨[], text, [], [], by simp, .inl rfl, int, .inl rfl, .inl rfl⟩
  · exact ⟨[45], ds, [], [], by simp, .inr rfl, int, .inl rfl, .inl rfl⟩

/-- The values of strings, integers and booleans. -/
inductive Meaning where
  | string (s : List UInt8)
  | integer (n : Int)
  | boolean (b : Bool)

def Json.Means : Json → Meaning → Prop
  | .string body, .string s => Spells body s
  | .number chars, .integer n => Integer chars n
  | .token chars, .boolean b => chars = if b then [116, 114, 117, 101] else [102, 97, 108, 115, 101]
  | _, _ => False

/-- One element of an array. -/
def Element (m : Meaning) (seg : List UInt8) : Prop := ∃ v, Derives rfc7159 (.value v) seg ∧ v.Means m

/-- One member of an object. -/
def Member (key : List UInt8) (m : Meaning) (text : List UInt8) : Prop :=
  ∃ body ws₁ ws₂ seg, text = 34 :: (body ++ 34 :: (ws₁ ++ 58 :: (ws₂ ++ seg))) ∧ Spells body key ∧
    rfc7159.Spaces ws₁ ∧ rfc7159.Spaces ws₂ ∧ Element m seg

theorem element_string (spells : Spells body s) : Element (.string s) (34 :: (body ++ [34])) :=
  ⟨.string body, .string spells.chars, spells⟩

theorem element_integer {n : Int} (integer : Integer text n) : Element (.integer n) text :=
  ⟨.number text, .number integer.number, integer⟩

theorem element_boolean (b : Bool) :
    Element (.boolean b) (if b then [116, 114, 117, 101] else [102, 97, 108, 115, 101]) := by
  refine ⟨.token _, .token ?_, rfl⟩
  cases b
  · exact .inr (.inl rfl)
  · exact .inl rfl

theorem element_string_inv {seg : List UInt8} (element : Element (.string s) seg) :
    ∃ body, seg = 34 :: (body ++ [34]) ∧ Spells body s := by
  rcases element with ⟨v, derived, means⟩
  cases v with
  | string body =>
      cases derived
      exact ⟨body, rfl, means⟩
  | _ => exact means.elim

theorem element_boolean_inv {b : Bool} {seg : List UInt8} (element : Element (.boolean b) seg) :
    seg = if b then [116, 114, 117, 101] else [102, 97, 108, 115, 101] := by
  rcases element with ⟨v, derived, means⟩
  cases v with
  | token chars =>
      cases derived
      exact means
  | _ => exact means.elim

/-- A member that is written without spaces. -/
theorem member_of_element {key seg : List UInt8} {m : Meaning} (spells : Spells body key) (element : Element m seg) :
    Member key m (34 :: (body ++ 34 :: 58 :: seg)) :=
  ⟨body, [], [], seg, rfl, spells, nofun, nofun, element⟩

/-- Which one it is is seen from its text. -/
theorem Member.value {key seg : List UInt8} {m : Meaning} (closed : Closed body) (member : Member key m
    (34 :: (body ++ 34 :: 58 :: seg))) (first : ∀ c ∈ seg.head?, ¬ rfc7159.space c) : Element m seg := by
  rcases member with ⟨body', ws₁, ws₂, seg', same, spells, spaces₁, spaces₂, element⟩
  rcases Closed.unique closed spells.chars.closed (List.cons.inj same).2 with ⟨-, rest⟩
  have colon : ws₁ = [] := by
    cases ws₁ with
    | nil => rfl
    | cons w ws =>
        have space := spaces₁ w List.mem_cons_self
        rw [List.cons_append, List.cons.injEq] at rest
        rw [← rest.1] at space
        simp [rfc7159] at space
  subst colon
  have whole : seg = ws₂ ++ seg' := (List.cons.inj rest).2
  have bare : ws₂ = [] := by
    cases ws₂ with
    | nil => rfl
    | cons w ws => exact absurd (spaces₂ w List.mem_cons_self) (first w (by rw [whole]; rfl))
  subst bare
  rw [whole]
  exact element

end MnCommon.Grammars
