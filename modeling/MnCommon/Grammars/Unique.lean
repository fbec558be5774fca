import MnCommon.Grammars.Json

/-! A text is read in one way only, however loose the lexemes are, as long as their ends
show. -/

namespace MnCommon.Grammars

/-- What may stand between quotation marks if a backslash goes with whatever follows it. -/
inductive Closed : List UInt8 → Prop where
  | nil : Closed []
  | char {c : UInt8} {rest : List UInt8} : c ≠ 34 → c ≠ 92 → Closed rest → Closed (c :: rest)
  | escape (c : UInt8) {rest : List UInt8} : Closed rest → Closed (92 :: c :: rest)

/-- The characters of numbers and of tokens. -/
def IsWord (c : UInt8) : Prop := IsDigit c ∨ IsLetter c ∨ c = 46 ∨ c = 43 ∨ c = 45

instance (c : UInt8) : Decidable (IsWord c) := inferInstanceAs (Decidable (_ ∨ _))

def widest : Lexicon where
  space := rfc7159.space
  allows
    | .string body => Closed body
    | .number chars => ∃ c cs, chars = c :: cs ∧ (IsDigit c ∨ c = 45) ∧ ∀ x ∈ cs, IsWord x
    | .token chars => ∃ c cs, chars = c :: cs ∧ IsLetter c ∧ ∀ x ∈ cs, IsWord x
    | .comma => True

/-- The end of a number or a token. -/
def Stops (rest : List UInt8) : Prop := ∀ c ∈ rest.head?, ¬ IsWord c

def Phrase.Open : Phrase → Prop
  | .value (.number _) | .value (.token _) => True
  | _ => False

def Phrase.Alike : Phrase → Phrase → Prop
  | .value _, .value _ | .members _, .members _ | .items _ _, .items _ _ => True
  | _, _ => False

/-- The first character of a value tells what it is. -/
def Json.Opens (c : UInt8) : Json → Prop
  | .string _ => c = 34
  | .number _ => IsDigit c ∨ c = 45
  | .token _ => IsLetter c
  | .object _ => c = 123
  | .array _ _ => c = 91

def Json.Akin : Json → Json → Prop
  | .string _, .string _ | .number _, .number _ | .token _, .token _ | .object _, .object _
  | .array _ _, .array _ _ => True
  | _, _ => False

variable {p p' : Phrase} {seg seg' rest rest' ws ws' : List UInt8} {v v' : Json} {c c' : UInt8}

theorem split_unique {P : UInt8 → Prop} (run : ∀ x ∈ ws, P x) (run' : ∀ x ∈ ws', P x) (ends : ¬ P c) (ends' : ¬ P c')
    (same : ws ++ c :: rest = ws' ++ c' :: rest') : ws = ws' ∧ c = c' ∧ rest = rest' := by
  induction ws generalizing ws' with
  | nil =>
      cases ws' with
      | nil => exact ⟨rfl, List.cons.inj same⟩
      | cons x xs => exact absurd (run' c ((List.cons.inj same).1 ▸ List.mem_cons_self)) ends
  | cons x xs ih =>
      cases ws' with
      | nil => exact absurd (run c' ((List.cons.inj same).1 ▸ List.mem_cons_self)) ends'
      | cons y ys =>
          rcases List.cons.inj same with ⟨rfl, tails⟩
          rcases ih (fun z inside => run z (List.mem_cons_of_mem _ inside))
            (fun z inside => run' z (List.mem_cons_of_mem _ inside)) tails with ⟨rfl, others⟩
          exact ⟨rfl, others⟩

theorem word_unique (run : ∀ x ∈ ws, IsWord x) (run' : ∀ x ∈ ws', IsWord x) (ends : Stops rest) (ends' : Stops rest')
    (same : ws ++ rest = ws' ++ rest') : ws = ws' := by
  induction ws generalizing ws' with
  | nil =>
      cases ws' with
      | nil => rfl
      | cons x xs =>
          rw [List.nil_append] at same
          exact absurd (run' x List.mem_cons_self) (ends x (by rw [same]; rfl))
  | cons x xs ih =>
      cases ws' with
      | nil =>
          rw [List.nil_append] at same
          exact absurd (run x List.mem_cons_self) (ends' x (by rw [← same]; rfl))
      | cons y ys =>
          rcases List.cons.inj same with ⟨rfl, tails⟩
          rw [ih (fun z inside => run z (List.mem_cons_of_mem _ inside))
            (fun z inside => run' z (List.mem_cons_of_mem _ inside)) tails]

theorem Closed.unique {body body' : List UInt8} (closed : Closed body) (closed' : Closed body')
    (same : body ++ 34 :: rest = body' ++ 34 :: rest') : body = body' ∧ rest = rest' := by
  induction closed generalizing body' with
  | nil =>
      cases closed' with
      | nil => exact ⟨rfl, (List.cons.inj same).2⟩
      | char quote _ _ => exact absurd (List.cons.inj same).1.symm quote
      | escape c _ => exact absurd (List.cons.inj same).1 (by decide)
  | char quote slash _ ih =>
      cases closed' with
      | nil => exact absurd (List.cons.inj same).1 quote
      | char _ _ others =>
          rcases List.cons.inj same with ⟨rfl, tails⟩
          rcases ih others tails with ⟨rfl, rest⟩
          exact ⟨rfl, rest⟩
      | escape c _ => exact absurd (List.cons.inj same).1 slash
  | escape c _ ih =>
      cases closed' with
      | nil => exact absurd (List.cons.inj same).1 (by decide)
      | char _ slash _ => exact absurd (List.cons.inj same).1.symm slash
      | escape d others =>
          rcases List.cons.inj (List.cons.inj same).2 with ⟨rfl, tails⟩
          rcases ih others tails with ⟨rfl, rest⟩
          exact ⟨rfl, rest⟩

theorem Derives.opens (derived : Derives widest p seg) (value : p = .value v) : ∃ c s, seg = c :: s ∧ v.Opens c := by
  cases derived with
  | string _ | emptyObject _ | object _ _ | emptyArray _ | array _ _ =>
      cases value
      exact ⟨_, _, rfl, rfl⟩
  | number allowed | token allowed =>
      cases value
      rcases allowed with ⟨c, cs, rfl, starts, -⟩
      exact ⟨c, cs, rfl, starts⟩
  | _ => cases value

theorem akin_of_opens (opens : v.Opens c) (opens' : v'.Opens c) : v.Akin v' := by
  cases v <;> cases v' <;> simp only [Json.Opens, IsDigit, IsLetter, Json.Akin] at opens opens' ⊢ <;> grind

theorem opens_not_space (opens : v.Opens c) : ¬ widest.space c := by
  cases v <;> simp only [Json.Opens, IsDigit, IsLetter, widest, rfc7159] at opens ⊢ <;> grind

theorem stops_cons (ends : ¬ IsWord c) : Stops (c :: rest) := by
  intro x head
  rw [← Option.some.inj head]
  exact ends

theorem stops_spaces (spaces : widest.Spaces ws) (ends : ¬ IsWord c) : Stops (ws ++ c :: rest) := by
  cases ws with
  | nil => exact stops_cons ends
  | cons x xs =>
      apply stops_cons
      have space : widest.space x := spaces x List.mem_cons_self
      simp only [widest, rfc7159] at space
      rcases space with rfl | rfl | rfl | rfl <;> decide

/-- No value begins with a bracket, and no member either. -/
theorem Derives.more (derived : Derives widest p seg) (more : ∀ v, p ≠ .value v) :
    ∃ c s, seg = c :: s ∧ ¬ widest.space c ∧ c ≠ 125 ∧ c ≠ 93 := by
  have first {v : Json} {seg tail : List UInt8} (derived : Derives widest (.value v) seg) :
      ∃ c s, seg ++ tail = c :: s ∧ ¬ widest.space c ∧ c ≠ 125 ∧ c ≠ 93 := by
    rcases derived.opens rfl with ⟨c, s, rfl, opens⟩
    refine ⟨c, s ++ tail, rfl, opens_not_space opens, ?_, ?_⟩
    · rintro rfl
      cases v <;> revert opens <;> simp only [Json.Opens, IsDigit, IsLetter] <;> decide
    · rintro rfl
      cases v <;> revert opens <;> simp only [Json.Opens, IsDigit, IsLetter] <;> decide
  cases derived with
  | lastMember _ _ _ _ _ | member _ _ _ _ _ _ _ =>
      exact ⟨34, _, rfl, by simp [widest, rfc7159], by decide, by decide⟩
  | lastItem value _ | comma _ value _ _ | item value _ _ _ => exact first value
  | _ => exact absurd rfl (more _)

theorem akin_of_same (derived : Derives widest (.value v) seg) (derived' : Derives widest (.value v') seg')
    (same : seg ++ rest = seg' ++ rest') : v.Akin v' := by
  rcases derived.opens rfl with ⟨c, s, rfl, opens⟩
  rcases derived'.opens rfl with ⟨c', s', rfl, opens'⟩
  rw [(List.cons.inj same).1] at opens
  exact akin_of_opens opens opens'

theorem spaces_unique (spaces : widest.Spaces ws) (spaces' : widest.Spaces ws')
    (first : ∃ c s, seg = c :: s ∧ ¬ widest.space c) (first' : ∃ c s, seg' = c :: s ∧ ¬ widest.space c)
    (same : ws ++ (seg ++ rest) = ws' ++ (seg' ++ rest')) : ws = ws' ∧ seg ++ rest = seg' ++ rest' := by
  rcases first with ⟨c, s, rfl, ends⟩
  rcases first' with ⟨c', s', rfl, ends'⟩
  rcases split_unique spaces spaces' ends ends' same with ⟨rfl, rfl, tails⟩
  exact ⟨rfl, congrArg (c :: ·) tails⟩

theorem Derives.first (derived : Derives widest p seg) : ∃ c s, seg = c :: s ∧ ¬ widest.space c := by
  cases p with
  | value v =>
      rcases derived.opens rfl with ⟨c, s, shape, opens⟩
      exact ⟨c, s, shape, opens_not_space opens⟩
  | _ =>
      rcases derived.more (by simp) with ⟨c, s, shape, ends, -⟩
      exact ⟨c, s, shape, ends⟩

/-- Whatever else is read at the same place is this. -/
def ReadOnce (p : Phrase) (seg : List UInt8) : Prop :=
  ∀ p' seg' rest rest', Derives widest p' seg' → p.Alike p' → (p.Open → Stops rest) → (p'.Open → Stops rest') →
    seg ++ rest = seg' ++ rest' → p = p' ∧ seg = seg'

/-- What separates the values. -/
def Mark (c : UInt8) : Prop := ¬ widest.space c ∧ ¬ IsWord c

theorem mark_of_mem (structural : c ∈ [44, 58, 93, 125]) : Mark c := by
  simp only [List.mem_cons, List.not_mem_nil, or_false] at structural
  rcases structural with rfl | rfl | rfl | rfl <;> exact ⟨by simp [widest, rfc7159], by decide⟩

theorem ReadOnce.tail (once : ReadOnce (.value v) seg) (derived' : Derives widest (.value v') seg')
    (spaces : widest.Spaces ws) (spaces' : widest.Spaces ws') (mark : Mark c) (mark' : Mark c')
    (same : seg ++ (ws ++ c :: rest) = seg' ++ (ws' ++ c' :: rest')) :
    v = v' ∧ seg = seg' ∧ ws = ws' ∧ c = c' ∧ rest = rest' := by
  rcases once _ _ _ _ derived' trivial (fun _ => stops_spaces spaces mark.2)
    (fun _ => stops_spaces spaces' mark'.2) same
    with ⟨whole, rfl⟩
  have tails := split_unique spaces spaces' mark.1 mark'.1 (List.append_cancel_left same)
  exact ⟨Phrase.value.inj whole, rfl, tails⟩

theorem key_unique {key key' ws₁ ws₁' ws₂ ws₂' : List UInt8} (closed : Closed key) (closed' : Closed key')
    (spaces₁ : widest.Spaces ws₁) (spaces₁' : widest.Spaces ws₁') (spaces₂ : widest.Spaces ws₂)
    (spaces₂' : widest.Spaces ws₂') (first : ∃ c s, seg = c :: s ∧ ¬ widest.space c)
    (first' : ∃ c s, seg' = c :: s ∧ ¬ widest.space c)
    (same : key ++ 34 :: (ws₁ ++ 58 :: (ws₂ ++ (seg ++ rest))) =
      key' ++ 34 :: (ws₁' ++ 58 :: (ws₂' ++ (seg' ++ rest')))) :
    key = key' ∧ ws₁ = ws₁' ∧ ws₂ = ws₂' ∧ seg ++ rest = seg' ++ rest' := by
  have colon : Mark 58 := mark_of_mem (by decide)
  rcases closed.unique closed' same with ⟨rfl, after_key⟩
  rcases split_unique spaces₁ spaces₁' colon.1 colon.1 after_key with ⟨rfl, -, after_colon⟩
  rcases spaces_unique spaces₂ spaces₂' first first' after_colon with ⟨rfl, values⟩
  exact ⟨rfl, rfl, rfl, values⟩

theorem once_value (derived : Derives widest (.value v) seg)
    (once : ∀ v' seg' rest rest', Derives widest (.value v') seg' → v.Akin v' → (Phrase.Open (.value v) → Stops rest) →
      (Phrase.Open (.value v') → Stops rest') → seg ++ rest = seg' ++ rest' → v = v' ∧ seg = seg') :
    ReadOnce (.value v) seg := by
  intro p' seg' rest rest' derived' alike ends ends' same
  cases p' with
  | value v' =>
      rcases once v' seg' rest rest' derived' (akin_of_same derived derived' same) ends ends' same with ⟨rfl, rfl⟩
      exact ⟨rfl, rfl⟩
  | _ => exact alike.elim

theorem once_string {body : List UInt8} (closed : Closed body) :
    ReadOnce (.value (.string body)) (34 :: (body ++ [34])) := by
  refine once_value (.string closed) fun v' seg' rest rest' derived' akin _ _ same => ?_
  cases derived' with
  | string closed' =>
      simp only [List.cons_append, List.append_assoc, List.nil_append, List.cons.injEq, true_and] at same
      rcases closed.unique closed' same with ⟨rfl, -⟩
      exact ⟨rfl, rfl⟩
  | _ => exact akin.elim

theorem once_emptyObject (spaces : widest.Spaces ws) : ReadOnce (.value (.object [])) (123 :: (ws ++ [125])) := by
  have brace : Mark 125 := mark_of_mem (by decide)
  refine once_value (.emptyObject spaces) fun v' seg' rest rest' derived' akin _ _ same => ?_
  cases derived' with
  | emptyObject spaces' =>
      simp only [List.cons_append, List.append_assoc, List.nil_append, List.cons.injEq, true_and] at same
      rcases split_unique spaces spaces' brace.1 brace.1 same with ⟨rfl, -⟩
      exact ⟨rfl, rfl⟩
  | object spaces' members =>
      rcases members.more (by simp) with ⟨c, s, rfl, ends, other, -⟩
      simp only [List.cons_append, List.append_assoc, List.nil_append, List.cons.injEq, true_and] at same
      exact absurd (split_unique spaces spaces' brace.1 ends same).2.1.symm other
  | _ => exact akin.elim

theorem once_object {ms : List (List UInt8 × Json)} (spaces : widest.Spaces ws)
    (members : Derives widest (.members ms) seg)
    (once : ReadOnce (.members ms) seg) : ReadOnce (.value (.object ms)) (123 :: (ws ++ seg)) := by
  have brace : Mark 125 := mark_of_mem (by decide)
  refine once_value (.object spaces members) fun v' seg' rest rest' derived' akin _ _ same => ?_
  cases derived' with
  | emptyObject spaces' =>
      rcases members.more (by simp) with ⟨c, s, rfl, ends, other, -⟩
      simp only [List.cons_append, List.append_assoc, List.nil_append, List.cons.injEq, true_and] at same
      exact absurd (split_unique spaces spaces' ends brace.1 same).2.1 other
  | object spaces' members' =>
      simp only [List.cons_append, List.append_assoc, List.cons.injEq, true_and] at same
      rcases spaces_unique spaces spaces' members.first members'.first same with ⟨rfl, tails⟩
      rcases once _ _ _ _ members' trivial False.elim False.elim tails with ⟨whole, rfl⟩
      cases whole
      exact ⟨rfl, rfl⟩
  | _ => exact akin.elim

theorem once_emptyArray (spaces : widest.Spaces ws) : ReadOnce (.value (.array [] false)) (91 :: (ws ++ [93])) := by
  have bracket : Mark 93 := mark_of_mem (by decide)
  refine once_value (.emptyArray spaces) fun v' seg' rest rest' derived' akin _ _ same => ?_
  cases derived' with
  | emptyArray spaces' =>
      simp only [List.cons_append, List.append_assoc, List.nil_append, List.cons.injEq, true_and] at same
      rcases split_unique spaces spaces' bracket.1 bracket.1 same with ⟨rfl, -⟩
      exact ⟨rfl, rfl⟩
  | array spaces' items =>
      rcases items.more (by simp) with ⟨c, s, rfl, ends, -, other⟩
      simp only [List.cons_append, List.append_assoc, List.nil_append, List.cons.injEq, true_and] at same
      exact absurd (split_unique spaces spaces' bracket.1 ends same).2.1.symm other
  | _ => exact akin.elim

theorem once_array {vs : List Json} {comma : Bool} (spaces : widest.Spaces ws)
    (items : Derives widest (.items vs comma) seg)
    (once : ReadOnce (.items vs comma) seg) : ReadOnce (.value (.array vs comma)) (91 :: (ws ++ seg)) := by
  have bracket : Mark 93 := mark_of_mem (by decide)
  refine once_value (.array spaces items) fun v' seg' rest rest' derived' akin _ _ same => ?_
  cases derived' with
  | emptyArray spaces' =>
      rcases items.more (by simp) with ⟨c, s, rfl, ends, -, other⟩
      simp only [List.cons_append, List.append_assoc, List.nil_append, List.cons.injEq, true_and] at same
      exact absurd (split_unique spaces spaces' ends bracket.1 same).2.1 other
  | array spaces' items' =>
      simp only [List.cons_append, List.append_assoc, List.cons.injEq, true_and] at same
      rcases spaces_unique spaces spaces' items.first items'.first same with ⟨rfl, tails⟩
      rcases once _ _ _ _ items' trivial False.elim False.elim tails with ⟨whole, rfl⟩
      cases whole
      exact ⟨rfl, rfl⟩
  | _ => exact akin.elim

/-- The text of a number or of a token. -/
theorem text_unique {P : UInt8 → Prop} {chars chars' : List UInt8}
    (text : ∃ c cs, chars = c :: cs ∧ P c ∧ ∀ x ∈ cs, IsWord x)
    (text' : ∃ c cs, chars' = c :: cs ∧ P c ∧ ∀ x ∈ cs, IsWord x) (ends : Stops rest) (ends' : Stops rest')
    (same : chars ++ rest = chars' ++ rest') : chars = chars' := by
  rcases text with ⟨c, cs, rfl, -, word⟩
  rcases text' with ⟨c', cs', rfl, -, word'⟩
  rcases List.cons.inj same with ⟨rfl, tails⟩
  rw [word_unique word word' ends ends' tails]

theorem once_number {chars : List UInt8} (allowed : widest.allows (.number chars)) :
    ReadOnce (.value (.number chars)) chars := by
  refine once_value (.number allowed) fun v' seg' rest rest' derived' akin ends ends' same => ?_
  cases derived' with
  | number allowed' =>
      cases text_unique allowed allowed' (ends trivial) (ends' trivial) same
      exact ⟨rfl, rfl⟩
  | _ => exact akin.elim

theorem once_token {chars : List UInt8} (allowed : widest.allows (.token chars)) :
    ReadOnce (.value (.token chars)) chars := by
  refine once_value (.token allowed) fun v' seg' rest rest' derived' akin ends ends' same => ?_
  cases derived' with
  | token allowed' =>
      cases text_unique allowed allowed' (ends trivial) (ends' trivial) same
      exact ⟨rfl, rfl⟩
  | _ => exact akin.elim

theorem once_lastMember {key ws₁ ws₂ : List UInt8} (closed : Closed key) (spaces₁ : widest.Spaces ws₁)
    (spaces₂ : widest.Spaces ws₂) (value : Derives widest (.value v) seg) (spaces : widest.Spaces ws)
    (once : ReadOnce (.value v) seg) :
    ReadOnce (.members [(key, v)]) (34 :: (key ++ 34 :: (ws₁ ++ 58 :: (ws₂ ++ (seg ++ (ws ++ [125])))))) := by
  have brace : Mark 125 := mark_of_mem (by decide)
  have separator : Mark 44 := mark_of_mem (by decide)
  intro p' seg' rest rest' derived' alike _ _ same
  cases derived' with
  | lastMember closed' spaces₁' spaces₂' value' spaces' =>
      simp only [List.cons_append, List.append_assoc, List.nil_append, List.cons.injEq, true_and] at same
      rcases key_unique closed closed' spaces₁ spaces₁' spaces₂ spaces₂' value.first value'.first same with
        ⟨rfl, rfl, rfl, values⟩
      rcases once.tail value' spaces spaces' brace brace values with ⟨rfl, rfl, rfl, -⟩
      exact ⟨rfl, rfl⟩
  | member closed' spaces₁' spaces₂' value' spaces' _ _ =>
      simp only [List.cons_append, List.append_assoc, List.nil_append, List.cons.injEq, true_and] at same
      have values := key_unique closed closed' spaces₁ spaces₁' spaces₂ spaces₂' value.first value'.first same
      exact absurd (once.tail value' spaces spaces' brace separator values.2.2.2).2.2.2.1 (by decide)
  | _ => exact alike.elim

theorem once_member {key ws₁ ws₂ ws₃ more : List UInt8} {ms : List (List UInt8 × Json)} (closed : Closed key)
    (spaces₁ : widest.Spaces ws₁) (spaces₂ : widest.Spaces ws₂) (value : Derives widest (.value v) seg)
    (spaces : widest.Spaces ws) (spaces₃ : widest.Spaces ws₃) (others : Derives widest (.members ms) more)
    (once : ReadOnce (.value v) seg) (onces : ReadOnce (.members ms) more) :
    ReadOnce (.members ((key, v) :: ms))
      (34 :: (key ++ 34 :: (ws₁ ++ 58 :: (ws₂ ++ (seg ++ (ws ++ 44 :: (ws₃ ++ more))))))) := by
  have brace : Mark 125 := mark_of_mem (by decide)
  have separator : Mark 44 := mark_of_mem (by decide)
  intro p' seg' rest rest' derived' alike _ _ same
  cases derived' with
  | lastMember closed' spaces₁' spaces₂' value' spaces' =>
      simp only [List.cons_append, List.append_assoc, List.nil_append, List.cons.injEq, true_and] at same
      have values := key_unique closed closed' spaces₁ spaces₁' spaces₂ spaces₂' value.first value'.first same
      exact absurd (once.tail value' spaces spaces' separator brace values.2.2.2).2.2.2.1 (by decide)
  | member closed' spaces₁' spaces₂' value' spaces' spaces₃' others' =>
      simp only [List.cons_append, List.append_assoc, List.cons.injEq, true_and] at same
      rcases key_unique closed closed' spaces₁ spaces₁' spaces₂ spaces₂' value.first value'.first same with
        ⟨rfl, rfl, rfl, values⟩
      rcases once.tail value' spaces spaces' separator separator values with ⟨rfl, rfl, rfl, -, after_comma⟩
      rcases spaces_unique spaces₃ spaces₃' others.first others'.first after_comma with ⟨rfl, tails⟩
      rcases onces _ _ _ _ others' trivial False.elim False.elim tails with ⟨whole, rfl⟩
      cases whole
      exact ⟨rfl, rfl⟩
  | _ => exact alike.elim

theorem once_lastItem (spaces : widest.Spaces ws) (once : ReadOnce (.value v) seg) :
    ReadOnce (.items [v] false) (seg ++ (ws ++ [93])) := by
  have bracket : Mark 93 := mark_of_mem (by decide)
  have separator : Mark 44 := mark_of_mem (by decide)
  intro p' seg' rest rest' derived' alike _ _ same
  cases derived' with
  | lastItem value' spaces' =>
      simp only [List.append_assoc, List.cons_append, List.nil_append] at same
      rcases once.tail value' spaces spaces' bracket bracket same with ⟨rfl, rfl, rfl, -⟩
      exact ⟨rfl, rfl⟩
  | comma _ value' spaces' _ | item value' spaces' _ _ =>
      simp only [List.append_assoc, List.cons_append, List.nil_append] at same
      exact absurd (once.tail value' spaces spaces' bracket separator same).2.2.2.1 (by decide)
  | _ => exact alike.elim

/-- A comma behind the last item. -/
theorem once_comma {ws₁ : List UInt8} (spaces : widest.Spaces ws) (spaces₁ : widest.Spaces ws₁)
    (once : ReadOnce (.value v) seg) : ReadOnce (.items [v] true) (seg ++ (ws ++ 44 :: (ws₁ ++ [93]))) := by
  have bracket : Mark 93 := mark_of_mem (by decide)
  have separator : Mark 44 := mark_of_mem (by decide)
  intro p' seg' rest rest' derived' alike _ _ same
  cases derived' with
  | lastItem value' spaces' =>
      simp only [List.append_assoc, List.cons_append, List.nil_append] at same
      exact absurd (once.tail value' spaces spaces' separator bracket same).2.2.2.1 (by decide)
  | comma _ value' spaces' spaces₁' =>
      simp only [List.append_assoc, List.cons_append, List.nil_append] at same
      rcases once.tail value' spaces spaces' separator separator same with ⟨rfl, rfl, rfl, -, after_comma⟩
      rcases split_unique spaces₁ spaces₁' bracket.1 bracket.1 after_comma with ⟨rfl, -⟩
      exact ⟨rfl, rfl⟩
  | item value' spaces' spaces₁' more' =>
      simp only [List.append_assoc, List.cons_append, List.nil_append] at same
      rcases more'.more (by simp) with ⟨c, s, rfl, ends, -, other⟩
      have after_comma := (once.tail value' spaces spaces' separator separator same).2.2.2.2
      exact absurd (split_unique spaces₁ spaces₁' bracket.1 ends after_comma).2.1.symm other
  | _ => exact alike.elim

theorem once_item {ws₁ more : List UInt8} {vs : List Json} {comma : Bool} (spaces : widest.Spaces ws)
    (spaces₁ : widest.Spaces ws₁) (others : Derives widest (.items vs comma) more) (once : ReadOnce (.value v) seg)
    (onces : ReadOnce (.items vs comma) more) :
    ReadOnce (.items (v :: vs) comma) (seg ++ (ws ++ 44 :: (ws₁ ++ more))) := by
  have bracket : Mark 93 := mark_of_mem (by decide)
  have separator : Mark 44 := mark_of_mem (by decide)
  intro p' seg' rest rest' derived' alike _ _ same
  cases derived' with
  | lastItem value' spaces' =>
      simp only [List.append_assoc, List.cons_append, List.nil_append] at same
      exact absurd (once.tail value' spaces spaces' separator bracket same).2.2.2.1 (by decide)
  | comma _ value' spaces' spaces₁' =>
      simp only [List.append_assoc, List.cons_append, List.nil_append] at same
      rcases others.more (by simp) with ⟨c, s, rfl, ends, -, other⟩
      have after_comma := (once.tail value' spaces spaces' separator separator same).2.2.2.2
      exact absurd (split_unique spaces₁ spaces₁' ends bracket.1 after_comma).2.1 other
  | item value' spaces' spaces₁' others' =>
      simp only [List.append_assoc, List.cons_append] at same
      rcases once.tail value' spaces spaces' separator separator same with ⟨rfl, rfl, rfl, -, after_comma⟩
      rcases spaces_unique spaces₁ spaces₁' others.first others'.first after_comma with ⟨rfl, tails⟩
      rcases onces _ _ _ _ others' trivial False.elim False.elim tails with ⟨whole, rfl⟩
      cases whole
      exact ⟨rfl, rfl⟩
  | _ => exact alike.elim

/-- Two readings that begin at one place are the same. -/
theorem Derives.unique (derived : Derives widest p seg) : ReadOnce p seg := by
  induction derived with
  | string closed => exact once_string closed
  | number allowed => exact once_number allowed
  | token allowed => exact once_token allowed
  | emptyObject spaces => exact once_emptyObject spaces
  | object spaces members ih => exact once_object spaces members ih
  | emptyArray spaces => exact once_emptyArray spaces
  | array spaces items ih => exact once_array spaces items ih
  | lastMember closed spaces₁ spaces₂ value spaces ih =>
      exact once_lastMember closed spaces₁ spaces₂ value spaces ih
  | member closed spaces₁ spaces₂ value spaces spaces₃ more ih others =>
      exact once_member closed spaces₁ spaces₂ value spaces spaces₃ more ih others
  | lastItem value spaces ih => exact once_lastItem spaces ih
  | comma _ value spaces spaces₁ ih => exact once_comma spaces spaces₁ ih
  | item value spaces spaces₁ more ih others => exact once_item spaces spaces₁ more ih others

end MnCommon.Grammars
