import MnCommon.Jparse.Items

/-! The texts that the pull parser accepts. -/

namespace MnCommon.Jparse

open Grammars

variable {ctx : JparseCtx} {left more ws ws' ws₁ ws₂ seg key body : List UInt8} {c : UInt8} {jval : JparseValue}
  {depth : Nat} {v : Json}

/-- The parser gets to the end of a phrase. -/
def Accepted : Phrase → List UInt8 → Prop
  | .value v, seg => ∀ (depth : Nat) (ctx : JparseCtx) (jval : JparseValue) (ws left : List UInt8), ctx.Inside →
      ctx.unread = ws ++ (seg ++ left) → rfc7159.Spaces ws → EndsAt v left → ctx.unread.length < depth →
      (ignoreWithin depth ctx jval).1 = .ok ∧ Passes ctx (ignoreWithin depth ctx jval).2.1 (ws ++ seg) left
  | .members _, seg => ∀ (depth fuel : Nat) (ctx : JparseCtx) (jval : JparseValue) (ws left : List UInt8), ctx.Inside →
      ctx.unread = ws ++ (seg ++ left) → rfc7159.Spaces ws → ctx.unread.length < depth → ctx.unread.length < fuel →
      Closes 125 ctx (ws ++ seg) left (iterate (jparseExpectAnykvpIgnore (ignoreWithin depth)) fuel ctx jval)
  | .items _ _, seg => ∀ (depth fuel : Nat) (ctx : JparseCtx) (jval : JparseValue) (ws left : List UInt8), ctx.Inside →
      ctx.unread = ws ++ (seg ++ left) → rfc7159.Spaces ws → ctx.unread.length < depth → ctx.unread.length < fuel →
      Closes 93 ctx (ws ++ seg) left (iterate (jparseExpectItemIgnore (ignoreWithin depth)) fuel ctx jval)

theorem accepted_token {chars : List UInt8} (literal : Literal chars) : Accepted (.value (.token chars)) chars := by
  intro depth ctx jval ws left inside split spaces ends short
  cases depth with
  | zero => exact absurd short (Nat.not_lt_zero _)
  | succ depth =>
      have word := literal_word literal split spaces ends.2
      rcases @ignoreWithin_literal ctx _ _ _ jval depth word literal ends.1 inside with ⟨done, passes, -⟩
      exact ⟨done, passes⟩

/-- A number without characters has a character behind it. -/
theorem number_first {chars : List UInt8} {st : FloatState} (run : chars.foldlM floatStep .floatIn = some st)
    (ends : EndsAt (.number chars) left) : ∃ c more, chars ++ left = c :: more ∧ ¬ rfc7159.space c := by
  cases chars with
  | nil =>
      rcases List.exists_cons_of_ne_nil ends.1 with ⟨c, more, rfl⟩
      exact ⟨c, more, rfl, ((ends.2.2 rfl).first c rfl).1⟩
  | cons c chars =>
      rcases floatRun_first run with ⟨text, -⟩
      exact ⟨c, chars ++ left, rfl, text⟩

theorem ignoreWithin_number {chars : List UInt8} {st : FloatState} (run : chars.foldlM floatStep .floatIn = some st)
    (inside : ctx.Inside) (split : ctx.unread = ws ++ (chars ++ left)) (spaces : rfc7159.Spaces ws)
    (ends : EndsAt (.number chars) left) :
    ∃ next, Passes ctx next ws (chars ++ left) ∧
      ignoreWithin (depth + 1) ctx jval = ignoreEnd next.pos (ignoreFloat next jval) := by
  rcases ends with ⟨some, stops, none⟩
  cases chars with
  | nil =>
      have foreign := none rfl
      rcases List.exists_cons_of_ne_nil some with ⟨c, more, rfl⟩
      rcases foreign.first c rfl with ⟨text, quote, brace, bracket⟩
      rcases exists_word (c :: more) with ⟨ws', letters, left, word⟩
      have bare : ws' = [] := by
        cases ws' with
        | nil => rfl
        | cons w ws' =>
            have same := word.blank.split
            rw [List.cons_append, List.cons.injEq] at same
            exact absurd (word.blank.spaces c (same.1 ▸ List.mem_cons_self)) text
      subst bare
      have whole : c :: more = letters ++ left := word.blank.split
      have word' : Word ctx.unread ws letters left := by
        refine ⟨⟨?_, spaces, word.blank.stops⟩, word.letters, word.stops⟩
        rw [split, List.nil_append, whole]
      have other : left ≠ [] → ¬ Literal letters := by
        intro ended literal
        rcases List.exists_cons_of_ne_nil ended with ⟨d, tail, rfl⟩
        exact word.stops d rfl (foreign.literal letters (d :: tail) literal whole ended d rfl)
      rcases @ignoreWithin_first ctx _ _ _ _ c jval depth word' other whole.symm inside with ⟨next, passes, same⟩
      rw [if_neg quote, if_neg brace, if_neg bracket] at same
      exact ⟨next, passes, same⟩
  | cons c chars =>
      rcases floatRun_first run with ⟨text, letter, quote, brace, bracket⟩
      rcases ignoreWithin_mark split spaces text letter inside jval depth with ⟨next, passes, same⟩
      rw [if_neg quote, if_neg brace, if_neg bracket] at same
      exact ⟨next, passes, same⟩

theorem accepted_number {chars : List UInt8} {st : FloatState} (run : chars.foldlM floatStep .floatIn = some st) :
    Accepted (.value (.number chars)) chars := by
  intro depth ctx jval ws left inside split spaces ends short
  cases depth with
  | zero => exact absurd short (Nat.not_lt_zero _)
  | succ depth =>
      rcases @ignoreWithin_number ctx _ _ jval depth _ _ run inside split spaces ends with ⟨next, passes, same⟩
      rcases number_first run ends with ⟨c, more, here, text⟩
      have blank : Blank next.unread [] (chars ++ left) := by
        have unread := passes.unread
        rw [here] at unread ⊢
        exact .of_cons unread rfc7159.spaces_nil text
      have run' : Run floatStep .floatIn (chars ++ left) chars st left := ⟨rfl, run, ends.2.1 st run⟩
      rcases jparseExpectFloat_run blank run' passes.inside with ⟨res, onward⟩
      have done : (ignoreFloat next jval).1 = .ok := res.mpr ends.1
      rw [same, ignoreEnd_ok done]
      exact ⟨done, passes.trans (onward ends.1)⟩

theorem accepted_string (closed : Closed body) : Accepted (.value (.string body)) (34 :: (body ++ [34])) := by
  intro depth ctx jval ws left inside split spaces ends short
  cases depth with
  | zero => exact absurd short (Nat.not_lt_zero _)
  | succ depth =>
      have quote : ¬ rfc7159.space 34 := by simp [rfc7159]
      have split : ctx.unread = ws ++ 34 :: (body ++ 34 :: left) := by
        rw [split]
        simp
      rcases ignoreWithin_mark split spaces quote (by decide) inside jval depth with ⟨next, passes, same⟩
      rw [if_pos rfl] at same
      have blank : Blank next.unread [] (34 :: (body ++ 34 :: left)) := .of_cons passes.unread rfc7159.spaces_nil quote
      rcases jparseExpectStr_closed blank closed passes.inside with ⟨res, onward, -⟩
      have done : (ignoreStr next jval).1 = .ok := res
      rw [same, ignoreEnd_ok done]
      exact ⟨done, passes.trans onward⟩

/-! The values in a container. -/

theorem Accepted.reads (accepted : Accepted (.value v) seg) (derived : Derives loose (.value v) seg) :
    ReadsValue (ignoreWithin depth) depth seg fun _ _ => True := by
  have ended : ReadsToEnd (ignoreWithin depth) depth v seg fun _ _ => True := by
    intro ctx jval ws left inside split spaces ends short
    rcases accepted depth ctx jval ws left inside split spaces ends short with ⟨done, passes⟩
    exact ⟨done, trivial, passes⟩
  exact ended.divided derived

theorem Accepted.item (accepted : Accepted (.value v) seg) (derived : Derives loose (.value v) seg) :
    ReadsItem (jparseExpectItemIgnore (ignoreWithin depth)) depth seg fun _ _ => True :=
  (expectItem_reads derived (accepted.reads derived)).any

theorem jparseExpectAnykvpIgnore_divided (closed : Closed key) (derived : Derives loose (.value v) seg)
    (accepted : Accepted (.value v) seg) (inside : ctx.Inside)
    (split : ctx.unread = ws ++ 34 :: (key ++ 34 :: (ws₁ ++ 58 :: (ws₂ ++ (seg ++ (ws' ++ c :: more))))))
    (spaces : rfc7159.Spaces ws) (spaces₁ : rfc7159.Spaces ws₁) (spaces₂ : rfc7159.Spaces ws₂)
    (spaces' : rfc7159.Spaces ws') (divides : Divides c) (short : ctx.unread.length < depth) :
    ∃ mid t a b, ws' = a ++ b ∧
      Passes ctx mid (ws ++ 34 :: (key ++ 34 :: (ws₁ ++ 58 :: (ws₂ ++ (seg ++ a))))) (b ++ c :: more) ∧
      jparseExpectAnykvpIgnore (ignoreWithin depth) ctx jval = ((nextComma mid).1, (nextComma mid).2, t) := by
  have quote : ¬ rfc7159.space 34 := by simp [rfc7159]
  have blank : Blank ctx.unread ws (34 :: (key ++ 34 :: (ws₁ ++ 58 :: (ws₂ ++ (seg ++ (ws' ++ c :: more)))))) :=
    .of_cons split spaces quote
  rcases jparseExpectStr_closed blank.begun closed inside.begun with ⟨res, passes, -⟩
  rw [jparseExpectAnykvpIgnore, expectAnykvp]
  rcases read : jparseExpectStr ctx.begun with ⟨res', next, val⟩
  rw [read] at res passes
  change res' = .ok at res
  subst res
  have blank' : Blank next.unread ws₁ (58 :: (ws₂ ++ (seg ++ (ws' ++ c :: more)))) :=
    .of_cons passes.unread spaces₁ (by simp [rfc7159])
  rcases reachBody_found blank' passes.inside with ⟨res, passes'⟩
  dsimp only
  rw [reachColon]
  rcases reached : reachBody 58 next with ⟨res', next'⟩
  rw [reached] at res passes'
  change res' = .ok at res
  subst res
  have short' : next'.unread.length < depth := by
    have fewer : next'.unread.length ≤ ctx.unread.length := by
      rw [passes'.unread, split]
      simp only [List.length_append, List.length_cons]
      omega
    exact Nat.lt_of_le_of_lt fewer short
  dsimp only
  rcases expectValue_reads derived (accepted.reads derived) next' (val.elim jval fun key => { jval with k := some key })
    ws₂ ws' more c passes'.inside passes'.unread spaces₂ spaces' divides short' with ⟨mid, t, a, b, parts, onward, run, -⟩
  refine ⟨mid, t, a, b, parts, ?_, run⟩
  have whole := passes.trans (passes'.trans onward)
  have shape : ws ++ 34 :: (key ++ [34]) ++ (ws₁ ++ [58] ++ (ws₂ ++ (seg ++ a))) =
      ws ++ 34 :: (key ++ 34 :: (ws₁ ++ 58 :: (ws₂ ++ (seg ++ a)))) := by simp
  rw [shape] at whole
  exact whole.of_begun

theorem Accepted.items {vs : List Json} {comma : Bool} (accepted : Accepted (.items vs comma) seg) :
    ReadsItems (jparseExpectItemIgnore (ignoreWithin depth)) depth seg fun _ _ => True :=
  fun fuel ctx jval ws left inside split spaces short enough =>
    ⟨accepted depth fuel ctx jval ws left inside split spaces short enough, trivial⟩

theorem accepted_lastItem (derived : Derives loose (.value v) seg) (accepted : Accepted (.value v) seg)
    (spaces₁ : rfc7159.Spaces ws₁) : Accepted (.items [v] false) (seg ++ (ws₁ ++ [93])) := by
  intro depth fuel ctx jval ws left inside split spaces short enough
  have item : ReadsItem (jparseExpectItemIgnore (ignoreWithin depth)) depth seg fun _ _ => True := accepted.item derived
  exact (item.last spaces₁ fuel ctx jval ws left inside split spaces short
    enough).1

theorem accepted_item {vs : List Json} {comma : Bool} (derived : Derives loose (.value v) seg)
    (accepted : Accepted (.value v) seg) (spaces₁ : rfc7159.Spaces ws₁) (spaces₂ : rfc7159.Spaces ws₂)
    (others : Accepted (.items vs comma) more) : Accepted (.items (v :: vs) comma) (seg ++ (ws₁ ++ 44 :: (ws₂ ++ more))) := by
  intro depth fuel ctx jval ws left inside split spaces short enough
  have item : ReadsItem (jparseExpectItemIgnore (ignoreWithin depth)) depth seg fun _ _ => True := accepted.item derived
  exact (item.item spaces₁ spaces₂ others.items fuel ctx jval ws left inside split spaces short enough).1

theorem accepted_lastMember (closed : Closed key) (spaces₁ : rfc7159.Spaces ws₁) (spaces₂ : rfc7159.Spaces ws₂)
    (derived : Derives loose (.value v) seg) (accepted : Accepted (.value v) seg) (spaces₃ : rfc7159.Spaces ws') :
    Accepted (.members [(key, v)]) (34 :: (key ++ 34 :: (ws₁ ++ 58 :: (ws₂ ++ (seg ++ (ws' ++ [125])))))) := by
  intro depth fuel ctx jval ws left inside split spaces short enough
  cases fuel with
  | zero => exact absurd enough (Nat.not_lt_zero _)
  | succ fuel =>
      have split' : ctx.unread =
          ws ++ 34 :: (key ++ 34 :: (ws₁ ++ 58 :: (ws₂ ++ (seg ++ (ws' ++ 125 :: left))))) := by
        rw [split]
        simp
      rcases @jparseExpectAnykvpIgnore_divided ctx _ _ _ _ _ _ _ 125 jval depth v closed derived accepted inside split'
        spaces spaces₁ spaces₂ spaces₃ divides_brace short with ⟨mid, t, a, b, parts, passes, run⟩
      have spaces' : rfc7159.Spaces b := by
        rw [parts] at spaces₃
        exact (List.forall_mem_append.mp spaces₃).2
      rcases nextComma_last passes spaces' divides_brace (by decide) with ⟨res, onward⟩
      apply iterate_last run res spaces' onward
      rw [parts]
      simp

theorem accepted_member {ws₃ : List UInt8} {ms : List (List UInt8 × Json)} (closed : Closed key)
    (spaces₁ : rfc7159.Spaces ws₁) (spaces₂ : rfc7159.Spaces ws₂) (derived : Derives loose (.value v) seg)
    (accepted : Accepted (.value v) seg) (spaces' : rfc7159.Spaces ws') (spaces₃ : rfc7159.Spaces ws₃)
    (others : Accepted (.members ms) more) :
    Accepted (.members ((key, v) :: ms))
      (34 :: (key ++ 34 :: (ws₁ ++ 58 :: (ws₂ ++ (seg ++ (ws' ++ 44 :: (ws₃ ++ more))))))) := by
  intro depth fuel ctx jval ws left inside split spaces short enough
  cases fuel with
  | zero => exact absurd enough (Nat.not_lt_zero _)
  | succ fuel =>
      have split' : ctx.unread =
          ws ++ 34 :: (key ++ 34 :: (ws₁ ++ 58 :: (ws₂ ++ (seg ++ (ws' ++ 44 :: (ws₃ ++ (more ++ left))))))) := by
        rw [split]
        simp
      rcases @jparseExpectAnykvpIgnore_divided ctx _ _ _ _ _ _ _ 44 jval depth v closed derived accepted inside split'
        spaces spaces₁ spaces₂ spaces' divides_comma short with ⟨mid, t, a, b, parts, passes, run⟩
      have spaces'' : rfc7159.Spaces b := by
        rw [parts] at spaces'
        exact (List.forall_mem_append.mp spaces').2
      rcases nextComma_comma passes spaces'' with ⟨res, onward⟩
      have fewer : (nextComma mid).2.unread.length < ctx.unread.length := by
        rw [onward.unread, split']
        simp only [List.length_append, List.length_cons]
        omega
      have closes := others depth fuel (nextComma mid).2 t ws₃ left onward.inside onward.unread spaces₃ (by omega)
        (by omega)
      have whole := iterate_more run res onward closes
      have shape : ws ++ 34 :: (key ++ 34 :: (ws₁ ++ 58 :: (ws₂ ++ (seg ++ a)))) ++ (b ++ [44]) ++ (ws₃ ++ more) =
          ws ++ 34 :: (key ++ 34 :: (ws₁ ++ 58 :: (ws₂ ++ (seg ++ (ws' ++ 44 :: (ws₃ ++ more)))))) := by
        rw [parts]
        simp
      rw [shape] at whole
      exact whole

section

variable {code : Nat → JparseRes}

end

theorem accepted_object {ms : List (List UInt8 × Json)} (spaces₁ : rfc7159.Spaces ws₁)
    (accepted : Accepted (.members ms) seg) : Accepted (.value (.object ms)) (123 :: (ws₁ ++ seg)) := by
  intro depth ctx jval ws left inside split spaces _ short
  cases depth with
  | zero => exact absurd short (Nat.not_lt_zero _)
  | succ depth =>
      have brace : ¬ rfc7159.space 123 := by simp [rfc7159]
      have split : ctx.unread = ws ++ 123 :: (ws₁ ++ (seg ++ left)) := by
        rw [split]
        simp
      rcases ignoreWithin_mark split spaces brace (by decide) inside jval depth with ⟨next, passes, same⟩
      have same : ignoreWithin (depth + 1) ctx jval = ignoreEnd next.pos (ignoreObject (ignoreWithin depth) next jval) :=
        same
      have blank : Blank next.unread [] (123 :: (ws₁ ++ (seg ++ left))) := .of_cons passes.unread rfc7159.spaces_nil brace
      have short' : (ws₁ ++ (seg ++ left)).length < depth := by
        rw [split, List.length_append, List.length_cons] at short
        omega
      have found := @expectIter_closes _ next left (ws₁ ++ (seg ++ left)) [] (ws₁ ++ seg) 123 125
        (jparseExpectAnykvpIgnore (ignoreWithin depth)) { jval with ty := .object } .expectObjectIter blank passes.inside
        (by simp [rfc7159]) fun inner onward => by
          have here := onward.unread
          apply accepted depth _ inner _ ws₁ left onward.inside here spaces₁
          · rw [here]
            exact short'
          · rw [ahead_eq]
            omega
      have done : (ignoreObject (ignoreWithin depth) next jval).1 = .ok := found.1
      rw [same, ignoreEnd_ok done]
      exact ⟨done, passes.trans found.2.1⟩

/-- The items are not looked at. -/
theorem accepted_array {vs vs' : List Json} {comma comma' : Bool} (spaces₁ : rfc7159.Spaces ws₁)
    (accepted : Accepted (.items vs comma) seg) : Accepted (.value (.array vs' comma')) (91 :: (ws₁ ++ seg)) := by
  intro depth ctx jval ws left inside split spaces _ short
  cases depth with
  | zero => exact absurd short (Nat.not_lt_zero _)
  | succ depth =>
      have split : ctx.unread = ws ++ 91 :: (ws₁ ++ (seg ++ left)) := by
        rw [split]
        simp
      rcases ignoreWithin_mark split spaces (by simp [rfc7159]) (by decide) inside jval depth with ⟨next, passes, same⟩
      have same : ignoreWithin (depth + 1) ctx jval = ignoreEnd next.pos (ignoreArray (ignoreWithin depth) next jval) :=
        same
      have nothing : rfc7159.Spaces [] := rfc7159.spaces_nil
      have short' : next.unread.length ≤ depth := by
        rw [split, List.length_append] at short
        rw [passes.unread]
        omega
      rcases accepted.items.array spaces₁ passes.inside passes.unread nothing short' with ⟨found, onward, -⟩
      have done : (ignoreArray (ignoreWithin depth) next jval).1 = .ok := found
      rw [same, ignoreEnd_ok done]
      exact ⟨done, passes.trans onward⟩

/-- In front of the bracket the parser finds a number without characters. -/
theorem accepted_emptyArray (spaces₁ : rfc7159.Spaces ws₁) :
    Accepted (.value (.array [] false)) (91 :: (ws₁ ++ [93])) := by
  have none : ([] : List UInt8).foldlM floatStep .floatIn = some .floatIn := rfl
  have nothing : rfc7159.Spaces [] := rfc7159.spaces_nil
  have item : Accepted (.items [.number []] false) ([] ++ ([] ++ [93])) :=
    accepted_lastItem (.number ⟨_, none⟩) (accepted_number none) nothing
  exact accepted_array spaces₁ item

theorem accepted_emptyObject (spaces₁ : rfc7159.Spaces ws₁) : Accepted (.value (.object [])) (123 :: (ws₁ ++ [125])) := by
  intro depth ctx jval ws left inside split spaces _ short
  cases depth with
  | zero => exact absurd short (Nat.not_lt_zero _)
  | succ depth =>
      have brace : ¬ rfc7159.space 123 := by simp [rfc7159]
      have split : ctx.unread = ws ++ 123 :: (ws₁ ++ 125 :: left) := by
        rw [split]
        simp
      rcases ignoreWithin_mark split spaces brace (by decide) inside jval depth with ⟨next, passes, same⟩
      have same : ignoreWithin (depth + 1) ctx jval = ignoreEnd next.pos (ignoreObject (ignoreWithin depth) next jval) :=
        same
      have blank : Blank next.unread [] (123 :: (ws₁ ++ 125 :: left)) := .of_cons passes.unread rfc7159.spaces_nil brace
      have found := @expectIter_empty _ next left [] ws₁ 123 125 (jparseExpectAnykvpIgnore (ignoreWithin depth))
        { jval with ty := .object } .expectObjectIter blank passes.inside spaces₁ (by simp [rfc7159]) fun inner onward => by
          have here : Blank inner.unread ws₁ (125 :: left) := .of_cons onward.unread spaces₁ divides_brace.space
          rcases jparseExpectStr_other here.begun (by decide) onward.inside.begun with ⟨res, still, value⟩
          refine ⟨.expectAnykvpIgnore 1, (jparseExpectStr inner.begun).2.1, { jval with ty := .object }, ?_, by simp, by simp,
            still.of_begun⟩
          rw [jparseExpectAnykvpIgnore, expectAnykvp]
          rcases read : jparseExpectStr inner.begun with ⟨res', last, val⟩
          rw [read] at res value
          change res' = _ at res
          change val = none at value
          subst res value
          rfl
      have done : (ignoreObject (ignoreWithin depth) next jval).1 = .ok := found.1
      rw [same, ignoreEnd_ok done]
      exact ⟨done, passes.trans found.2.1⟩

theorem loose_accepted {p : Phrase} (derived : Derives loose p seg) : Accepted p seg := by
  induction derived with
  | string closed => exact accepted_string closed
  | number allowed =>
      rcases allowed with ⟨st, run⟩
      exact accepted_number run
  | token literal => exact accepted_token literal
  | emptyObject spaces => exact accepted_emptyObject spaces
  | object spaces _ ih => exact accepted_object spaces ih
  | emptyArray spaces => exact accepted_emptyArray spaces
  | array spaces _ ih => exact accepted_array spaces ih
  | lastMember closed spaces₁ spaces₂ derived spaces ih => exact accepted_lastMember closed spaces₁ spaces₂ derived ih spaces
  | member closed spaces₁ spaces₂ derived spaces spaces' _ ih others =>
      exact accepted_member closed spaces₁ spaces₂ derived ih spaces spaces' others
  | lastItem derived spaces ih => exact accepted_lastItem derived ih spaces
  | comma never _ _ _ _ => exact never.elim
  | item derived spaces spaces' _ ih others => exact accepted_item derived ih spaces spaces' others

/-! RFC 7159. -/

theorem digits_run {ds : List UInt8} {st : FloatState} (digits : ∀ d ∈ ds, IsDigit d)
    (stays : ∀ d, IsDigit d → floatStep st d = some st) : ds.foldlM floatStep st = some st := by
  induction ds with
  | nil => rfl
  | cons d ds ih =>
      rcases List.forall_mem_cons.mp digits with ⟨first, others⟩
      rw [List.foldlM_cons, stays d first]
      exact ih others

theorem exponent_run {exp : List UInt8} {st : FloatState} (exponent : exp = [] ∨ Exp exp)
    (letter : ∀ c, c = 101 ∨ c = 69 → floatStep st c = some .e) :
    ∃ st', exp.foldlM floatStep st = some st' := by
  rcases exponent with rfl | ⟨e, sign, ds, rfl, marks, signed, digits⟩
  · exact ⟨st, rfl⟩
  · have stays : ∀ d, IsDigit d → floatStep .e1 d = some .e1 := fun d digit => by simp [floatStep, digit]
    have rest : (sign ++ ds).foldlM floatStep .e = some .e1 := by
      rcases signed with rfl | rfl | rfl
      · cases ds with
        | nil => exact absurd rfl digits.1
        | cons d ds =>
            rcases List.forall_mem_cons.mp digits.2 with ⟨first, others⟩
            have step : floatStep .e d = some .e1 := by simp [floatStep, first]
            rw [List.nil_append, List.foldlM_cons, step]
            exact digits_run others stays
      · exact digits_run digits.2 stays
      · exact digits_run digits.2 stays
    refine ⟨.e1, ?_⟩
    rw [List.foldlM_cons, letter e marks]
    exact rest

/-- The scanner goes to the end of a number. -/
theorem Number.runs {chars : List UInt8} (number : Number chars) :
    ∃ st, chars.foldlM floatStep .floatIn = some st := by
  rcases number with ⟨minus, int, frac, exp, rfl, sign, whole, fraction, exponent⟩
  have stays : ∀ d, IsDigit d → floatStep .float1 d = some .float1 := fun d digit => by simp [floatStep, digit]
  have first : (minus ++ int).foldlM floatStep .floatIn = some .float1 := by
    have digits : ∀ d ∈ int, IsDigit d := by
      rcases whole with rfl | ⟨digits, -⟩
      · simp [IsDigit]
      · exact digits.2
    rcases sign with rfl | rfl
    · rcases whole.digits with ⟨d, ds, rfl, -, -⟩
      rcases List.forall_mem_cons.mp digits with ⟨digit, others⟩
      have step : floatStep .floatIn d = some .float1 := by simp [floatStep, digit]
      rw [List.nil_append, List.foldlM_cons, step]
      exact digits_run others stays
    · exact digits_run digits stays
  have second : ∃ st, frac.foldlM floatStep .float1 = some st ∧
      ∀ c, c = 101 ∨ c = 69 → floatStep st c = some .e := by
    rcases fraction with rfl | ⟨ds, rfl, digits⟩
    · refine ⟨.float1, rfl, ?_⟩
      rintro c (rfl | rfl) <;> decide
    · refine ⟨.float2, ?_, ?_⟩
      · cases ds with
        | nil => exact absurd rfl digits.1
        | cons d ds =>
            rcases List.forall_mem_cons.mp digits.2 with ⟨digit, others⟩
            have step : floatStep .dot d = some .float2 := by simp [floatStep, digit]
            have dot : floatStep .float1 46 = some .dot := by decide
            have onward : ∀ d, IsDigit d → floatStep .float2 d = some .float2 := fun d digit => by simp [floatStep, digit]
            have rest : (d :: ds).foldlM floatStep .dot = some .float2 := by
              rw [List.foldlM_cons, step]
              exact digits_run others onward
            rw [List.foldlM_cons, dot]
            exact rest
      · rintro c (rfl | rfl) <;> decide
  rcases second with ⟨st, run, letter⟩
  rcases exponent_run exponent letter with ⟨st', run'⟩
  refine ⟨st', ?_⟩
  rw [← List.append_assoc, List.foldlM_append, first]
  change (frac ++ exp).foldlM floatStep .float1 = _
  rw [List.foldlM_append, run]
  exact run'

theorem rfc7159_loose {x : Lexeme} (allowed : rfc7159.allows x) : loose.allows x := by
  cases x with
  | string body => exact Chars.closed allowed
  | number chars => exact Number.runs allowed
  | token chars => exact allowed
  | comma => exact allowed

theorem loosened {p : Phrase} (derived : Derives rfc7159 p seg) : Derives loose p seg :=
  derived.change (fun _ _ space => space) fun x among => rfc7159_loose (derived.allows x among)

/-- The character behind a number or a literal shows its end. -/
theorem endsAt_word {v : Json} (derived : Derives rfc7159 (.value v) seg) (ended : (Phrase.value v).Open → ¬ IsWord c) :
    EndsAt v (c :: left) := by
  cases v with
  | token chars =>
      refine ⟨by simp, ?_⟩
      intro ch head letter
      cases head
      exact ended trivial (.inr (.inl letter))
  | number chars =>
      refine ⟨by simp, ?_, ?_⟩
      · intro st _ ch head
        cases head
        exact floatStep_stops (ended trivial) st
      · rintro rfl
        cases derived with
        | number number =>
            rcases Number.begins number with ⟨d, ds, wrong, -⟩
            cases wrong
  | _ => trivial

/-- A JSON value is read up to its end, if the character behind it goes on with no number and no literal. -/
theorem jparseExpectIgnore_complete (ctx : JparseCtx) (inside : ctx.Inside) (jval : JparseValue) (v : Json)
    (ws seg left : List UInt8) (c : UInt8) (spaces : rfc7159.Spaces ws) (derived : Derives rfc7159 (.value v) seg)
    (ended : (Phrase.value v).Open → ¬ IsWord c) (text : ctx.unread = ws ++ (seg ++ c :: left)) :
    (jparseExpectIgnore ctx jval).1 = .ok ∧
      (jparseExpectIgnore ctx jval).2.1.pos = ctx.pos + (ws ++ seg).length := by
  rcases loose_accepted (loosened derived) (ctx.ahead + 1) ctx jval ws (c :: left) inside text spaces
    (endsAt_word derived ended) (unread_lt ctx) with ⟨done, passes⟩
  exact ⟨done, passes.pos⟩

/-- The text is ` [1] `. -/
theorem jparseExpectIgnore_complete_sample :
    (jparseExpectIgnore (jparseStart [[32, 91], [49, 93, 32]]) jparseValueInit).1 = .ok ∧
      (jparseExpectIgnore (jparseStart [[32, 91], [49, 93, 32]]) jparseValueInit).2.1.pos = 4 := by
  have one : Number [49] :=
    ⟨[], [49], [], [], rfl, .inl rfl, .inr ⟨⟨by simp, by simp [IsDigit]⟩, by simp⟩, .inl rfl, .inl rfl⟩
  have spaces : rfc7159.Spaces [] := rfc7159.spaces_nil
  have derived : Derives rfc7159 (.value (.array [.number [49]] false)) [91, 49, 93] :=
    .array spaces (.lastItem (.number one) spaces)
  exact jparseExpectIgnore_complete (jparseStart [[32, 91], [49, 93, 32]]) (jparseStart_inside (by simp)) jparseValueInit
    (.array [.number [49]] false) [32] [91, 49, 93] [] 32 (by simp [Lexicon.Spaces, rfc7159]) derived (fun _ => by decide) rfl

end MnCommon.Jparse
