import MnCommon.Jparse.Accept

/-! What the pull parser has read if it succeeds. -/

namespace MnCommon.Jparse

open Grammars

variable {S : Type} {ctx ctx' mid next : JparseCtx} {rest left more ws ws' ws₁ ws₂ letters taken seg key : List UInt8}
  {c start stop : UInt8} {value ignore : Expect JparseValue} {jval : JparseValue} {depth fuel : Nat} {v : Json}

/-- A value with its end, and with spaces before it. -/
def Found (ctx ctx' : JparseCtx) : Prop :=
  ∃ v ws seg left, rfc7159.Spaces ws ∧ Derives loose (.value v) seg ∧ EndsAt v left ∧ Passes ctx ctx' (ws ++ seg) left

/-- Where it succeeds it has found a value. -/
structure Finds (value : Expect JparseValue) : Prop where
  found : ∀ ctx jval, ctx.Inside → (value ctx jval).1 = .ok → Found ctx (value ctx jval).2.1
  eos : ∀ ctx jval, (value ctx jval).1 ≠ .eos

theorem Found.of_passes (passes : Passes ctx next [] left) (found : Found next ctx') : Found ctx ctx' := by
  rcases found with ⟨v, ws, seg, left, spaces, derived, ends, passes'⟩
  exact ⟨v, ws, seg, left, spaces, derived, ends, passes.trans passes'⟩

theorem nextComma_ok (done : (nextComma ctx).1 = .ok) (inside : ctx.Inside) :
    ∃ ws more, rfc7159.Spaces ws ∧ Passes ctx (nextComma ctx).2 (ws ++ [44]) more := by
  rcases exists_blank ctx.unread with ⟨ws, left, blank⟩
  cases left with
  | nil =>
      rcases reachBody_ended blank divides_comma.space inside with ⟨res, -⟩
      rw [nextComma, reachComma] at done
      rcases reached : reachBody 44 ctx with ⟨res', next⟩
      rw [reached] at res done
      change res' = _ at res
      subst res
      cases done
  | cons c more =>
      by_cases same : c = 44
      · subst same
        exact ⟨ws, more, blank.spaces, (nextComma_found blank inside).2⟩
      · rw [(nextComma_other blank same inside).1] at done
        cases done

theorem nextComma_eos (ended : (nextComma ctx).1 = .eos) (inside : ctx.Inside) :
    ∃ ws left, rfc7159.Spaces ws ∧ Passes ctx (nextComma ctx).2 ws left := by
  rcases exists_blank ctx.unread with ⟨ws, left, blank⟩
  cases left with
  | nil =>
      rcases reachBody_ended blank divides_comma.space inside with ⟨res, passes⟩
      rw [nextComma, reachComma]
      rcases reached : reachBody 44 ctx with ⟨res', next⟩
      rw [reached] at res passes
      change res' = _ at res
      subst res
      exact ⟨ws, [], blank.spaces, passes⟩
  | cons c more =>
      by_cases same : c = 44
      · subst same
        rw [(nextComma_found blank inside).1] at ended
        cases ended
      · exact ⟨[], ctx.unread, rfc7159.spaces_nil, (nextComma_other blank same inside).2⟩

/-- A value, and the search for a comma behind it. -/
theorem expectValue_found (finds : Finds value) (inside : ctx.Inside)
    (done : (expectValue value ctx jval).1 = .ok ∨ (expectValue value ctx jval).1 = .eos) :
    ∃ mid t, Found ctx mid ∧ expectValue value ctx jval = ((nextComma mid).1, (nextComma mid).2, t) := by
  rcases exists_word ctx.unread with ⟨ws, letters, left, word⟩
  by_cases null : left ≠ [] ∧ letters = [110, 117, 108, 108]
  · rcases null with ⟨ended, rfl⟩
    rcases expectMaybeNull_found word ended inside with ⟨res, passes⟩
    refine ⟨(expectMaybeNull ctx).2, jval, ?_, ?_⟩
    · have literal : Literal [110, 117, 108, 108] := .inr (.inr rfl)
      exact ⟨.token _, ws, _, left, word.blank.spaces, .token literal, ⟨ended, word.stops⟩, passes⟩
    · exact expectValue_null res
  · have other : left ≠ [] → letters ≠ [110, 117, 108, 108] := fun ended same => null ⟨ended, same⟩
    rcases expectMaybeNull_other word other inside with ⟨res, passes⟩
    have some : (expectMaybeNull ctx).1 ≠ .ok := by
      rw [res]
      simp
    have found := finds.found (expectMaybeNull ctx).2 jval passes.inside
    have eos := finds.eos (expectMaybeNull ctx).2 jval
    rw [expectValue_other some] at done ⊢
    by_cases fine : (value (expectMaybeNull ctx).2 jval).1 = .ok
    · rw [commaBehind_ok fine]
      exact ⟨_, _, (found fine).of_passes passes, rfl⟩
    · rw [commaBehind_failed fine] at done
      exact absurd done (not_or.mpr ⟨fine, eos⟩)

theorem goingBack_finds (finds : Finds value) (spos : Nat) : Finds (goingBack spos value) := by
  constructor
  · intro ctx jval inside done
    have found := finds.found ctx jval inside
    rw [goingBack] at done ⊢
    rcases run : value ctx jval with ⟨res, next, t⟩
    rw [run] at found done
    cases res with
    | ok => exact found rfl
    | _ => cases done
  · intro ctx jval ended
    have eos := finds.eos ctx jval
    rw [goingBack] at ended
    rcases run : value ctx jval with ⟨res, next, t⟩
    rw [run] at eos ended
    cases res with
    | eos => exact eos rfl
    | _ => cases ended

theorem jparseExpectItemIgnore_found (finds : Finds ignore) (inside : ctx.Inside)
    (done : (jparseExpectItemIgnore ignore ctx jval).1 = .ok ∨ (jparseExpectItemIgnore ignore ctx jval).1 = .eos) :
    ∃ mid t, Found ctx mid ∧ jparseExpectItemIgnore ignore ctx jval = ((nextComma mid).1, (nextComma mid).2, t) := by
  rcases expectValue_found (goingBack_finds finds ctx.pos) inside.begun done with ⟨mid, t, found, run⟩
  rcases found with ⟨v, ws, seg, left, spaces, derived, ends, passes⟩
  exact ⟨mid, t, ⟨v, ws, seg, left, spaces, derived, ends, passes.of_begun⟩, run⟩

/-- A key with its colon, and then a value. -/
theorem jparseExpectAnykvpIgnore_found (finds : Finds ignore) (inside : ctx.Inside)
    (done : (jparseExpectAnykvpIgnore ignore ctx jval).1 = .ok ∨ (jparseExpectAnykvpIgnore ignore ctx jval).1 = .eos) :
    ∃ ws key ws₁ more next mid t, rfc7159.Spaces ws ∧ Closed key ∧ rfc7159.Spaces ws₁ ∧
      Passes ctx next (ws ++ 34 :: (key ++ 34 :: (ws₁ ++ [58]))) more ∧ Found next mid ∧
      jparseExpectAnykvpIgnore ignore ctx jval = ((nextComma mid).1, (nextComma mid).2, t) := by
  have string := @jparseExpectStr_ok ctx.begun
  rw [jparseExpectAnykvpIgnore, expectAnykvp] at done ⊢
  rcases read : jparseExpectStr ctx.begun with ⟨res, first, val⟩
  rw [read] at done string
  cases res with
  | ok =>
      rcases string rfl inside.begun with ⟨ws, key, more, spaces, closed, passes⟩
      have colon := @reachBody_ok first 58
      dsimp only at done ⊢
      rw [reachColon] at done ⊢
      rcases reached : reachBody 58 first with ⟨res', next⟩
      rw [reached] at done colon
      cases res' with
      | ok =>
          rcases colon rfl (by simp [rfc7159]) passes.inside with ⟨ws₁, more', spaces₁, passes'⟩
          rcases expectValue_found finds passes'.inside done with ⟨mid, t, found, run⟩
          refine ⟨ws, key, ws₁, more', next, mid, t, spaces, closed, spaces₁, ?_, found, run⟩
          have whole := (passes.trans passes').of_begun
          have shape : ws ++ 34 :: (key ++ [34]) ++ (ws₁ ++ [58]) = ws ++ 34 :: (key ++ 34 :: (ws₁ ++ [58])) := by simp
          rw [shape] at whole
          exact whole
      | _ => rcases done with wrong | wrong <;> cases wrong
  | _ => rcases done with wrong | wrong <;> cases wrong

/-- What a loop has read is the rest of a container. -/
theorem items_found (finds : Finds ignore) {last : JparseCtx} (inside : ctx.Inside)
    (ended : (iterate (jparseExpectItemIgnore ignore) fuel ctx jval).1 = .eos) (spaces' : rfc7159.Spaces ws')
    (passes' : Passes (iterate (jparseExpectItemIgnore ignore) fuel ctx jval).2.1 last (ws' ++ [93]) left) :
    ∃ ws seg vs, rfc7159.Spaces ws ∧ Derives loose (.items vs false) seg ∧ Passes ctx last (ws ++ seg) left := by
  induction fuel generalizing ctx jval with
  | zero => cases ended
  | succ fuel ih =>
      have item := @jparseExpectItemIgnore_found ctx ignore jval finds inside
      rw [iterate] at ended passes'
      rcases run : jparseExpectItemIgnore ignore ctx jval with ⟨res, next, t⟩
      rw [run] at ended passes' item
      cases res with
      | ok =>
          rcases item (.inl rfl) with ⟨mid, t', ⟨v, ws, seg, more, spaces, derived, -, passes⟩, same⟩
          have done : (nextComma mid).1 = .ok := (congrArg Prod.fst same).symm
          rcases nextComma_ok done passes.inside with ⟨ws₁, more', spaces₁, passes₁⟩
          have place : next = (nextComma mid).2 := congrArg (fun r => r.2.1) same
          rw [← place] at passes₁
          rcases ih passes₁.inside ended passes' with ⟨ws₂, seg₂, vs, spaces₂, derived₂, passes₂⟩
          refine ⟨ws, _, v :: vs, spaces, .item derived spaces₁ spaces₂ derived₂, ?_⟩
          have whole := passes.trans (passes₁.trans passes₂)
          have shape : ws ++ seg ++ (ws₁ ++ [44] ++ (ws₂ ++ seg₂)) = ws ++ (seg ++ (ws₁ ++ 44 :: (ws₂ ++ seg₂))) := by simp
          rw [shape] at whole
          exact whole
      | eos =>
          rcases item (.inr rfl) with ⟨mid, t', ⟨v, ws, seg, more, spaces, derived, -, passes⟩, same⟩
          have stopped : (nextComma mid).1 = .eos := (congrArg Prod.fst same).symm
          rcases nextComma_eos stopped passes.inside with ⟨ws₁, more', spaces₁, passes₁⟩
          have place : next = (nextComma mid).2 := congrArg (fun r => r.2.1) same
          rw [← place] at passes₁
          have spaces₂ : rfc7159.Spaces (ws₁ ++ ws') := List.forall_mem_append.mpr ⟨spaces₁, spaces'⟩
          refine ⟨ws, _, [v], spaces, .lastItem derived spaces₂, ?_⟩
          have whole := passes.trans (passes₁.trans passes')
          have shape : ws ++ seg ++ (ws₁ ++ (ws' ++ [93])) = ws ++ (seg ++ (ws₁ ++ ws' ++ [93])) := by simp
          rw [shape] at whole
          exact whole
      | _ => cases ended

theorem members_found (finds : Finds ignore) {last : JparseCtx} (inside : ctx.Inside)
    (ended : (iterate (jparseExpectAnykvpIgnore ignore) fuel ctx jval).1 = .eos) (spaces' : rfc7159.Spaces ws')
    (passes' : Passes (iterate (jparseExpectAnykvpIgnore ignore) fuel ctx jval).2.1 last (ws' ++ [125]) left) :
    ∃ ws seg ms, rfc7159.Spaces ws ∧ Derives loose (.members ms) seg ∧ Passes ctx last (ws ++ seg) left := by
  induction fuel generalizing ctx jval with
  | zero => cases ended
  | succ fuel ih =>
      have member := @jparseExpectAnykvpIgnore_found ctx ignore jval finds inside
      rw [iterate] at ended passes'
      rcases run : jparseExpectAnykvpIgnore ignore ctx jval with ⟨res, next, t⟩
      rw [run] at ended passes' member
      cases res with
      | ok =>
          rcases member (.inl rfl) with ⟨ws, key, ws₁, more, first, mid, t', spaces, closed, spaces₁, passes,
            ⟨v, ws₂, seg, more', spaces₂, derived, -, passes₂⟩, same⟩
          have done : (nextComma mid).1 = .ok := (congrArg Prod.fst same).symm
          rcases nextComma_ok done passes₂.inside with ⟨ws₃, more'', spaces₃, passes₃⟩
          have place : next = (nextComma mid).2 := congrArg (fun r => r.2.1) same
          rw [← place] at passes₃
          rcases ih passes₃.inside ended passes' with ⟨ws₄, seg₄, ms, spaces₄, derived₄, passes₄⟩
          refine ⟨ws, _, (key, v) :: ms, spaces, .member closed spaces₁ spaces₂ derived spaces₃ spaces₄ derived₄, ?_⟩
          have whole := passes.trans (passes₂.trans (passes₃.trans passes₄))
          have shape : ws ++ 34 :: (key ++ 34 :: (ws₁ ++ [58])) ++ (ws₂ ++ seg ++ (ws₃ ++ [44] ++ (ws₄ ++ seg₄))) =
              ws ++ 34 :: (key ++ 34 :: (ws₁ ++ 58 :: (ws₂ ++ (seg ++ (ws₃ ++ 44 :: (ws₄ ++ seg₄)))))) := by simp
          rw [shape] at whole
          exact whole
      | eos =>
          rcases member (.inr rfl) with ⟨ws, key, ws₁, more, first, mid, t', spaces, closed, spaces₁, passes,
            ⟨v, ws₂, seg, more', spaces₂, derived, -, passes₂⟩, same⟩
          have stopped : (nextComma mid).1 = .eos := (congrArg Prod.fst same).symm
          rcases nextComma_eos stopped passes₂.inside with ⟨ws₃, more'', spaces₃, passes₃⟩
          have place : next = (nextComma mid).2 := congrArg (fun r => r.2.1) same
          rw [← place] at passes₃
          have spaces₄ : rfc7159.Spaces (ws₃ ++ ws') := List.forall_mem_append.mpr ⟨spaces₃, spaces'⟩
          refine ⟨ws, _, [(key, v)], spaces, .lastMember closed spaces₁ spaces₂ derived spaces₄, ?_⟩
          have whole := passes.trans (passes₂.trans (passes₃.trans passes'))
          have shape : ws ++ 34 :: (key ++ 34 :: (ws₁ ++ [58])) ++ (ws₂ ++ seg ++ (ws₃ ++ (ws' ++ [125]))) =
              ws ++ 34 :: (key ++ 34 :: (ws₁ ++ 58 :: (ws₂ ++ (seg ++ (ws₃ ++ ws' ++ [125]))))) := by simp
          rw [shape] at whole
          exact whole
      | _ => cases ended

/-- Between the brackets there is a loop that has come to its end, or that has read nothing. -/
theorem expectIter_found {code : Nat → JparseRes} {cb : Expect S} {s : S} (codes : ∀ n, code n ≠ .ok)
    (startMark : ¬ rfc7159.space start) (stopMark : ¬ rfc7159.space stop)
    (later : ∀ fuel next s, next.Inside → Later next (iterate cb fuel next s).2.1) (inside : ctx.Inside)
    (done : (expectIter (reachBody start) (reachBody stop) code cb ctx s).1 = .ok) :
    ∃ next ws more ws' left, Passes ctx next (ws ++ [start]) more ∧ rfc7159.Spaces ws ∧ rfc7159.Spaces ws' ∧
      ((iterate cb (next.ahead + 2) next s).1 = .eos ∨
        Passes next (iterate cb (next.ahead + 2) next s).2.1 [] next.unread) ∧
      Passes (iterate cb (next.ahead + 2) next s).2.1 (expectIter (reachBody start) (reachBody stop) code cb ctx s).2.1
        (ws' ++ [stop]) left := by
  have opened := @reachBody_ok ctx.begun start
  rw [expectIter_eq] at done ⊢
  rcases reached : reachBody start ctx.begun with ⟨res, next⟩
  rw [reached] at done opened
  dsimp only at done opened ⊢
  split_ifs at done ⊢ with fine
  · subst fine
    rcases opened rfl startMark inside.begun with ⟨ws, more, spaces, passes⟩
    have passes := passes.of_begun
    have onward := later (next.ahead + 2) next s passes.inside
    have failed := iterate_not_ok cb (next.ahead + 2) next s
    rcases run : iterate cb (next.ahead + 2) next s with ⟨res', last, t⟩
    rw [run] at done onward failed
    have closed := @reachBody_ok last stop
    rw [loopEnd] at done ⊢
    split_ifs at done ⊢ with fuelled found there
    · exact absurd done failed
    · rcases closed there stopMark onward.inside with ⟨ws', left, spaces', passes'⟩
      refine ⟨next, ws, more, ws', left, passes, spaces, spaces', ?_, ?_⟩
      · rw [run]
        rcases found with eos | place
        · exact .inl eos
        · exact .inr ⟨onward, rfl, place.symm⟩
      · rw [run]
        exact passes'
    · exact absurd done (codes 2)
    · exact absurd done failed
  · exact absurd done (codes 1)

theorem iterate_later {cb : Expect JparseValue} (agrees : Agrees JparseValue.Same cb) (fuel : Nat) (ctx : JparseCtx)
    (jval : JparseValue) (inside : ctx.Inside) : Later ctx (iterate cb fuel ctx jval).2.1 :=
  (iterate_agrees agrees fuel ctx jval jval inside ⟨rfl, .refl _, rfl⟩).later

theorem ignoreObject_found (finds : Finds ignore) (agrees : Agrees JparseValue.Same ignore) (inside : ctx.Inside)
    (done : (ignoreObject ignore ctx jval).1 = .ok) : Found ctx (ignoreObject ignore ctx jval).2.1 := by
  have later := iterate_later (jparseExpectAnykvpIgnore_agrees agrees)
  rw [ignoreObject_res] at done
  rw [ignoreObject_ctx]
  rcases @expectIter_found _ ctx 123 125 .expectObjectIter (jparseExpectAnykvpIgnore ignore) { jval with ty := .object }
    (fun _ => nofun) (by simp [rfc7159]) (by simp [rfc7159]) later inside done with
    ⟨next, ws, more, ws', left, passes, spaces, spaces', eos | none, passes'⟩
  · rcases members_found finds passes.inside eos spaces' passes' with ⟨ws₁, seg, ms, spaces₁, derived, passes₁⟩
    refine ⟨.object ms, ws, _, left, spaces, .object spaces₁ derived, trivial, ?_⟩
    have whole := passes.trans passes₁
    rw [List.append_assoc] at whole
    exact whole
  · refine ⟨.object [], ws, _, left, spaces, .emptyObject spaces', trivial, ?_⟩
    have whole := passes.trans (none.trans passes')
    rw [List.append_assoc] at whole
    exact whole

theorem ignoreArray_found (finds : Finds ignore) (agrees : Agrees JparseValue.Same ignore) (inside : ctx.Inside)
    (done : (ignoreArray ignore ctx jval).1 = .ok) : Found ctx (ignoreArray ignore ctx jval).2.1 := by
  have later := iterate_later (jparseExpectItemIgnore_agrees agrees)
  rcases @expectIter_found _ ctx 91 93 .expectArrayIter (jparseExpectItemIgnore ignore) { jval with ty := .array }
    (fun _ => nofun) (by simp [rfc7159]) (by simp [rfc7159]) later inside done with
    ⟨next, ws, more, ws', left, passes, spaces, spaces', eos | none, passes'⟩
  · rcases items_found finds passes.inside eos spaces' passes' with ⟨ws₁, seg, vs, spaces₁, derived, passes₁⟩
    refine ⟨.array vs false, ws, _, left, spaces, .array spaces₁ derived, trivial, ?_⟩
    have whole := passes.trans passes₁
    rw [List.append_assoc] at whole
    exact whole
  · refine ⟨.array [] false, ws, _, left, spaces, .emptyArray spaces', trivial, ?_⟩
    have whole := passes.trans (none.trans passes')
    rw [List.append_assoc] at whole
    exact whole

theorem ignoreStr_found (inside : ctx.Inside) (done : (ignoreStr ctx jval).1 = .ok) :
    Found ctx (ignoreStr ctx jval).2.1 := by
  rcases jparseExpectStr_ok done inside with ⟨ws, body, more, spaces, closed, passes⟩
  exact ⟨.string body, ws, _, more, spaces, .string closed, trivial, passes⟩

/-- A number may have no characters. -/
theorem ignoreFloat_found (word : Word ctx.unread [] letters left) (other : left ≠ [] → ¬ Literal letters)
    (here : letters ++ left = c :: more) (first : c ≠ 34 ∧ c ≠ 123 ∧ c ≠ 91) (inside : ctx.Inside)
    (done : (ignoreFloat ctx jval).1 = .ok) : Found ctx (ignoreFloat ctx jval).2.1 := by
  have text : ¬ rfc7159.space c := word.blank.stops c (by rw [here]; rfl)
  have unread : ctx.unread = c :: more := word.blank.split.trans here
  rcases exists_run floatStep .floatIn (c :: more) with ⟨chars, st, tail, run⟩
  have blank : Blank ctx.unread [] (chars ++ tail) := by
    rw [← run.split]
    exact .of_cons unread rfc7159.spaces_nil text
  have run' : Run floatStep .floatIn (chars ++ tail) chars st tail := ⟨rfl, run.run, run.stops⟩
  rcases jparseExpectFloat_run blank run' inside with ⟨res, passes⟩
  have some := res.mp done
  refine ⟨.number chars, [], chars, tail, nofun, .number ⟨st, run.run⟩, ⟨some, ?_, ?_⟩, passes some⟩
  · intro st' run'' ch head
    have same : st' = st := Option.some.inj (run''.symm.trans run.run)
    rw [same]
    exact run.stops ch head
  · rintro rfl
    have tail_eq : tail = c :: more := run.split.symm
    subst tail_eq
    constructor
    · intro ch head
      cases head
      exact ⟨text, first⟩
    · intro letters' more' literal split ended ch head
      by_contra stop
      rcases literal.letters with ⟨d, ds, rfl, letter, rest⟩
      have all : ∀ x ∈ d :: ds, IsLetter x := List.forall_mem_cons.mpr ⟨letter, rest⟩
      rcases List.exists_cons_of_ne_nil ended with ⟨e, more', rfl⟩
      cases head
      have same : letters ++ left = (d :: ds) ++ ch :: more' := here.trans split
      cases left with
      | nil =>
          have wrong : ch ∈ letters := by
            rw [List.append_nil] at same
            rw [same]
            simp
          exact stop (word.letters ch wrong)
      | cons x tail =>
          have outside : ¬ IsLetter x := word.stops x rfl
          rcases split_unique word.letters all outside stop same with ⟨rfl, -, -⟩
          exact other (by simp) literal

theorem ignoreWithin_not_eos (depth : Nat) (ctx : JparseCtx) (jval : JparseValue) :
    (ignoreWithin depth ctx jval).1 ≠ .eos := by
  cases depth with
  | zero => simp [ignoreWithin]
  | succ depth =>
      have ended : ∀ pos r, (ignoreEnd pos r).1 ≠ .eos := by
        rintro pos ⟨res, next, t⟩
        cases res <;> simp [ignoreEnd]
      rw [ignoreWithin]
      rcases reachNonblank ctx.begun with ⟨res, start⟩
      cases res with
      | ok =>
          dsimp only
          rcases expectMaybeNull start with ⟨res, next⟩
          cases res with
          | ok => simp
          | _ =>
              dsimp only
              rcases jparseExpectBool next with ⟨res, last, b⟩
              cases res with
              | ok => simp
              | _ => exact ended _ _
      | _ => simp

/-- Whatever has been accepted is a value of the wider grammar. -/
theorem ignoreWithin_finds (depth : Nat) : Finds (ignoreWithin depth) := by
  induction depth with
  | zero => exact ⟨nofun, ignoreWithin_not_eos 0⟩
  | succ depth ih =>
      refine ⟨?_, ignoreWithin_not_eos (depth + 1)⟩
      intro ctx jval inside done
      rcases exists_word ctx.unread with ⟨ws, letters, left, word⟩
      by_cases literal : left ≠ [] ∧ Literal letters
      · rcases literal with ⟨ended, literal⟩
        have passes := (@ignoreWithin_literal ctx left ws letters jval depth word literal ended inside).2.1
        exact ⟨.token letters, ws, letters, left, word.blank.spaces, .token literal, ⟨ended, word.stops⟩, passes⟩
      · have other : left ≠ [] → ¬ Literal letters := fun ended wrong => literal ⟨ended, wrong⟩
        cases here : letters ++ left with
        | nil =>
            rcases reachNonblank_blank word.blank.begun inside.begun with ⟨res, -⟩
            rw [if_pos here] at res
            rw [ignoreWithin] at done
            rcases reached : reachNonblank ctx.begun with ⟨res', next⟩
            rw [reached] at res done
            change res' = _ at res
            subst res
            cases done
        | cons c more =>
            rcases @ignoreWithin_first ctx left more ws letters c jval depth word other here inside with
              ⟨next, passes, same⟩
            rw [same] at done ⊢
            rcases ignoreEnd_inv done with ⟨done, plain⟩
            rw [plain]
            have found : Found next ((if c = 34 then ignoreStr else if c = 123 then ignoreObject (ignoreWithin depth)
                else if c = 91 then ignoreArray (ignoreWithin depth) else ignoreFloat) next jval).2.1 := by
              by_cases string : c = 34
              · rw [if_pos string] at done ⊢
                exact ignoreStr_found passes.inside done
              · rw [if_neg string] at done ⊢
                by_cases object : c = 123
                · rw [if_pos object] at done ⊢
                  exact ignoreObject_found ih (ignoreWithin_agrees depth) passes.inside done
                · rw [if_neg object] at done ⊢
                  by_cases array : c = 91
                  · rw [if_pos array] at done ⊢
                    exact ignoreArray_found ih (ignoreWithin_agrees depth) passes.inside done
                  · rw [if_neg array] at done ⊢
                    have here' : Word next.unread [] letters left := by
                      rw [passes.unread, ← here]
                      exact word.at_letters
                    exact ignoreFloat_found here' other here ⟨string, object, array⟩ passes.inside done
            rcases found with ⟨v, ws', seg, tail, spaces, derived, ends, passes'⟩
            have whole := passes.trans passes'
            rw [← List.append_assoc] at whole
            exact ⟨v, ws ++ ws', seg, tail, List.forall_mem_append.mpr ⟨word.blank.spaces, spaces⟩, derived, ends, whole⟩

/-! RFC 7159. -/

/-- A JSON value behind spaces. -/
def ValueText (text : List UInt8) : Prop :=
  ∃ ws seg v, rfc7159.Spaces ws ∧ Derives rfc7159 (.value v) seg ∧ text = ws ++ seg

/-- What a value has that the parser does not look for. -/
structure Tidy (v : Json) : Prop where
  strings : ∀ body, .string body ∈ v.lexemes → Chars body
  numbers : ∀ chars, .number chars ∈ v.lexemes → Number chars

theorem Tidy.derives (tidy : Tidy v) (derived : Derives loose (.value v) seg) : Derives rfc7159 (.value v) seg := by
  have spaces : ∀ c ∈ seg, loose.space c → rfc7159.space c := fun _ _ space => space
  apply derived.change spaces
  intro x among
  have allowed := derived.allows x among
  cases x with
  | string body => exact tidy.strings body among
  | number chars => exact tidy.numbers chars among
  | token chars => exact allowed
  | comma => exact allowed

theorem tidy_of_derives (derived : Derives rfc7159 (.value v) seg) : Derives loose (.value v) seg ∧ Tidy v :=
  ⟨loosened derived, fun body among => derived.allows (.string body) among, fun chars among => derived.allows (.number chars) among⟩

/-- The spaces before a value and the value are told apart. -/
theorem valueText_split {seg' : List UInt8} {v' : Json} (derived : Derives loose (.value v) seg)
    (spaces : rfc7159.Spaces ws) (derived' : Derives rfc7159 (.value v') seg') (spaces' : rfc7159.Spaces ws')
    (same : ws ++ seg = ws' ++ seg') : seg = seg' := by
  rcases derived'.widened.first with ⟨c', s', rfl, text'⟩
  have first : seg = [] ∨ ∃ d ds, seg = d :: ds ∧ ¬ rfc7159.space d := by
    rcases loose_first derived with ⟨chars, rfl⟩ | none | ⟨d, ds, shape, text, -⟩
    · cases derived with
      | token literal =>
          rcases Literal.letters literal with ⟨d, ds, shape, letter, -⟩
          refine .inr ⟨d, ds, shape, ?_⟩
          exact letter_text letter
    · exact .inl none
    · exact .inr ⟨d, ds, shape, text⟩
  rcases first with rfl | ⟨d, ds, rfl, text⟩
  · rw [List.append_nil] at same
    have inside : c' ∈ ws := by
      rw [same]
      simp
    exact absurd (spaces c' inside) text'
  · rcases split_unique spaces spaces' text text' same with ⟨-, rfl, rfl⟩
    rfl

/-- What is accepted is well formed exactly if what reads as a value with the scanner's numbers and strings also
reads as one with the proper ones. -/
theorem jparseExpectIgnore_wellFormed (ctx : JparseCtx) (inside : ctx.Inside) (jval : JparseValue) :
    ((jparseExpectIgnore ctx jval).1 = .ok → ValueText ((jparseExpectIgnore ctx jval).2.1.since ctx.pos)) ↔
      ∀ ws seg left v, rfc7159.Spaces ws → Derives loose (.value v) seg → EndsAt v left →
        ctx.unread = ws ++ (seg ++ left) → ∃ v', Derives loose (.value v') seg ∧ Tidy v' := by
  constructor
  · intro sound ws seg left v spaces derived ends split
    rcases loose_accepted derived (ctx.ahead + 1) ctx jval ws left inside split spaces ends (unread_lt ctx)
      with ⟨done, passes⟩
    rcases sound done with ⟨ws', seg', v', spaces', derived', same⟩
    have read : (jparseExpectIgnore ctx jval).2.1.since ctx.pos = ws ++ seg := passes.since
    rw [read] at same
    have whole := valueText_split derived spaces derived' spaces' same
    rw [whole]
    exact ⟨v', tidy_of_derives derived'⟩
  · intro tidy done
    rcases (ignoreWithin_finds (ctx.ahead + 1)).found ctx jval inside done with
      ⟨v, ws, seg, left, spaces, derived, ends, passes⟩
    have split := passes.split
    rw [List.append_assoc] at split
    rcases tidy ws seg left v spaces derived ends split with ⟨v', derived', proper⟩
    exact ⟨ws, seg, v', spaces, proper.derives derived', passes.since⟩

/-- The text is `[] `. -/
theorem jparseExpectIgnore_wellFormed_sample :
    ((jparseExpectIgnore (jparseStart [[91, 93, 32]]) jparseValueInit).1 = .ok →
        ValueText ((jparseExpectIgnore (jparseStart [[91, 93, 32]]) jparseValueInit).2.1.since 0)) ↔
      ∀ ws seg left v, rfc7159.Spaces ws → Derives loose (.value v) seg → EndsAt v left →
        (jparseStart [[91, 93, 32]]).unread = ws ++ (seg ++ left) → ∃ v', Derives loose (.value v') seg ∧ Tidy v' :=
  jparseExpectIgnore_wellFormed (jparseStart [[91, 93, 32]]) (jparseStart_inside (by simp)) jparseValueInit

/-- The text is `[1,] `. -/
theorem jparseExpectIgnore_comma :
    (jparseExpectIgnore (jparseStart [[91, 49, 44, 93, 32]]) jparseValueInit).1 = .ok ∧
      ¬ ValueText ((jparseExpectIgnore (jparseStart [[91, 49, 44, 93, 32]]) jparseValueInit).2.1.since 0) := by
  have read : (jparseExpectIgnore (jparseStart [[91, 49, 44, 93, 32]]) jparseValueInit).2.1.since 0 =
      [91, 49, 44, 93] := by decide +kernel
  rw [read]
  refine ⟨by decide +kernel, ?_⟩
  rintro ⟨ws, seg, v, spaces, derived, same⟩
  have nothing : widest.Spaces [] := widest.spaces_nil
  have one : widest.allows (.number [49]) := ⟨49, [], rfl, by simp [IsDigit], by simp⟩
  have other : Derives widest (.value (.array [.number [49]] true)) [91, 49, 44, 93] :=
    .array nothing (.comma trivial (.number one) nothing nothing)
  rcases derived.widened.first with ⟨c, s, rfl, text⟩
  have bracket : ¬ widest.space 91 := by simp [widest, rfc7159]
  rcases split_unique spaces nothing text bracket same.symm with ⟨rfl, -, -⟩
  have stops : Stops [] := by simp [Stops]
  rcases derived.widened.unique _ _ [] [] other trivial (fun _ => stops) (fun _ => stops) (congrArg (· ++ []) same.symm)
    with ⟨whole, -⟩
  cases whole
  exact derived.allows .comma (by simp [Phrase.lexemes, Json.lexemes])

end MnCommon.Jparse
