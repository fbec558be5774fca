import MnCommon.Jparse.Chunks

/-! The pull parser comes to an end. -/

namespace MnCommon.Jparse

open Bytes (Strz)
open Grammars (IsLetter)

variable {S : Type} {ctx ctx₁ ctx' : JparseCtx} {res res' : JparseRes}

/-- An operation that has not gone back, and that has had enough fuel. -/
structure Onward (ctx : JparseCtx) (res : JparseRes) (ctx' : JparseCtx) : Prop where
  later : Later ctx ctx'
  forth : ctx'.ahead ≤ ctx.ahead
  fuelled : res ≠ .outOfFuel

theorem Onward.trans (first : Onward ctx res ctx₁) (second : Onward ctx₁ res' ctx') : Onward ctx res' ctx' :=
  ⟨first.later.trans second.later, Nat.le_trans second.forth first.forth, second.fuelled⟩

theorem Onward.other (onward : Onward ctx res ctx') (other : res' ≠ .outOfFuel) : Onward ctx res' ctx' :=
  ⟨onward.later, onward.forth, other⟩

theorem Onward.of_begun (onward : Onward ctx.begun res ctx') : Onward ctx res ctx' :=
  ⟨onward.later.of_begun, onward.forth, onward.fuelled⟩

/-- Going back to where the operation has begun. -/
theorem Later.returned (later : Later ctx ctx') (inside : ctx.Inside) (other : res ≠ .outOfFuel) :
    Onward ctx res (ctx'.back ctx.pos) := by
  have back := later.back inside.place
  refine ⟨back, ?_, other⟩
  rw [JparseCtx.ahead, JparseCtx.ahead, back.text]
  exact Nat.le_refl _

theorem Later.onward (later : Later ctx ctx') (forth : ctx.pos ≤ ctx'.pos) (other : res ≠ .outOfFuel) :
    Onward ctx res ctx' := by
  refine ⟨later, ?_, other⟩
  rw [JparseCtx.ahead, JparseCtx.ahead, later.text]
  omega

theorem scan_forth (step : S → UInt8 → Option S) (fuel : Nat) (st : S) (inside : ctx.Inside) :
    ctx.pos ≤ (scan step fuel st ctx).2.2.pos := by
  induction fuel generalizing st ctx with
  | zero => exact Nat.le_refl _
  | succ fuel ih =>
      rcases fetch_flat inside with ⟨-, later, pos, within⟩
      rw [scan]
      rcases fetched : ctx.fetch with ⟨ch, next⟩
      rw [fetched] at later pos within
      change next.pos = ctx.pos at pos
      cases ch with
      | none => exact Nat.le_of_eq pos.symm
      | some ch =>
          have here : next.pos < next.data.length := by
            rw [pos]
            exact within (by simp)
          dsimp only
          cases step st ch with
          | none => exact Nat.le_of_eq pos.symm
          | some st' =>
              have inside' : JparseCtx.Inside { next with pos := next.pos + 1 } := ⟨.inr here, later.inside.chunks⟩
              calc
                ctx.pos = next.pos := pos.symm
                _ ≤ next.pos + 1 := Nat.le_succ _
                _ ≤ _ := ih st' inside'

theorem scanAll_onward (step : S → UInt8 → Option S) (st : S) (inside : ctx.Inside) (other : res ≠ .outOfFuel) :
    Onward ctx res (scanAll step st ctx).2.2 :=
  (scanAll_flat step st inside).2.1.onward (scan_forth step _ st inside) other

theorem reachNonblank_onward (inside : ctx.Inside) : Onward ctx (reachNonblank ctx).1 (reachNonblank ctx).2 := by
  have onward := @scanAll_onward _ ctx .ok (passing jsnIsSpace) () inside (by simp)
  rw [reachNonblank]
  rcases scanned : scanAll (passing jsnIsSpace) () ctx with ⟨ch, st, next⟩
  rw [scanned] at onward
  cases ch with
  | none => exact onward.other (by simp)
  | some ch => exact onward

/-- A delimiter that is reached is passed. -/
theorem reachBody_onward (delim : UInt8) (inside : ctx.Inside) :
    Onward ctx (reachBody delim ctx).1 (reachBody delim ctx).2 ∧
      ((reachBody delim ctx).1 = .ok → (reachBody delim ctx).2.ahead < ctx.ahead) := by
  have onward := @scanAll_onward _ ctx .ok (passing fun ch => ch ≠ delim && jsnIsSpace ch) () inside (by simp)
  have within := (scanAll_flat (passing fun ch => ch ≠ delim && jsnIsSpace ch) () inside).2.2.1
  have forth := onward.forth
  rw [reachBody]
  rcases scanned : scanAll (passing fun ch => ch ≠ delim && jsnIsSpace ch) () ctx with ⟨ch, st, next⟩
  rw [scanned] at onward within forth
  cases ch with
  | none => exact ⟨onward.other (by simp), by simp⟩
  | some ch =>
      dsimp only
      split_ifs
      · have here : next.pos < next.data.length := within (by simp)
        have less : JparseCtx.ahead { next with pos := next.pos + 1 } < next.ahead := by
          change next.text.length - (next.pos + 1) < next.text.length - next.pos
          rw [JparseCtx.text, List.length_append]
          omega
        have later : Later next { next with pos := next.pos + 1 } :=
          ⟨⟨.inr here, onward.later.inside.chunks⟩, rfl, Nat.le_refl _, id⟩
        have less := Nat.lt_of_lt_of_le less forth
        exact ⟨⟨onward.later.trans later, Nat.le_of_lt less, by simp⟩, fun _ => less⟩
      · exact ⟨onward.later.returned inside (by simp), by simp⟩

theorem probeBody_onward (delim : UInt8) (inside : ctx.Inside) :
    Onward ctx (probeBody delim ctx).1 (probeBody delim ctx).2 := by
  have onward := @scanAll_onward _ ctx .ok (passing fun ch => ch ≠ delim && jsnIsSpace ch) () inside (by simp)
  rw [probeBody]
  rcases scanned : scanAll (passing fun ch => ch ≠ delim && jsnIsSpace ch) () ctx with ⟨ch, st, next⟩
  rw [scanned] at onward
  cases ch with
  | none => exact onward.other (by simp)
  | some ch =>
      dsimp only
      split_ifs
      · exact onward
      · exact onward.later.returned inside (by simp)

theorem jparseExpectTok_onward (inside : ctx.Inside) : Onward ctx (jparseExpectTok ctx).1 (jparseExpectTok ctx).2.1 := by
  have onward := (reachNonblank_onward inside.begun).of_begun
  rw [jparseExpectTok]
  rcases reached : reachNonblank ctx.begun with ⟨res, next⟩
  rw [reached] at onward
  cases res with
  | ok =>
      have ended : (if (scanAll (passing fun ch => IsLetter ch) () next).1 = none then JparseRes.expectTok 1 else .ok) ≠
          .outOfFuel := by
        split_ifs <;> simp
      exact onward.trans (scanAll_onward _ () onward.later.inside ended)
  | _ => exact onward.other (by simp)

theorem expectMaybeNull_onward (inside : ctx.Inside) : Onward ctx (expectMaybeNull ctx).1 (expectMaybeNull ctx).2 := by
  have onward := (jparseExpectTok_onward inside.begun).of_begun
  rw [expectMaybeNull]
  rcases read : jparseExpectTok ctx.begun with ⟨res, next, v⟩
  rw [read] at onward
  cases res with
  | ok =>
      dsimp only
      split_ifs
      · exact onward
      · exact onward.later.returned inside (by simp)
  | _ => exact onward.later.returned inside (by simp)

theorem jparseExpectBool_onward (inside : ctx.Inside) :
    Onward ctx (jparseExpectBool ctx).1 (jparseExpectBool ctx).2.1 := by
  have onward := (jparseExpectTok_onward inside.begun).of_begun
  rw [jparseExpectBool]
  rcases read : jparseExpectTok ctx.begun with ⟨res, next, v⟩
  rw [read] at onward
  cases res with
  | ok =>
      dsimp only
      split_ifs
      · exact onward
      · exact onward
      · exact onward.later.returned inside (by simp)
  | _ => exact onward.later.returned inside (by simp)

theorem jparseExpectFloat_onward (inside : ctx.Inside) :
    Onward ctx (jparseExpectFloat ctx).1 (jparseExpectFloat ctx).2.1 := by
  have onward := (reachNonblank_onward inside.begun).of_begun
  rw [jparseExpectFloat]
  rcases reached : reachNonblank ctx.begun with ⟨res, next⟩
  rw [reached] at onward
  cases res with
  | ok =>
      have ended : (if (scanAll floatStep .floatIn next).1 = none then JparseRes.expectFloat 1 else .ok) ≠
          .outOfFuel := by
        split_ifs <;> simp
      exact onward.trans (scanAll_onward _ _ onward.later.inside ended)
  | _ => exact onward.other (by simp)

theorem jparseExpectStr_onward (inside : ctx.Inside) : Onward ctx (jparseExpectStr ctx).1 (jparseExpectStr ctx).2.1 := by
  have later := (jparseExpectStr_reads ctx inside).later
  have onward := (reachBody_onward 34 inside.begun).1.of_begun
  rw [jparseExpectStr, reachDquote] at later ⊢
  rcases reached : reachBody 34 ctx.begun with ⟨res, next⟩
  rw [reached] at onward later
  cases res with
  | ok =>
      have forth := scan_forth strStep (next.ahead + 1) (.str, false) onward.later.inside
      rw [← scanAll] at forth
      dsimp only at later ⊢
      rcases scanned : scanAll strStep (.str, false) next with ⟨ch, ⟨st, flag⟩, last⟩
      rw [scanned] at forth later
      have text : last.text = ctx.text := later.text
      have less : JparseCtx.ahead { last with pos := last.pos + 1 } ≤ next.ahead := by
        change last.text.length - (last.pos + 1) ≤ next.text.length - next.pos
        change next.pos ≤ last.pos at forth
        rw [text, onward.later.text]
        omega
      refine ⟨later, Nat.le_trans less onward.forth, ?_⟩
      split_ifs <;> simp
  | _ => exact onward.later.returned inside (by simp)

variable {value cb : Expect S} {bound : Nat} {s : S}

/-- An operation ends on what is shorter. -/
def Ends (bound : Nat) (f : Expect S) : Prop :=
  ∀ (ctx : JparseCtx) (s : S), ctx.Inside → ctx.ahead < bound → Onward ctx (f ctx s).1 (f ctx s).2.1

/-- It has taken something if it succeeds. -/
def Takes (bound : Nat) (f : Expect S) : Prop :=
  ∀ (ctx : JparseCtx) (s : S), ctx.Inside → ctx.ahead < bound → (f ctx s).1 = .ok → (f ctx s).2.1.ahead < ctx.ahead

theorem nextComma_res (ctx : JparseCtx) : (nextComma ctx).1 = .ok ∨ (nextComma ctx).1 = .eos := by
  rw [nextComma]
  rcases reachComma ctx with ⟨res, next⟩
  cases res with
  | ok => exact .inl rfl
  | _ => exact .inr rfl

theorem nextComma_onward (inside : ctx.Inside) :
    Onward ctx (nextComma ctx).1 (nextComma ctx).2 ∧
      ((nextComma ctx).1 = .ok → (nextComma ctx).2.ahead < ctx.ahead) := by
  rcases reachBody_onward 44 inside with ⟨onward, less⟩
  rw [nextComma, reachComma]
  rcases reached : reachBody 44 ctx with ⟨res, next⟩
  rw [reached] at onward less
  cases res with
  | ok => exact ⟨onward, less⟩
  | _ => exact ⟨onward.other (by simp), by simp⟩

/-- The comma is what is taken at least. -/
theorem commaBehind_onward {parsed : JparseRes × JparseCtx × S} (onward : Onward ctx parsed.1 parsed.2.1) :
    Onward ctx (commaBehind parsed).1 (commaBehind parsed).2.1 ∧
      ((commaBehind parsed).1 = .ok → (commaBehind parsed).2.1.ahead < ctx.ahead) := by
  rcases nextComma_onward onward.later.inside with ⟨more, less⟩
  rw [commaBehind]
  split_ifs with fine
  · rw [fine] at onward
    exact ⟨onward.trans more, fun done => Nat.lt_of_lt_of_le (less done) onward.forth⟩
  · exact ⟨onward, fun done => absurd done fine⟩

theorem expectValue_onward (inside : ctx.Inside)
    (ends : ∀ next, Onward ctx .ok next → Onward ctx (value next s).1 (value next s).2.1) :
    Onward ctx (expectValue value ctx s).1 (expectValue value ctx s).2.1 ∧
      ((expectValue value ctx s).1 = .ok → (expectValue value ctx s).2.1.ahead < ctx.ahead) := by
  have onward := expectMaybeNull_onward inside
  rw [expectValue_eq]
  apply commaBehind_onward
  split_ifs with null
  · rwa [null] at onward
  · exact ends _ (onward.other (by simp))

theorem expectAnykvp_onward {code : Nat → JparseRes} {setKey : Strz → S → S} (codes : ∀ n, code n ≠ .outOfFuel)
    (codes' : ∀ n, code n ≠ .ok) (ends : Ends bound value) :
    Ends bound (expectAnykvp code setKey value) ∧ Takes bound (expectAnykvp code setKey value) := by
  have both : ∀ (ctx : JparseCtx) (s : S), ctx.Inside → ctx.ahead < bound →
      Onward ctx (expectAnykvp code setKey value ctx s).1 (expectAnykvp code setKey value ctx s).2.1 ∧
        ((expectAnykvp code setKey value ctx s).1 = .ok →
          (expectAnykvp code setKey value ctx s).2.1.ahead < ctx.ahead) := by
    intro ctx s inside short
    have onward := (jparseExpectStr_onward inside.begun).of_begun
    rw [expectAnykvp]
    rcases read : jparseExpectStr ctx.begun with ⟨res, next, key⟩
    rw [read] at onward
    cases res with
    | ok =>
        have onward' := onward.trans (reachBody_onward 58 onward.later.inside).1
        dsimp only
        rw [reachColon]
        rcases colon : reachBody 58 next with ⟨res', next'⟩
        rw [colon] at onward'
        cases res' with
        | ok =>
            have short' := Nat.lt_of_le_of_lt onward'.forth short
            have parsed := @expectValue_onward S next' value (key.elim s fun key => setKey key s) onward'.later.inside
              fun last more => more.trans (ends last _ more.later.inside (Nat.lt_of_le_of_lt more.forth short'))
            exact ⟨onward'.trans parsed.1, fun done => Nat.lt_of_lt_of_le (parsed.2 done) onward'.forth⟩
        | _ => exact ⟨onward'.other (codes 2), fun wrong => absurd wrong (codes' 2)⟩
    | _ => exact ⟨onward.other (codes 1), fun wrong => absurd wrong (codes' 1)⟩
  exact ⟨fun ctx s inside short => (both ctx s inside short).1, fun ctx s inside short => (both ctx s inside short).2⟩

theorem goingBack_onward (inside : ctx.Inside) (onward : Onward ctx (value ctx₁ s).1 (value ctx₁ s).2.1) :
    Onward ctx (goingBack ctx.pos value ctx₁ s).1 (goingBack ctx.pos value ctx₁ s).2.1 := by
  rw [goingBack]
  rcases run : value ctx₁ s with ⟨res, next, t⟩
  rw [run] at onward
  cases res with
  | ok => exact onward
  | outOfFuel => exact absurd rfl onward.fuelled
  | _ => exact onward.later.returned inside (by simp)

theorem iterate_not_ok (cb : Expect S) (fuel : Nat) (ctx : JparseCtx) (s : S) : (iterate cb fuel ctx s).1 ≠ .ok := by
  induction fuel generalizing ctx s with
  | zero => simp [iterate]
  | succ fuel ih =>
      rw [iterate]
      rcases cb ctx s with ⟨res, next, t⟩
      cases res with
      | ok => exact ih next t
      | _ => simp

theorem iterate_onward (ends : Ends bound cb) (takes : Takes bound cb) (fuel : Nat) (inside : ctx.Inside)
    (short : ctx.ahead < bound) (enough : ctx.ahead < fuel) :
    Onward ctx (iterate cb fuel ctx s).1 (iterate cb fuel ctx s).2.1 := by
  induction fuel generalizing ctx s with
  | zero => exact absurd enough (Nat.not_lt_zero _)
  | succ fuel ih =>
      have onward := ends ctx s inside short
      have less := takes ctx s inside short
      rw [iterate]
      rcases run : cb ctx s with ⟨res, next, t⟩
      rw [run] at onward less
      cases res with
      | ok =>
          have fewer : next.ahead < ctx.ahead := less rfl
          have more := @ih next t onward.later.inside (by omega) (by omega)
          exact onward.trans more
      | _ => exact onward

theorem expectIter_onward {code : Nat → JparseRes} (codes : ∀ n, code n ≠ .outOfFuel) (start stop : UInt8)
    (ends : Ends bound cb) (takes : Takes bound cb) :
    Ends (bound + 1) (expectIter (reachBody start) (reachBody stop) code cb) := by
  intro ctx s inside short
  rcases reachBody_onward start inside.begun with ⟨onward, less⟩
  have onward := onward.of_begun
  rw [expectIter_eq]
  rcases reached : reachBody start ctx.begun with ⟨res, next⟩
  rw [reached] at onward less
  dsimp only at onward less ⊢
  split_ifs with opened
  · subst opened
    have fewer : next.ahead < ctx.ahead := less rfl
    have inner := @iterate_onward S next cb bound s ends takes (next.ahead + 2) onward.later.inside (by omega) (by omega)
    rcases run : iterate cb (next.ahead + 2) next s with ⟨res', last, t⟩
    rw [run] at inner
    have stopped := inner.trans (reachBody_onward stop inner.later.inside).1
    rw [loopEnd, if_neg inner.fuelled]
    split_ifs with ended closed
    · rw [closed] at stopped
      exact onward.trans stopped
    · exact onward.trans (stopped.later.returned onward.later.inside (codes 2))
    · exact onward.trans (inner.later.returned onward.later.inside inner.fuelled)
  · exact onward.later.returned inside (codes 1)

variable {ignore : Expect JparseValue} {jval : JparseValue}

theorem jparseExpectItemIgnore_onward (ends : Ends bound ignore) :
    Ends bound (jparseExpectItemIgnore ignore) ∧ Takes bound (jparseExpectItemIgnore ignore) := by
  have both : ∀ (ctx : JparseCtx) (jval : JparseValue), ctx.Inside → ctx.ahead < bound →
      Onward ctx.begun (jparseExpectItemIgnore ignore ctx jval).1 (jparseExpectItemIgnore ignore ctx jval).2.1 ∧
        ((jparseExpectItemIgnore ignore ctx jval).1 = .ok →
          (jparseExpectItemIgnore ignore ctx jval).2.1.ahead < ctx.ahead) := by
    intro ctx jval inside short
    apply @expectValue_onward _ ctx.begun (goingBack ctx.pos ignore) jval inside.begun
    intro next more
    apply @goingBack_onward _ ctx.begun next ignore jval inside.begun
    exact more.trans (ends next jval more.later.inside (Nat.lt_of_le_of_lt more.forth short))
  exact ⟨fun ctx jval inside short => (both ctx jval inside short).1.of_begun,
    fun ctx jval inside short => (both ctx jval inside short).2⟩

theorem ignoreStr_onward (inside : ctx.Inside) : Onward ctx (ignoreStr ctx jval).1 (ignoreStr ctx jval).2.1 :=
  jparseExpectStr_onward inside

theorem ignoreFloat_onward (inside : ctx.Inside) : Onward ctx (ignoreFloat ctx jval).1 (ignoreFloat ctx jval).2.1 :=
  jparseExpectFloat_onward inside

theorem ignoreObject_onward (ends : Ends bound ignore) : Ends (bound + 1) (ignoreObject ignore) := by
  have members : Ends bound (jparseExpectAnykvpIgnore ignore) ∧ Takes bound (jparseExpectAnykvpIgnore ignore) :=
    expectAnykvp_onward (fun _ => nofun) (fun _ => nofun) ends
  have codes : ∀ n, JparseRes.expectObjectIter n ≠ .outOfFuel := fun _ => nofun
  have object : Ends (bound + 1) (jparseExpectObjectIter (jparseExpectAnykvpIgnore ignore)) :=
    expectIter_onward codes 123 125 members.1 members.2
  intro ctx jval inside short
  rw [ignoreObject_res, ignoreObject_ctx]
  exact object ctx _ inside short

theorem ignoreArray_onward (ends : Ends bound ignore) : Ends (bound + 1) (ignoreArray ignore) := by
  have items := jparseExpectItemIgnore_onward ends
  have codes : ∀ n, JparseRes.expectArrayIter n ≠ .outOfFuel := fun _ => nofun
  intro ctx jval inside short
  exact expectIter_onward codes 91 93 items.1 items.2 ctx { jval with ty := .array } inside short

theorem whether_onward {yes no : Expect JparseValue} (delim : UInt8) (first : Ends bound yes) (second : Ends bound no) :
    Ends bound (whether (probeBody delim) yes no) := by
  intro ctx jval inside short
  have onward := probeBody_onward delim inside
  rw [whether]
  rcases probed : probeBody delim ctx with ⟨res, next⟩
  rw [probed] at onward
  have short' := Nat.lt_of_le_of_lt onward.forth short
  cases res with
  | ok => exact onward.trans (first next jval onward.later.inside short')
  | _ => exact onward.trans (second next jval onward.later.inside short')

theorem ignoreOther_onward (ends : Ends bound ignore) : Ends (bound + 1) (ignoreOther ignore) :=
  whether_onward 34 (fun _ _ inside _ => ignoreStr_onward inside)
    (whether_onward 123 (ignoreObject_onward ends)
      (whether_onward 91 (ignoreArray_onward ends) fun _ _ inside _ => ignoreFloat_onward inside))

theorem ignoreEnd_onward {parsed : JparseRes × JparseCtx × JparseValue} (inside : ctx.Inside)
    (onward : Onward ctx parsed.1 parsed.2.1) :
    Onward ctx (ignoreEnd ctx.pos parsed).1 (ignoreEnd ctx.pos parsed).2.1 := by
  rcases parsed with ⟨res, next, jval⟩
  cases res with
  | ok => exact onward
  | outOfFuel => exact absurd rfl onward.fuelled
  | _ => exact onward.later.returned inside nofun

theorem ignoreWithin_onward (depth : Nat) : Ends depth (ignoreWithin depth) := by
  induction depth with
  | zero => exact fun ctx _ _ short => absurd short (Nat.not_lt_zero _)
  | succ depth ih =>
      intro ctx jval inside short
      have onward := (reachNonblank_onward inside.begun).of_begun
      rw [ignoreWithin_succ]
      dsimp only
      generalize reachNonblank ctx.begun = start at onward ⊢
      have onward₁ := expectMaybeNull_onward onward.later.inside
      generalize expectMaybeNull start.2 = null at onward₁ ⊢
      have onward₂ := onward₁.trans (jparseExpectBool_onward onward₁.later.inside)
      generalize jparseExpectBool null.2 = bool at onward₂ ⊢
      split_ifs with reached found read
      · rw [found] at onward₁
        exact onward.trans onward₁
      · rw [read] at onward₂
        exact onward.trans onward₂
      · have short' : bool.2.1.ahead < depth + 1 :=
          Nat.lt_of_le_of_lt (Nat.le_trans onward₂.forth onward.forth) short
        have parsed := onward₂.trans (ignoreOther_onward ih bool.2.1 jval onward₂.later.inside short')
        exact onward.trans (ignoreEnd_onward onward.later.inside parsed)
      · exact onward.other nofun

theorem jparseExpectIgnore_onward (inside : ctx.Inside) :
    Onward ctx (jparseExpectIgnore ctx jval).1 (jparseExpectIgnore ctx jval).2.1 :=
  ignoreWithin_onward _ ctx jval inside (Nat.lt_succ_self _)

theorem jparseStart_inside {feed : List (List UInt8)} (chunks : ∀ chunk ∈ feed, chunk ≠ []) :
    (jparseStart feed).Inside :=
  ⟨.inr (Nat.le_refl _), chunks⟩

/-- At the same place of the same text the parser finds the same. -/
theorem jparseExpectIgnore_chunks (ctx ctx' : JparseCtx) (inside : ctx.Inside) (inside' : ctx'.Inside)
    (text : ctx'.text = ctx.text) (pos : ctx'.pos = ctx.pos) (jval : JparseValue) :
    (jparseExpectIgnore ctx jval).1 ≠ .outOfFuel ∧
      (jparseExpectIgnore ctx' jval).1 = (jparseExpectIgnore ctx jval).1 ∧
      (jparseExpectIgnore ctx' jval).2.1.pos = (jparseExpectIgnore ctx jval).2.1.pos ∧
      (jparseExpectIgnore ctx' jval).2.2.ty = (jparseExpectIgnore ctx jval).2.2.ty ∧
      (jparseExpectIgnore ctx jval).2.2.Same (jparseExpectIgnore ctx' jval).2.2 := by
  have first := jparseExpectIgnore_agrees ctx.begun jval jval inside.begun ⟨rfl, .refl _, rfl⟩
  have second := jparseExpectIgnore_agrees ctx'.begun jval jval inside'.begun ⟨rfl, .refl _, rfl⟩
  have same : ctx'.begun.flat = ctx.begun.flat := by
    simp only [JparseCtx.flat, JparseCtx.begun, JparseCtx.text] at text ⊢
    rw [text, pos]
  rw [same] at second
  change Twin JparseValue.Same ctx.begun (jparseExpectIgnore ctx jval) (jparseExpectIgnore ctx.begun.flat jval) at first
  change Twin JparseValue.Same ctx'.begun (jparseExpectIgnore ctx' jval) (jparseExpectIgnore ctx.begun.flat jval) at second
  have place : (jparseExpectIgnore ctx' jval).2.1.flat = (jparseExpectIgnore ctx jval).2.1.flat :=
    second.place.symm.trans first.place
  have there := congrArg JparseCtx.pos place
  have written := first.written.trans second.written.symm
  exact ⟨(jparseExpectIgnore_onward inside).fuelled, second.res.symm.trans first.res, there, written.ty.symm, written⟩

/-- The text `["a"] ` in two chunks and in three. -/
theorem jparseExpectIgnore_chunks_sample :
    (jparseExpectIgnore (jparseStart [[91], [34, 97, 34, 93], [32]]) jparseValueInit).2.1.pos =
      (jparseExpectIgnore (jparseStart [[91, 34], [97, 34, 93, 32]]) jparseValueInit).2.1.pos :=
  (jparseExpectIgnore_chunks (jparseStart [[91, 34], [97, 34, 93, 32]]) (jparseStart [[91], [34, 97, 34, 93], [32]])
    (jparseStart_inside (by simp)) (jparseStart_inside (by simp)) rfl rfl jparseValueInit).2.2.1

end MnCommon.Jparse
