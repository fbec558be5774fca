import MnCommon.Jparse.Outcomes
import MnCommon.Memory.Run

/-! Where the operations leave the position with respect to the data. -/

namespace MnCommon.Jparse

open Bytes (Strz)
open Grammars (rfc7159)

variable {S A B : Type} {ctx ctx' ctx₁ next : JparseCtx} {fuel : Nat} {s : S} {cb value other f : Expect S} {g : Expect A}
  {delim start stop : UInt8} {code : Nat → JparseRes} {jval : Place S JparseValue} {read : JparseCtx → JparseRes × JparseCtx × Option B}

/-- Bytes come in, and none go. -/
def Moves (f : Expect S) : Prop := ∀ ctx s, ctx.Inside → Later ctx (f ctx s).2.1

/-- It stays within the data if it succeeds. -/
structure Careful (f : Expect S) : Prop where
  moves : Moves f
  within : ∀ ctx s, ctx.Inside → ctx.Within → (f ctx s).1 = .ok → (f ctx s).2.1.Within

/-- It leaves the data exactly where `overruns` says. -/
structure Leaves (f : Expect S) (overruns : JparseCtx → Prop) : Prop where
  moves : Moves f
  within : ∀ ctx s, ctx.Inside → ctx.Within → (f ctx s).1 ≠ .outOfFuel → ((f ctx s).2.1.Within ↔ ¬ overruns ctx)

/-- It does not leave the data. -/
def Bounded (f : Expect S) : Prop := Leaves f fun _ => False

theorem Bounded.of (moves : Moves f)
    (within : ∀ ctx s, ctx.Inside → ctx.Within → (f ctx s).1 ≠ .outOfFuel → (f ctx s).2.1.Within) : Bounded f :=
  ⟨moves, fun ctx s inside here fuelled => ⟨fun _ => not_false, fun _ => within ctx s inside here fuelled⟩⟩

theorem Bounded.stays (bounded : Bounded f) (inside : ctx.Inside) (here : ctx.Within)
    (fuelled : (f ctx s).1 ≠ .outOfFuel) : (f ctx s).2.1.Within :=
  (bounded.within ctx s inside here fuelled).mpr not_false

theorem Bounded.careful (bounded : Bounded f) : Careful f := by
  refine ⟨bounded.moves, fun ctx s inside here done => ?_⟩
  apply bounded.stays inside here
  rw [done]
  exact nofun

/-- What has stayed in each case. -/
theorem Bounded.of_stays (stays : ∀ ctx s, ctx.Inside → Stays ctx (f ctx s).2.1) : Bounded f :=
  .of (fun ctx s inside => (stays ctx s inside).later) fun ctx s inside here _ => (stays ctx s inside).within here

theorem Callback.moves (cb : Callback S) : Moves cb.run := cb.later

theorem storing_bounded (val : Place S A) (made : B → A) (stays : ∀ ctx, ctx.Inside → Stays ctx (read ctx).2.1) :
    Bounded (storing val made read) :=
  .of_stays fun ctx _ inside => stays ctx inside

theorem onValue_moves (place : Place S A) (moves : Moves g) : Moves (onValue place g) :=
  fun ctx s inside => moves ctx (place.get s) inside

theorem onValue_careful (place : Place S A) (careful : Careful g) : Careful (onValue place g) :=
  ⟨onValue_moves place careful.moves, fun ctx s => careful.within ctx (place.get s)⟩

theorem onValue_bounded (place : Place S A) (bounded : Bounded g) : Bounded (onValue place g) :=
  ⟨onValue_moves place bounded.moves, fun ctx s => bounded.within ctx (place.get s)⟩

theorem prepared_moves (change : S → S) (moves : Moves f) : Moves (prepared change f) :=
  fun ctx s inside => moves ctx (change s) inside

theorem prepared_careful (change : S → S) (careful : Careful f) : Careful (prepared change f) :=
  ⟨prepared_moves change careful.moves, fun ctx s => careful.within ctx (change s)⟩

theorem prepared_leaves {overruns : JparseCtx → Prop} (change : S → S) (leaves : Leaves f overruns) :
    Leaves (prepared change f) overruns :=
  ⟨prepared_moves change leaves.moves, fun ctx s => leaves.within ctx (change s)⟩

theorem jparseExpectStr_within (inside : ctx.Inside) (here : ctx.Within) :
    (jparseExpectStr ctx).2.1.Within ↔ ¬ Unterminated ctx.unread := by
  constructor
  · intro within unterminated
    exact (jparseExpectStr_unterminated unterminated inside).2.2 within
  · intro terminated
    exact (jparseExpectStr_terminated terminated inside).2.within here

theorem jparseExpectStr_done (inside : ctx.Inside) (done : (jparseExpectStr ctx).1 = .ok) :
    ctx.pos < (jparseExpectStr ctx).2.1.pos ∧ Stays ctx (jparseExpectStr ctx).2.1 := by
  by_cases unterminated : Unterminated ctx.unread
  · rw [(jparseExpectStr_unterminated unterminated inside).1] at done
    cases done
  · rcases jparseExpectStr_terminated unterminated inside with ⟨⟨-, forth⟩ | ⟨other, -⟩, stays⟩
    · exact ⟨forth, stays⟩
    · rw [other] at done
      cases done

theorem expectStr_leaves (val : Place S (Option Strz)) : Leaves (expectStr val) fun ctx => Unterminated ctx.unread :=
  ⟨fun ctx _ inside => (jparseExpectStr_reads ctx inside).later,
    fun _ _ inside here _ => jparseExpectStr_within inside here⟩

theorem ignoreStr_careful : Careful ignoreStr := by
  refine ⟨fun ctx _ inside => (jparseExpectStr_reads ctx inside).later, fun ctx _ inside here done => ?_⟩
  exact (jparseExpectStr_done inside done).2.within here

theorem ignoreFloat_bounded : Bounded ignoreFloat := .of_stays fun _ _ inside => jparseExpectFloat_stays inside

theorem nextComma_stays (inside : ctx.Inside) : Stays ctx (nextComma ctx).2 := by
  have stays := reachBody_stays 44 inside
  rw [nextComma, reachComma]
  rcases reached : reachBody 44 ctx with ⟨res, next⟩
  rw [reached] at stays
  cases res <;> exact stays

/-- A callback that is called again and again. -/
theorem iterate_moves (moves : Moves cb) (fuel : Nat) : Moves (iterate cb fuel) := by
  intro ctx s inside
  induction fuel generalizing ctx s with
  | zero => exact .refl inside
  | succ fuel ih =>
      have later := moves ctx s inside
      rw [iterate]
      rcases run : cb ctx s with ⟨res, next, t⟩
      rw [run] at later
      cases res with
      | ok => exact later.trans (ih next t later.inside)
      | _ => exact later

/-- Where the block ends the position is within the data, and else it is back. -/
theorem expectBlock_stays (start stop : UInt8) (code : Nat → JparseRes) (moves : Moves cb) (inside : ctx.Inside) :
    Stays ctx (expectBlock (reachBody start) (reachBody stop) code cb ctx s).2.1 := by
  have later := (reachBody_stays start inside.begun).later.of_begun
  rw [expectBlock]
  rcases reached : reachBody start ctx.begun with ⟨res, next⟩
  rw [reached] at later
  cases res with
  | ok =>
      have called := moves next s later.inside
      dsimp only
      rcases run : cb next s with ⟨res', last, t⟩
      rw [run] at called
      have later' := later.trans called
      cases res' with
      | ok =>
          have ended := @reachBody_within last stop later'.inside
          have later'' := later'.trans (reachBody_stays stop later'.inside).later
          dsimp only
          rcases reached' : reachBody stop last with ⟨res'', after⟩
          rw [reached'] at ended later''
          cases res'' with
          | ok => exact ⟨later'', fun _ => ended rfl⟩
          | _ => exact later''.returns inside
      | _ => exact later'.returns inside
  | _ => exact later.returns inside

theorem expectBlock_bounded (start stop : UInt8) (code : Nat → JparseRes) (moves : Moves cb) :
    Bounded (expectBlock (reachBody start) (reachBody stop) code cb) :=
  .of_stays fun _ _ inside => expectBlock_stays start stop code moves inside

theorem expectIterFor_bounded (start stop : UInt8) (code : Nat → JparseRes) (fuel : Nat) (moves : Moves cb) :
    Bounded (expectIterFor fuel (reachBody start) (reachBody stop) code cb) := by
  have both : ∀ (ctx : JparseCtx) (s : S), ctx.Inside →
      Later ctx (expectIterFor fuel (reachBody start) (reachBody stop) code cb ctx s).2.1 ∧
        ((expectIterFor fuel (reachBody start) (reachBody stop) code cb ctx s).1 ≠ .outOfFuel →
          Stays ctx (expectIterFor fuel (reachBody start) (reachBody stop) code cb ctx s).2.1) := by
    intro ctx s inside
    have stays := (reachBody_stays start inside.begun).of_begun
    have called := iterate_moves moves fuel (reachBody start ctx.begun).2 s stays.inside
    have stopped := called.trans (reachBody_stays stop called.inside).later
    have returned := stays.later.returns inside
    have failed := stays.trans (called.returns stays.inside)
    have closed := stays.trans (stopped.returns stays.inside)
    rw [expectIterFor_eq, loopEnd]
    split_ifs with opened fuelled ended there
    · exact ⟨stays.later.trans called, fun wrong => absurd fuelled wrong⟩
    · exact ⟨stays.later.trans stopped, fun _ => ⟨stays.later.trans stopped, fun _ => reachBody_within called.inside there⟩⟩
    · exact ⟨closed.later, fun _ => closed⟩
    · exact ⟨failed.later, fun _ => failed⟩
    · exact ⟨returned.later, fun _ => returned⟩
  exact .of (fun ctx s inside => (both ctx s inside).1)
    fun ctx s inside here fuelled => ((both ctx s inside).2 fuelled).within here

theorem whether_careful {yes no : Expect S} (delim : UInt8) (first : Careful yes) (second : Careful no) :
    Careful (whether (probeBody delim) yes no) := by
  have both : ∀ (ctx : JparseCtx) (s : S), ctx.Inside →
      Later ctx (whether (probeBody delim) yes no ctx s).2.1 ∧
        (ctx.Within → (whether (probeBody delim) yes no ctx s).1 = .ok →
          (whether (probeBody delim) yes no ctx s).2.1.Within) := by
    intro ctx s inside
    have stays := probeBody_stays delim inside
    rw [whether]
    rcases probed : probeBody delim ctx with ⟨res, next⟩
    rw [probed] at stays
    cases res with
    | ok =>
        exact ⟨stays.later.trans (first.moves next s stays.inside),
          fun here done => first.within next s stays.inside (stays.within here) done⟩
    | _ =>
        exact ⟨stays.later.trans (second.moves next s stays.inside),
          fun here done => second.within next s stays.inside (stays.within here) done⟩
  exact ⟨fun ctx s inside => (both ctx s inside).1, fun ctx s inside => (both ctx s inside).2⟩

theorem valueStart_stays (inside : ctx.Inside) : Stays ctx (valueStart ctx) := (reachNonblank_stays inside.begun).of_begun

theorem nullRead_stays (inside : ctx.Inside) : Stays (valueStart ctx) (nullRead ctx) :=
  expectMaybeNull_stays (valueStart_stays inside).inside

theorem literalsRead_stays (inside : ctx.Inside) : Stays (valueStart ctx) (literalsRead ctx) :=
  (nullRead_stays inside).trans (jparseExpectBool_stays (nullRead_stays inside).inside)

theorem valueEnd_stays {parsed : JparseRes × JparseCtx × S} {code : JparseRes} (inside : ctx.Inside)
    (later : Later ctx parsed.2.1) (within : parsed.1 = .ok → ctx.Within → parsed.2.1.Within) :
    Later ctx (valueEnd code ctx.pos parsed).2.1 ∧
      ((valueEnd code ctx.pos parsed).1 ≠ .outOfFuel → Stays ctx (valueEnd code ctx.pos parsed).2.1) := by
  rcases parsed with ⟨res, next, t⟩
  have returned : Stays ctx (next.back ctx.pos) := later.returns inside
  cases res with
  | ok => exact ⟨later, fun _ => ⟨later, within rfl⟩⟩
  | outOfFuel => exact ⟨later, fun wrong => absurd rfl wrong⟩
  | _ => exact ⟨returned.later, fun _ => returned⟩

/-- Behind the spaces the value is read, or the position is back there. -/
theorem expectLiteralOr_bounded (code code' : JparseRes) (jval : Place S JparseValue) (careful : Careful other) :
    Bounded (expectLiteralOr code code' jval other) := by
  have both : ∀ (ctx : JparseCtx) (s : S), ctx.Inside →
      Later ctx (expectLiteralOr code code' jval other ctx s).2.1 ∧
        ((expectLiteralOr code code' jval other ctx s).1 ≠ .outOfFuel →
          Stays ctx (expectLiteralOr code code' jval other ctx s).2.1) := by
    intro ctx s inside
    have start := valueStart_stays inside
    have null := start.trans (nullRead_stays inside)
    have literals := literalsRead_stays inside
    have read := start.trans literals
    have later := literals.later.trans (careful.moves _ s literals.inside)
    rcases @valueEnd_stays S _ _ code' start.inside later
      fun done here => careful.within _ s literals.inside (literals.within here) done with ⟨ended, stays⟩
    rw [expectLiteralOr_eq]
    split_ifs
    · dsimp only
      exact ⟨null.later, fun _ => null⟩
    · dsimp only
      exact ⟨read.later, fun _ => read⟩
    · exact ⟨start.later.trans ended, fun fuelled => start.trans (stays fuelled)⟩
    · dsimp only
      exact ⟨start.later, fun _ => start⟩
  exact .of (fun ctx s inside => (both ctx s inside).1)
    fun ctx s inside here fuelled => ((both ctx s inside).2 fuelled).within here

/-- A value goes to where it has begun if it fails, and there the comma is looked for. -/
theorem expectItem_bounded (careful : Careful value) : Bounded (expectItem value) := by
  have both : ∀ (ctx : JparseCtx) (s : S), ctx.Inside → Stays ctx (expectItem value ctx s).2.1 := by
    intro ctx s inside
    have null := (expectMaybeNull_stays inside.begun).of_begun
    have later := null.later.trans (careful.moves _ s null.inside)
    have within := careful.within _ s null.inside
    rw [expectItem, expectValue_eq, commaBehind]
    by_cases skipped : (expectMaybeNull ctx.begun).1 = .ok
    · rw [if_pos skipped, if_pos rfl]
      exact null.trans (nextComma_stays null.inside)
    · rw [if_neg skipped, goingBack]
      rcases run : value (expectMaybeNull ctx.begun).2 s with ⟨res, next, t⟩
      rw [run] at later within
      cases res with
      | ok =>
          have stays : Stays ctx next := ⟨later, fun here => within (null.within here) rfl⟩
          exact stays.trans (nextComma_stays stays.inside)
      | _ => exact later.returns inside
  exact .of_stays both

/-- Nothing is read behind a null. -/
theorem expectValue_leaves {overruns : JparseCtx → Prop} (careful : Careful value) (leaves : Leaves value overruns) :
    Leaves (expectValue value) fun ctx => (expectMaybeNull ctx).1 ≠ .ok ∧ overruns (expectMaybeNull ctx).2 := by
  have both : ∀ (ctx : JparseCtx) (s : S), ctx.Inside →
      Later ctx (expectValue value ctx s).2.1 ∧
        (ctx.Within → (expectValue value ctx s).1 ≠ .outOfFuel →
          ((expectValue value ctx s).2.1.Within ↔
            ¬ ((expectMaybeNull ctx).1 ≠ .ok ∧ overruns (expectMaybeNull ctx).2))) := by
    intro ctx s inside
    have stays := expectMaybeNull_stays inside
    rw [expectValue_eq]
    rcases read : expectMaybeNull ctx with ⟨res, next⟩
    rw [read] at stays
    dsimp only at stays ⊢
    by_cases null : res = .ok
    · have ended := nextComma_stays stays.inside
      subst null
      rw [if_pos rfl, commaBehind, if_pos rfl]
      dsimp only
      refine ⟨stays.later.trans ended.later, fun here _ => ?_⟩
      exact ⟨fun _ wrong => wrong.1 rfl, fun _ => ended.within (stays.within here)⟩
    · rw [if_neg null]
      have moves := careful.moves next s stays.inside
      have within := careful.within next s stays.inside
      have exactly := leaves.within next s stays.inside
      rw [commaBehind]
      split_ifs with done
      · have ended := nextComma_stays moves.inside
        refine ⟨stays.later.trans (moves.trans ended.later), fun here _ => ?_⟩
        have still := within (stays.within here) done
        have fuelled : (value next s).1 ≠ .outOfFuel := by
          rw [done]
          simp
        have straight := (exactly (stays.within here) fuelled).mp still
        exact ⟨fun _ wrong => straight wrong.2, fun _ => ended.within still⟩
      · refine ⟨stays.later.trans moves, fun here fuelled => (exactly (stays.within here) fuelled).trans ?_⟩
        exact not_congr ⟨fun strayed => ⟨null, strayed⟩, fun strayed => strayed.2⟩
  exact ⟨fun ctx s inside => (both ctx s inside).1, fun ctx s inside => (both ctx s inside).2⟩

theorem keyRead_later (inside : ctx.Inside) : Later ctx (keyRead ctx) :=
  (jparseExpectStr_reads ctx.begun inside.begun).later.of_begun

theorem keyRead_done (inside : ctx.Inside) (done : (jparseExpectStr ctx.begun).1 = .ok) :
    ctx.pos < (keyRead ctx).pos ∧ Stays ctx (keyRead ctx) := by
  rcases jparseExpectStr_done inside.begun done with ⟨forth, stays⟩
  exact ⟨forth, stays.of_begun⟩

theorem not_unterminated (inside : ctx.Inside) (done : (jparseExpectStr ctx.begun).1 = .ok) :
    ¬ Unterminated ctx.unread := by
  intro unterminated
  have ended := @jparseExpectStr_unterminated ctx.begun unterminated inside.begun
  rw [ended.1] at done
  cases done

theorem colonRead_stays (inside : ctx.Inside) : Stays (keyRead ctx) (colonRead ctx) :=
  reachBody_stays 58 (keyRead_later inside).inside

variable {wanted : Option Strz} {setKey : Strz → S → S} {found : S → S} {overruns : JparseCtx → Prop}

/-- The key or the value is a string without an end. -/
def PairOverruns (wanted : Option Strz) (overruns : JparseCtx → Prop) (ctx : JparseCtx) : Prop :=
  Unterminated ctx.unread ∨ ReachesValue wanted ctx ∧ overruns (pairValue ctx)

theorem expectPair_leaves (wanted : Option Strz) (code : Nat → JparseRes) (setKey : Strz → S → S) (found : S → S)
    (careful : Careful value) (leaves : Leaves value overruns) :
    Leaves (expectPair wanted code setKey found value) (PairOverruns wanted overruns) := by
  have valued := expectValue_leaves careful leaves
  have both : ∀ (ctx : JparseCtx) (s : S), ctx.Inside →
      Later ctx (expectPair wanted code setKey found value ctx s).2.1 ∧
        (ctx.Within → (expectPair wanted code setKey found value ctx s).1 ≠ .outOfFuel →
          ((expectPair wanted code setKey found value ctx s).2.1.Within ↔ ¬ PairOverruns wanted overruns ctx)) := by
    intro ctx s inside
    have later := keyRead_later inside
    have colon := colonRead_stays inside
    rw [expectPair_eq]
    generalize code (if wanted = none then 2 else 3) = failed
    split_ifs with key named reached
    · have stays := (keyRead_done inside key).2.trans colon
      refine ⟨stays.later.trans (valued.moves _ _ colon.inside), fun here fuelled => ?_⟩
      rw [valued.within _ _ colon.inside (stays.within here) fuelled]
      apply not_congr
      constructor
      · intro strayed
        exact .inr ⟨⟨key, named, reached, strayed.1⟩, strayed.2⟩
      · rintro (unterminated | ⟨reaches, strayed⟩)
        · exact absurd unterminated (not_unterminated inside key)
        · exact ⟨reaches.value, strayed⟩
    · have stays := (keyRead_done inside key).2.trans colon
      dsimp only
      refine ⟨stays.later, fun here _ => ⟨?_, fun _ => stays.within here⟩⟩
      rintro - (unterminated | ⟨reaches, -⟩)
      · exact not_unterminated inside key unterminated
      · exact reached reaches.colon
    · have stays := (keyRead_done inside key).2
      dsimp only
      refine ⟨stays.later, fun here _ => ⟨?_, fun _ => stays.within here⟩⟩
      rintro - (unterminated | ⟨reaches, -⟩)
      · exact not_unterminated inside key unterminated
      · exact named reaches.named
    · dsimp only
      refine ⟨later, fun here _ => ?_⟩
      have place : (keyRead ctx).Within ↔ ¬ Unterminated ctx.unread := jparseExpectStr_within inside.begun here
      rw [place]
      apply not_congr
      exact ⟨.inl, fun strayed => strayed.resolve_right fun reaches => key reaches.1.key⟩
  exact ⟨fun ctx s inside => (both ctx s inside).1, fun ctx s inside => (both ctx s inside).2⟩

/-! The operations. -/

theorem expectIter_bounded (start stop : UInt8) (code : Nat → JparseRes) (moves : Moves cb) :
    Bounded (expectIter (reachBody start) (reachBody stop) code cb) := by
  have bounded := fun fuel => expectIterFor_bounded start stop code fuel moves
  refine .of (fun ctx s inside => ?_) (fun ctx s inside here => ?_)
  · rw [expectIter_for]
    exact (bounded _).moves ctx s inside
  · rw [expectIter_for]
    exact (bounded _).stays inside here

section

variable {ignore : Expect JparseValue}

theorem ignoreObject_bounded (bounded : Bounded ignore) : Bounded (ignoreObject ignore) := by
  have members : Moves (jparseExpectAnykvpIgnore ignore) := by
    rw [jparseExpectAnykvpIgnore, expectAnykvp_eq]
    exact (expectPair_leaves none _ _ _ bounded.careful bounded).moves
  have object : Bounded (jparseExpectObjectIter (jparseExpectAnykvpIgnore ignore)) :=
    expectIter_bounded 123 125 .expectObjectIter members
  apply Bounded.of
  · intro ctx jval inside
    rw [ignoreObject_ctx]
    exact object.moves ctx _ inside
  · intro ctx jval inside here fuelled
    rw [ignoreObject_res] at fuelled
    rw [ignoreObject_ctx]
    exact object.stays inside here fuelled

theorem ignoreArray_bounded (bounded : Bounded ignore) : Bounded (ignoreArray ignore) := by
  have array := expectIter_bounded 91 93 .expectArrayIter (expectItem_bounded bounded.careful).moves
  exact .of (fun ctx jval inside => array.moves ctx { jval with ty := .array } inside)
    fun ctx jval inside here fuelled => array.stays inside here fuelled

theorem ignoreOther_careful (bounded : Bounded ignore) : Careful (ignoreOther ignore) := by
  apply whether_careful 34 ignoreStr_careful
  apply whether_careful 123 (ignoreObject_bounded bounded).careful
  exact whether_careful 91 (ignoreArray_bounded bounded).careful ignoreFloat_bounded.careful

theorem ignoreWithin_bounded (depth : Nat) : Bounded (ignoreWithin depth) := by
  induction depth with
  | zero => exact .of (fun ctx _ inside => .refl inside) fun _ _ _ _ fuelled => absurd rfl fuelled
  | succ depth ih =>
      have same : ignoreWithin (depth + 1) =
          expectLiteralOr (.expectIgnore 1) (.expectIgnore 1) .whole (ignoreOther (ignoreWithin depth)) := by
        funext ctx jval
        exact ignoreWithin_eq depth ctx jval
      rw [same]
      exact expectLiteralOr_bounded _ _ _ (ignoreOther_careful ih)

theorem jparseExpectIgnore_bounded : Bounded jparseExpectIgnore :=
  .of (fun ctx jval inside => (ignoreWithin_bounded _).moves ctx jval inside)
    fun _ _ inside here fuelled => (ignoreWithin_bounded _).stays inside here fuelled

end

theorem anyOther_careful (moves : Moves cb) (jval : Place S JparseValue) : Careful (anyOther cb jval) := by
  have object := expectBlock_bounded 123 125 .expectObject moves
  have array := expectBlock_bounded 91 93 .expectArray moves
  have typed : Bounded (anyObject cb jval) := prepared_leaves _ object
  have typed' : Bounded (anyArray cb jval) := prepared_leaves _ array
  apply whether_careful 34 (onValue_careful jval ignoreStr_careful)
  apply whether_careful 123 typed.careful
  exact whether_careful 91 typed'.careful (onValue_careful jval ignoreFloat_bounded.careful)

/-- Strings are the values that may leave the data. -/
def Value.Overruns : Value S → JparseCtx → Prop
  | .str _, ctx => Unterminated ctx.unread
  | _, _ => False

theorem Value.leaves (fuel : Nat) (v : Value S) : Leaves (v.run fuel) v.Overruns := by
  cases v with
  | any cb jval => exact expectLiteralOr_bounded _ _ _ (anyOther_careful cb.moves jval)
  | int val => exact storing_bounded val id fun _ => jparseExpectInt_stays
  | float val => exact storing_bounded val id fun _ => jparseExpectFloat_stays
  | str val => exact expectStr_leaves val
  | bool val => exact storing_bounded val id fun _ => jparseExpectBool_stays
  | object cb jval => exact expectBlock_bounded 123 125 _ cb.moves
  | objectIter cb jval => exact expectIterFor_bounded 123 125 _ fuel cb.moves
  | array cb jval => exact expectBlock_bounded 91 93 _ cb.moves
  | arrayIter cb jval => exact expectIterFor_bounded 91 93 _ fuel cb.moves

/-- The strings that have no end, and that are not taken back. -/
def JparseOp.Overruns : JparseOp S → JparseCtx → Prop
  | .expect v, ctx => v.Overruns ctx
  | .anykvpIgnore _ _, ctx => PairOverruns none (fun _ => False) ctx
  | .kvp wanted v, ctx => PairOverruns (some wanted) v.Overruns ctx
  | .skvp key v _, ctx => PairOverruns (some (bytesNewFromStr key)) v.Overruns ctx
  | .anykvp _ v, ctx => PairOverruns none v.Overruns ctx
  | _, _ => False

theorem Value.careful (fuel : Nat) (v : Value S) : Careful (v.run fuel) := by
  refine ⟨(v.leaves fuel).moves, fun ctx s inside here done => ?_⟩
  cases v with
  | str val => exact (jparseExpectStr_done inside done).2.within here
  | _ =>
      have fuelled : (Value.run fuel _ ctx s).1 ≠ .outOfFuel := fun wrong => nomatch done.symm.trans wrong
      exact ((Value.leaves fuel _).within ctx s inside here fuelled).mpr not_false

theorem reachesValue_begun (wanted : Option Strz) (ctx : JparseCtx) :
    ReachesValue wanted ctx.begun ↔ ReachesValue wanted ctx :=
  ⟨fun reaches => ⟨reaches.key, reaches.named, reaches.colon, reaches.value⟩,
    fun reaches => ⟨reaches.key, reaches.named, reaches.colon, reaches.value⟩⟩

theorem pairOverruns_begun (wanted : Option Strz) (overruns : JparseCtx → Prop) (ctx : JparseCtx) :
    PairOverruns wanted overruns ctx.begun ↔ PairOverruns wanted overruns ctx :=
  or_congr Iff.rfl (and_congr (reachesValue_begun wanted ctx) Iff.rfl)

theorem Value.kvp_leaves (fuel : Nat) (v : Value S) (wanted : Strz) :
    Leaves (v.kvp fuel wanted) (PairOverruns (some wanted) v.Overruns) := by
  rw [v.kvp_eq]
  exact expectPair_leaves _ _ _ _ (v.careful fuel) (v.leaves fuel)

theorem JparseOp.leaves (fuel : Nat) (op : JparseOp S) : Leaves (op.run fuel) op.Overruns := by
  have ignore : ∀ jval : Place S JparseValue, Bounded (expectIgnore jval) :=
    fun jval => onValue_bounded jval jparseExpectIgnore_bounded
  cases op with
  | tok val => exact storing_bounded val some fun _ => jparseExpectTok_stays
  | ignore jval => exact ignore jval
  | itemIgnore jval => exact expectItem_bounded (ignore jval).careful
  | anykvpIgnore key jval => exact expectPair_leaves none _ _ _ (ignore jval).careful (ignore jval)
  | expect v => exact v.leaves fuel
  | item v =>
      rw [run, v.item_eq]
      exact expectItem_bounded (v.careful fuel)
  | kvp wanted v => exact v.kvp_leaves fuel wanted
  | skvp key v once =>
      have there := v.kvp_leaves fuel (bytesNewFromStr key)
      rw [run, v.skvp_eq fuel]
      refine ⟨fun ctx s inside => (there.moves ctx.begun s inside.begun).of_begun, fun ctx s inside here fuelled => ?_⟩
      have exactly := there.within ctx.begun s inside.begun here fuelled
      exact exactly.trans (not_congr (pairOverruns_begun _ _ ctx))
  | anykvp key v =>
      rw [run, v.anykvp_eq]
      have value := prepared_leaves (v.keyGiven key) (v.leaves fuel)
      exact expectPair_leaves none _ _ _ (prepared_careful _ (v.careful fuel)) value

/-- What runs into the end of the text fails there. -/
theorem expectPair_overruns {wanted : Option Strz} {setKey : Strz → S → S} {found : S → S}
    {overruns : JparseCtx → Prop} (codes : ∀ n, code n ≠ .outOfFuel)
    (fails : ∀ ctx s, ctx.Inside → overruns ctx → (value ctx s).1.Fails) (inside : ctx.Inside)
    (overrun : PairOverruns wanted overruns ctx) :
    (expectPair wanted code setKey found value ctx s).1 ≠ .outOfFuel := by
  rw [expectPair_eq]
  rcases overrun with unterminated | ⟨reaches, overrun⟩
  · have res := (@jparseExpectStr_unterminated ctx.begun unterminated inside.begun).1
    rw [res, if_neg nofun]
    exact codes 1
  · have later := (keyRead_done inside reaches.key).2.trans (colonRead_stays inside)
    have place := (expectMaybeNull_stays later.inside).inside
    have failed := fails (pairValue ctx) (found (keyKept setKey ctx s)) place overrun
    rw [if_pos reaches.key, if_pos reaches.named, if_pos reaches.colon, expectValue_eq, if_neg reaches.value,
      commaBehind]
    change (if (value (pairValue ctx) _).1 = .ok then _ else value (pairValue ctx) _).1 ≠ .outOfFuel
    rw [if_neg failed.1]
    exact failed.2.2

theorem Value.overruns_fails (fuel : Nat) (v : Value S) (inside : ctx.Inside) (overrun : v.Overruns ctx) :
    (v.run fuel ctx s).1.Fails := by
  cases v with
  | str val =>
      change (jparseExpectStr ctx).1.Fails
      rw [(jparseExpectStr_unterminated overrun inside).1]
      exact ⟨nofun, nofun, nofun⟩
  | _ => exact absurd overrun not_false

theorem JparseOp.overruns_returns (fuel : Nat) (op : JparseOp S) (inside : ctx.Inside) (overrun : op.Overruns ctx) :
    (op.run fuel ctx s).1 ≠ .outOfFuel := by
  cases op with
  | expect v => exact (v.overruns_fails fuel inside overrun).2.2
  | anykvpIgnore key jval =>
      exact expectPair_overruns (fun _ => nofun) (fun _ _ _ wrong => absurd wrong not_false) inside overrun
  | kvp wanted v =>
      rw [run, v.kvp_eq]
      exact expectPair_overruns (fun _ => by cases v <;> exact nofun)
        (fun _ _ inside overrun => v.overruns_fails fuel inside overrun) inside overrun
  | skvp key v once =>
      rw [run, v.skvp_eq fuel, expectSkvp, v.kvp_eq]
      exact expectPair_overruns (fun _ => by cases v <;> exact nofun)
        (fun _ _ inside overrun => v.overruns_fails fuel inside overrun) inside.begun
        ((pairOverruns_begun _ _ ctx).mpr overrun)
  | anykvp key v =>
      rw [run, v.anykvp_eq]
      exact expectPair_overruns (fun _ => by cases v <;> exact nofun)
        (fun _ _ inside overrun => v.overruns_fails fuel inside overrun) inside overrun
  | _ => exact absurd overrun not_false

/-- An operation that does not come to its end is none. -/
def jparseStep (fuel : Nat) (op : JparseOp S) (st : JparseCtx × S) : Except Unit (JparseRes × (JparseCtx × S)) :=
  if (op.run fuel st.1 st.2).1 = .outOfFuel then .error () else .ok (op.run fuel st.1 st.2)

/-- The position is within the data when the operation returns. -/
def ReturnsWithin (fuel : Nat) (op : JparseOp S) (st : JparseCtx × S) : Prop :=
  ∀ res next, jparseStep fuel op st = .ok (res, next) → next.1.Within

theorem jparseStep_ok {op : JparseOp S} {st next : JparseCtx × S} {res : JparseRes}
    (stepped : jparseStep fuel op st = .ok (res, next)) :
    op.run fuel st.1 st.2 = (res, next) ∧ res ≠ .outOfFuel := by
  rw [jparseStep] at stepped
  split_ifs at stepped with ended
  have same := Except.ok.inj stepped
  rw [same] at ended
  exact ⟨same, ended⟩

/-- Where a run may begin, and where it goes on. -/
def Placed (st : JparseCtx × S) : Prop := st.1.Inside ∧ st.1.Within

theorem returnsWithin_iff (fuel : Nat) (op : JparseOp S) {st : JparseCtx × S} (inside : st.1.Inside)
    (here : st.1.Within) : ReturnsWithin fuel op st ↔ ¬ op.Overruns st.1 := by
  have exactly := (op.leaves fuel).within st.1 st.2 inside here
  constructor
  · intro returns overrun
    have fuelled := op.overruns_returns (s := st.2) fuel inside overrun
    exact (exactly fuelled).mp (returns _ _ (if_neg fuelled)) overrun
  · intro straight res next stepped
    rcases jparseStep_ok stepped with ⟨same, fuelled⟩
    rw [same] at exactly
    exact (exactly fuelled).mpr straight

theorem jparse_returns_within_iff (fuel : Nat) (ops : List (JparseOp S)) {st : JparseCtx × S} (inside : st.1.Inside)
    (here : st.1.Within) :
    Memory.Along (jparseStep fuel) (ReturnsWithin fuel) ops st ↔
      Memory.Along (jparseStep fuel) (fun op st => ¬ op.Overruns st.1) ops st := by
  have start : Placed st := ⟨inside, here⟩
  apply Memory.along_iff _ _ start
  · intro op st inv
    exact returnsWithin_iff fuel op inv.1 inv.2
  · intro op st res next inv returns stepped
    have later := (op.leaves fuel).moves st.1 st.2 inv.1
    rw [(jparseStep_ok stepped).1] at later
    exact ⟨later.inside, returns res next stepped⟩

/-- The text `"a"`, and the text `"a`. -/
theorem jparse_string_within :
    Memory.Along (jparseStep 0) (ReturnsWithin 0) [.expect (.str .whole)] (jparseStart [[34, 97, 34]], none) ↔
      Memory.Along (jparseStep 0) (fun op st => ¬ op.Overruns st.1) [.expect (.str .whole)]
        (jparseStart [[34, 97, 34]], none) :=
  jparse_returns_within_iff 0 _ (jparseStart_inside (by simp)) (Nat.le_refl 0)

theorem jparse_string_overruns :
    ¬ Memory.Along (jparseStep 0) (ReturnsWithin 0) [.expect (.str .whole)] (jparseStart [[34, 97]], none) := by
  intro run
  have within := run.1 (.expectStr 2) ({ data := [34, 97], feed := [], pos := 3, errorpos := -1 }, some ⟨[97]⟩)
  revert within
  decide +kernel

end MnCommon.Jparse
