import MnCommon.Jparse.Operations
import MnCommon.Jparse.Scan

/-! What the pull parser takes in each turn: a comma in the loops over members and items, and
an opening bracket where it calls itself. -/

namespace MnCommon.Jparse

open Bytes (Strz)
open Grammars (rfc7159)

variable {S : Type} {ctx ctx' next : JparseCtx} {res : JparseRes} {s : S} {bound : Nat} {jval : JparseValue}

/-- The commas that have not been read. -/
def commas (ctx : JparseCtx) : Nat := ctx.unread.countP fun ch => ch = 44

/-- The opening brackets that have not been read. -/
def openings (ctx : JparseCtx) : Nat := ctx.unread.countP fun ch => ch = 123 || ch = 91

/-- `iterate` without fuel: the callback is called again only if it has left fewer commas. -/
def iterateFalling (cb : Expect S) (ctx : JparseCtx) (s : S) : JparseRes × JparseCtx × S :=
  match cb ctx s with
  | (.ok, next, s) => if commas next < commas ctx then iterateFalling cb next s else (.outOfFuel, next, s)
  | stopped => stopped
termination_by commas ctx

/-- `expectIter` with any loop. -/
def expectIterBy (loop : Expect S) (reachStart reachStop : JparseCtx → JparseRes × JparseCtx)
    (code : Nat → JparseRes) : Expect S := fun ctx s =>
  let spos := ctx.pos
  match reachStart ctx.begun with
  | (.ok, ctx) =>
      let spos := ctx.pos
      match loop ctx s with
      | (.outOfFuel, ctx, s) => (.outOfFuel, ctx, s)
      | (res, ctx, s) =>
          if res = .eos ∨ spos = ctx.pos then
            match reachStop ctx with
            | (.ok, ctx) => (.ok, ctx, s)
            | (_, ctx) => (code 2, ctx.back spos, s)
          else
            (res, ctx.back spos, s)
  | (_, ctx) => (code 1, ctx.back spos, s)

/-- The loop of `expectIter`. -/
def iterateAhead (cb : Expect S) : Expect S := fun ctx s => iterate cb (ctx.ahead + 2) ctx s

def ignoreObjectBy (loop : Expect JparseValue → Expect JparseValue) (ignore : Expect JparseValue) :
    Expect JparseValue := fun ctx jval =>
  let (res, ctx, jval) := expectIterBy (loop (jparseExpectAnykvpIgnore ignore)) reachOstart reachOstop
    .expectObjectIter ctx { jval with ty := .object }
  (res, ctx, if res = .ok then { jval with ty := .object } else jval)

def ignoreArrayBy (loop : Expect JparseValue → Expect JparseValue) (ignore : Expect JparseValue) :
    Expect JparseValue := fun ctx jval =>
  expectIterBy (loop (jparseExpectItemIgnore ignore)) reachAstart reachAstop .expectArrayIter ctx
    { jval with ty := .array }

def ignoreOtherBy (loop : Expect JparseValue → Expect JparseValue) (ignore : Expect JparseValue) :
    Expect JparseValue :=
  whether probeDquote ignoreStr
    (whether probeOstart (ignoreObjectBy loop ignore) (whether probeAstart (ignoreArrayBy loop ignore) ignoreFloat))

/-- `jparse_expect_ignore` without fuel: it calls itself only where fewer brackets are left. -/
def ignoreFalling (ctx : JparseCtx) (jval : JparseValue) : JparseRes × JparseCtx × JparseValue :=
  expectLiteralOr (.expectIgnore 1) (.expectIgnore 1) .whole
    (ignoreOtherBy iterateFalling fun next jval =>
      if openings next < openings ctx then ignoreFalling next jval else (.outOfFuel, next, jval)) ctx jval
termination_by openings ctx

theorem expectIterBy_ahead (reachStart reachStop : JparseCtx → JparseRes × JparseCtx) (code : Nat → JparseRes)
    (cb : Expect S) :
    expectIterBy (iterateAhead cb) reachStart reachStop code = expectIter reachStart reachStop code cb := rfl

theorem ignoreOtherBy_ahead (ignore : Expect JparseValue) : ignoreOtherBy iterateAhead ignore = ignoreOther ignore :=
  rfl

/-- What is left after an operation is an end of what was left before it. -/
theorem Onward.suffix (onward : Onward ctx res next) : next.unread <:+ ctx.unread := by
  have inner : next.unread <:+ ctx.text := by
    rw [← onward.later.text]
    exact List.drop_suffix _ _
  apply List.suffix_of_suffix_length_le inner (List.drop_suffix _ _)
  rw [← JparseCtx.unread, ← ahead_eq, ← ahead_eq]
  exact onward.forth

theorem Onward.commas_le (onward : Onward ctx res next) : commas next ≤ commas ctx :=
  onward.suffix.sublist.countP_le

theorem Onward.openings_le (onward : Onward ctx res next) : openings next ≤ openings ctx :=
  onward.suffix.sublist.countP_le

/-- A delimiter that is reached is not ahead any more. -/
theorem reachBody_falls {delim : UInt8} {p : UInt8 → Bool} (counted : p delim = true)
    (mark : ¬ rfc7159.space delim) (inside : ctx.Inside) (reached : (reachBody delim ctx).1 = .ok) :
    (reachBody delim ctx).2.unread.countP p < ctx.unread.countP p := by
  rcases reachBody_ok reached mark inside with ⟨ws, more, -, passes⟩
  rw [passes.unread, passes.split, List.countP_append, List.countP_append, List.countP_singleton, if_pos counted]
  omega

theorem nextComma_falls (inside : ctx.Inside) (found : (nextComma ctx).1 = .ok) :
    commas (nextComma ctx).2 < commas ctx := by
  have falls := @reachBody_falls ctx 44 (fun ch => ch = 44) rfl (by simp [rfc7159]) inside
  rw [nextComma, reachComma] at found ⊢
  rcases reached : reachBody 44 ctx with ⟨res, next⟩
  rw [reached] at falls found
  cases res with
  | ok => exact falls rfl
  | _ => cases found

variable {value value' cb cb' : Expect S}

/-- An operation that leaves fewer commas if it succeeds. -/
def Falls (bound : Nat) (f : Expect S) : Prop :=
  ∀ (ctx : JparseCtx) (s : S), ctx.Inside → ctx.ahead < bound → (f ctx s).1 = .ok →
    commas (f ctx s).2.1 < commas ctx

theorem commaBehind_falls {parsed : JparseRes × JparseCtx × S} (onward : Onward ctx parsed.1 parsed.2.1)
    (done : (commaBehind parsed).1 = .ok) : commas (commaBehind parsed).2.1 < commas ctx := by
  rw [commaBehind] at done ⊢
  split at done
  · next read =>
      rw [if_pos read]
      exact Nat.lt_of_lt_of_le (nextComma_falls onward.later.inside done) onward.commas_le
  · next failed => exact absurd done failed

/-- The comma behind a value. -/
theorem expectValue_falls (inside : ctx.Inside)
    (ends : ∀ next, Onward ctx .ok next → Onward ctx (value next s).1 (value next s).2.1)
    (done : (expectValue value ctx s).1 = .ok) : commas (expectValue value ctx s).2.1 < commas ctx := by
  have onward := expectMaybeNull_onward inside
  rw [expectValue_eq] at done ⊢
  refine commaBehind_falls ?_ done
  split
  · exact onward.other nofun
  · exact ends _ (onward.other nofun)

theorem colonRead_onward (inside : ctx.Inside) : Onward ctx .ok (colonRead ctx) := by
  have key := (jparseExpectStr_onward inside.begun).of_begun
  have colon := (reachBody_onward 58 key.later.inside).1
  exact (key.trans colon).other nofun

theorem expectAnykvp_falls {code : Nat → JparseRes} {setKey : Strz → S → S} (codes : ∀ n, code n ≠ .ok)
    (ends : Ends bound value) : Falls bound (expectAnykvp code setKey value) := by
  intro ctx s inside short done
  have onward := colonRead_onward inside
  have any : (none : Option Strz) = none ∨ (jparseExpectStr ctx.begun).2.2 = none := .inl rfl
  rw [expectAnykvp_eq, expectPair_eq, if_pos any] at done ⊢
  split_ifs at done ⊢ with key colon
  · have falls := @expectValue_falls S (colonRead ctx) _ value onward.later.inside
      (fun next more => more.trans (ends next _ more.later.inside
        (Nat.lt_of_le_of_lt (Nat.le_trans more.forth onward.forth) short))) done
    exact Nat.lt_of_lt_of_le falls onward.commas_le
  all_goals exact absurd done (codes _)

theorem jparseExpectItemIgnore_falls {ignore : Expect JparseValue} (ends : Ends bound ignore) :
    Falls bound (jparseExpectItemIgnore ignore) := by
  intro ctx jval inside short done
  apply @expectValue_falls _ ctx.begun jval (goingBack ctx.pos ignore) inside.begun _ done
  intro next more
  apply @goingBack_onward _ ctx.begun next ignore jval inside.begun
  exact more.trans (ends next jval more.later.inside (Nat.lt_of_le_of_lt more.forth short))

/-- The loop without fuel does what the one with fuel does, if the callbacks agree on all
that is left. -/
theorem iterateFalling_eq (agree : ∀ next t, Onward ctx .ok next → cb next t = cb' next t) (ends : Ends bound cb')
    (falls : Falls bound cb') (fuel : Nat) (inside : ctx.Inside) (short : ctx.ahead < bound)
    (enough : commas ctx < fuel) : iterateFalling cb ctx s = iterate cb' fuel ctx s := by
  induction fuel generalizing ctx s with
  | zero => exact absurd enough (Nat.not_lt_zero _)
  | succ fuel ih =>
      have onward := ends ctx s inside short
      have fewer := falls ctx s inside short
      have same := agree ctx s ⟨.refl inside, Nat.le_refl _, nofun⟩
      rw [iterateFalling, iterate, same]
      rcases run : cb' ctx s with ⟨res, next, t⟩
      rw [run] at onward fewer
      cases res with
      | ok =>
          have fewer : commas next < commas ctx := fewer rfl
          dsimp only
          rw [if_pos fewer]
          apply ih
          · exact fun last u more => agree last u (onward.trans more)
          · exact onward.later.inside
          · exact Nat.lt_of_le_of_lt onward.forth short
          · omega
      | _ => rfl

theorem commas_le_ahead (ctx : JparseCtx) : commas ctx ≤ ctx.ahead := by
  rw [ahead_eq]
  exact List.countP_le_length

theorem expectIterBy_congr {loop loop' : Expect S} {reachStart reachStop : JparseCtx → JparseRes × JparseCtx}
    {code : Nat → JparseRes}
    (agree : (reachStart ctx.begun).1 = .ok → loop (reachStart ctx.begun).2 s = loop' (reachStart ctx.begun).2 s) :
    expectIterBy loop reachStart reachStop code ctx s = expectIterBy loop' reachStart reachStop code ctx s := by
  rw [expectIterBy, expectIterBy]
  rcases reached : reachStart ctx.begun with ⟨res, next⟩
  rw [reached] at agree
  cases res with
  | ok =>
      dsimp only
      rw [agree rfl]
  | _ => rfl

/-- An iteration without fuel, if the callbacks agree behind the bracket. -/
theorem expectIterBy_falling {code : Nat → JparseRes} {start stop : UInt8} (opens : (start = 123 || start = 91) = true)
    (mark : ¬ rfc7159.space start) (ends : Ends bound cb') (falls : Falls bound cb') (inside : ctx.Inside)
    (short : ctx.ahead < bound + 1)
    (agree : ∀ next t, Onward ctx .ok next → openings next < openings ctx → cb next t = cb' next t) :
    expectIterBy (iterateFalling cb) (reachBody start) (reachBody stop) code ctx s =
      expectIter (reachBody start) (reachBody stop) code cb' ctx s := by
  rw [← expectIterBy_ahead]
  apply expectIterBy_congr
  intro reached
  rcases reachBody_onward start inside.begun with ⟨onward, less⟩
  have fewer : openings (reachBody start ctx.begun).2 < openings ctx :=
    reachBody_falls (p := fun ch => ch = 123 || ch = 91) opens mark inside.begun reached
  have less : (reachBody start ctx.begun).2.ahead < ctx.ahead := less reached
  have onward := onward.of_begun.other (show JparseRes.ok ≠ .outOfFuel from nofun)
  rw [iterateAhead]
  apply iterateFalling_eq _ ends falls _ onward.later.inside (by omega)
  · have all := commas_le_ahead (reachBody start ctx.begun).2
    omega
  · intro next t more
    exact agree next t (onward.trans more) (Nat.lt_of_le_of_lt more.openings_le fewer)

theorem expectValue_congr (inside : ctx.Inside)
    (agree : ∀ next, Onward ctx .ok next → value next s = value' next s) :
    expectValue value ctx s = expectValue value' ctx s := by
  rw [expectValue_eq, expectValue_eq, agree _ ((expectMaybeNull_onward inside).other nofun)]

theorem expectAnykvp_congr {code : Nat → JparseRes} {setKey : Strz → S → S} (inside : ctx.Inside)
    (agree : ∀ next t, Onward ctx .ok next → value next t = value' next t) :
    expectAnykvp code setKey value ctx s = expectAnykvp code setKey value' ctx s := by
  have onward := colonRead_onward inside
  have same : expectValue value (colonRead ctx) (id (keyKept setKey ctx s)) =
      expectValue value' (colonRead ctx) (id (keyKept setKey ctx s)) := by
    apply expectValue_congr onward.later.inside
    intro next more
    exact agree next _ (onward.trans more)
  rw [expectAnykvp_eq, expectAnykvp_eq, expectPair_eq, expectPair_eq, same]

variable {ignore ignore' : Expect JparseValue}

theorem jparseExpectItemIgnore_congr (inside : ctx.Inside)
    (agree : ∀ next jval, Onward ctx .ok next → ignore next jval = ignore' next jval) :
    jparseExpectItemIgnore ignore ctx jval = jparseExpectItemIgnore ignore' ctx jval := by
  rw [jparseExpectItemIgnore, jparseExpectItemIgnore]
  apply expectValue_congr inside.begun
  intro next more
  rw [goingBack, goingBack, agree next jval more.of_begun]

theorem whether_eq (probe : JparseCtx → JparseRes × JparseCtx) (yes no : Expect S) (ctx : JparseCtx) (s : S) :
    whether probe yes no ctx s = if (probe ctx).1 = .ok then yes (probe ctx).2 s else no (probe ctx).2 s := by
  rw [whether]
  rcases probe ctx with ⟨res, next⟩
  cases res <;> rfl

/-- What is behind an opening bracket is read in the same way. -/
def AgreeBehind (ctx : JparseCtx) (ignore ignore' : Expect JparseValue) : Prop :=
  ∀ next jval, Onward ctx .ok next → openings next < openings ctx → ignore next jval = ignore' next jval

theorem AgreeBehind.onward (agree : AgreeBehind ctx ignore ignore') (onward : Onward ctx res next) :
    AgreeBehind next ignore ignore' := by
  intro last jval more fewer
  exact agree last jval (onward.trans more) (Nat.lt_of_lt_of_le fewer onward.openings_le)

theorem ignoreObjectBy_falling (agree : AgreeBehind ctx ignore ignore') (ends : Ends bound ignore')
    (inside : ctx.Inside) (short : ctx.ahead < bound + 1) :
    ignoreObjectBy iterateFalling ignore ctx jval = ignoreObjectBy iterateAhead ignore' ctx jval := by
  have members : Ends bound (jparseExpectAnykvpIgnore ignore') ∧ Takes bound (jparseExpectAnykvpIgnore ignore') :=
    expectAnykvp_onward (fun _ => nofun) (fun _ => nofun) ends
  have falls : Falls bound (jparseExpectAnykvpIgnore ignore') := expectAnykvp_falls (fun _ => nofun) ends
  have same := @expectIterBy_falling _ ctx { jval with ty := .object } bound _ _ .expectObjectIter 123 125 rfl
    (by simp [rfc7159]) members.1 falls inside short fun next t onward fewer =>
      expectAnykvp_congr onward.later.inside fun last v more =>
        agree last v (onward.trans more) (Nat.lt_of_le_of_lt more.openings_le fewer)
  rw [ignoreObjectBy, ignoreObjectBy, expectIterBy_ahead]
  exact congrArg (fun parsed : JparseRes × JparseCtx × JparseValue =>
    (parsed.1, parsed.2.1, if parsed.1 = .ok then { parsed.2.2 with ty := .object } else parsed.2.2)) same

theorem ignoreArrayBy_falling (agree : AgreeBehind ctx ignore ignore') (ends : Ends bound ignore')
    (inside : ctx.Inside) (short : ctx.ahead < bound + 1) :
    ignoreArrayBy iterateFalling ignore ctx jval = ignoreArrayBy iterateAhead ignore' ctx jval := by
  have items := (jparseExpectItemIgnore_onward ends).1
  have falls := jparseExpectItemIgnore_falls ends
  exact @expectIterBy_falling _ ctx { jval with ty := .array } bound _ _ .expectArrayIter 91 93 rfl
    (by simp [rfc7159]) items falls inside short fun next t onward fewer =>
      jparseExpectItemIgnore_congr onward.later.inside fun last v more =>
        agree last v (onward.trans more) (Nat.lt_of_le_of_lt more.openings_le fewer)

theorem ignoreOtherBy_falling (agree : AgreeBehind ctx ignore ignore') (ends : Ends bound ignore')
    (inside : ctx.Inside) (short : ctx.ahead < bound + 1) :
    ignoreOtherBy iterateFalling ignore ctx jval = ignoreOther ignore' ctx jval := by
  have quote := probeBody_onward 34 inside
  have brace := quote.trans (probeBody_onward 123 quote.later.inside)
  have bracket := brace.trans (probeBody_onward 91 brace.later.inside)
  have object := @ignoreObjectBy_falling _ bound jval _ _ (agree.onward brace) ends brace.later.inside
    (Nat.lt_of_le_of_lt brace.forth short)
  have array := @ignoreArrayBy_falling _ bound jval _ _ (agree.onward bracket) ends bracket.later.inside
    (Nat.lt_of_le_of_lt bracket.forth short)
  rw [← ignoreOtherBy_ahead]
  simp only [ignoreOtherBy, whether_eq]
  rw [probeOstart, probeAstart, probeDquote, object, array]

theorem literalsRead_onward (inside : ctx.Inside) : Onward ctx .ok (literalsRead ctx) := by
  have start := (reachNonblank_onward inside.begun).of_begun
  have null := start.trans (expectMaybeNull_onward start.later.inside)
  have bool := null.trans (jparseExpectBool_onward null.later.inside)
  rw [literalsRead, nullRead, valueStart]
  exact bool.other (fun wrong => by cases wrong)

/-- Where a bracket has been taken there is less to read. -/
theorem Onward.less (onward : Onward ctx res next) (fewer : openings next < openings ctx) : next.ahead < ctx.ahead := by
  apply Nat.lt_of_le_of_ne onward.forth
  intro same
  rw [ahead_eq, ahead_eq] at same
  have whole : next.unread = ctx.unread := onward.suffix.eq_of_length same
  rw [openings, openings, whole] at fewer
  exact Nat.lt_irrefl _ fewer

/-- Without fuel the parser finds the same. -/
theorem ignoreFalling_within (depth : Nat) (inside : ctx.Inside) (short : ctx.ahead < depth) :
    ignoreFalling ctx jval = ignoreWithin depth ctx jval := by
  induction depth generalizing ctx jval with
  | zero => exact absurd short (Nat.not_lt_zero _)
  | succ depth ih =>
      have onward := literalsRead_onward inside
      have agree : AgreeBehind (literalsRead ctx)
          (fun next jval => if openings next < openings ctx then ignoreFalling next jval else (.outOfFuel, next, jval))
          (ignoreWithin depth) := by
        intro next jval more fewer
        have below := Nat.lt_of_lt_of_le fewer onward.openings_le
        have whole := onward.trans more
        have less := whole.less below
        dsimp only
        rw [if_pos below]
        exact ih whole.later.inside (by omega)
      have same := @ignoreOtherBy_falling _ depth jval _ _ agree (ignoreWithin_onward depth) onward.later.inside
        (Nat.lt_of_le_of_lt onward.forth short)
      rw [ignoreFalling, ignoreWithin_eq, expectLiteralOr_eq, expectLiteralOr_eq, same]

theorem ignoreFalling_eq (inside : ctx.Inside) : ignoreFalling ctx jval = jparseExpectIgnore ctx jval :=
  ignoreFalling_within _ inside (Nat.lt_succ_self _)

/-- The loops over characters have enough fuel. -/
theorem scan_enough (step : S → UInt8 → Option S) (st : S) (fuel more : Nat) (inside : ctx.Inside)
    (enough : ctx.ahead < fuel) (enough' : ctx.ahead < more) : scan step fuel st ctx = scan step more st ctx := by
  induction fuel generalizing st ctx more with
  | zero => exact absurd enough (Nat.not_lt_zero _)
  | succ fuel ih =>
      cases more with
      | zero => exact absurd enough' (Nat.not_lt_zero _)
      | succ more =>
          rcases fetch_flat inside with ⟨-, later, pos, within⟩
          rw [scan, scan]
          rcases fetched : ctx.fetch with ⟨ch, next⟩
          rw [fetched] at later pos within
          change next.pos = ctx.pos at pos
          cases ch with
          | none => rfl
          | some ch =>
              have here : next.pos < next.data.length := by
                rw [pos]
                exact within (by simp)
              have less : JparseCtx.ahead { next with pos := next.pos + 1 } < ctx.ahead := by
                have text : next.text.length = ctx.text.length := congrArg List.length later.text
                have whole : next.data.length ≤ next.text.length := by
                  rw [JparseCtx.text, List.length_append]
                  exact Nat.le_add_right ..
                change next.text.length - (next.pos + 1) < ctx.text.length - ctx.pos
                omega
              dsimp only
              cases step st ch with
              | none => rfl
              | some st' => exact ih st' more ⟨.inr here, later.inside.chunks⟩ (by omega) (by omega)

/-- The parser comes to an end: it does the same without fuel, where a callback is repeated only after a
comma and the function calls itself only behind an opening bracket. -/
theorem jparse_expect_ignore_terminates (inside : ctx.Inside) (jval : JparseValue) :
    (jparseExpectIgnore ctx jval).1 ≠ .outOfFuel ∧ ignoreFalling ctx jval = jparseExpectIgnore ctx jval ∧
      (∀ bound, Falls bound (jparseExpectAnykvpIgnore jparseExpectIgnore) ∧
        Falls bound (jparseExpectItemIgnore jparseExpectIgnore)) ∧
      ∀ (S : Type) (step : S → UInt8 → Option S) (st : S) (next : JparseCtx), next.Inside →
        ∀ fuel > next.ahead, scan step fuel st next = scanAll step st next := by
  have ends : ∀ bound, Ends bound jparseExpectIgnore := fun _ _ _ inside _ => jparseExpectIgnore_onward inside
  refine ⟨(jparseExpectIgnore_onward inside).fuelled, ignoreFalling_eq inside, ?_, ?_⟩
  · intro bound
    exact ⟨expectAnykvp_falls (fun _ => nofun) (ends bound), jparseExpectItemIgnore_falls (ends bound)⟩
  · intro S step st next within fuel enough
    exact scan_enough step st fuel _ within enough (Nat.lt_succ_self _)

/-- `[1,{` and nothing more, in two chunks. -/
theorem jparse_expect_ignore_terminates_sample :
    ignoreFalling (jparseStart [[91, 49], [44, 123]]) jparseValueInit =
      jparseExpectIgnore (jparseStart [[91, 49], [44, 123]]) jparseValueInit :=
  (jparse_expect_ignore_terminates (jparseStart_inside (by simp)) jparseValueInit).2.1

end MnCommon.Jparse
