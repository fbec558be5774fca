import MnCommon.Jparse.Bounds

/-! Whether an operation that fails leaves the position where it was. -/

namespace MnCommon.Jparse

open Bytes (Strz)
open Grammars (rfc7159)

variable {S A : Type} {ctx ctx' next : JparseCtx} {fuel : Nat} {s : S} {cb value other f : Expect S} {g : Expect A}
  {start stop : UInt8} {code : Nat → JparseRes} {wanted : Option Strz} {setKey : Strz → S → S} {found : S → S}

/-- The operation fails, and there is more to read. -/
def Mismatch (returned : JparseRes × JparseCtx × S) : Prop := returned.1.Fails ∧ returned.2.1.unread ≠ []

instance (returned : JparseRes × JparseCtx × S) : Decidable (Mismatch returned) := inferInstanceAs (Decidable (_ ∧ _))

def Restores (f : Expect S) (ctx : JparseCtx) (s : S) : Prop := Mismatch (f ctx s) → (f ctx s).2.1.pos = ctx.pos

instance (f : Expect S) (ctx : JparseCtx) (s : S) : Decidable (Restores f ctx s) :=
  inferInstanceAs (Decidable (_ → _))

/-- A value that is no literal fails behind spaces. -/
structure LiteralStrays (other : Expect S) (ctx : JparseCtx) (s : S) : Prop where
  reached : (reachNonblank ctx.begun).1 = .ok
  spaces : (valueStart ctx).pos ≠ ctx.pos
  null : (expectMaybeNull (valueStart ctx)).1 ≠ .ok
  bool : (jparseExpectBool (nullRead ctx)).1 ≠ .ok
  failed : (other (literalsRead ctx) s).1 ≠ .ok
  fuelled : (other (literalsRead ctx) s).1 ≠ .outOfFuel

/-- What is behind the bracket is not what it should be: the callback fails behind something
that has been taken, or the container is not closed. -/
structure IterStrays (fuel : Nat) (start stop : UInt8) (cb : Expect S) (ctx : JparseCtx) (s : S) : Prop where
  reached : (reachBody start ctx.begun).1 = .ok
  more : (reachBody start ctx.begun).2.unread ≠ []
  fuelled : (iterate cb fuel (reachBody start ctx.begun).2 s).1 ≠ .outOfFuel
  failed : (iterate cb fuel (reachBody start ctx.begun).2 s).1 = .eos ∨
      (reachBody start ctx.begun).2.pos = (iterate cb fuel (reachBody start ctx.begun).2 s).2.1.pos →
    (reachBody stop (iterate cb fuel (reachBody start ctx.begun).2 s).2.1).1 ≠ .ok

/-- Behind the key there is something else than what should be there. -/
inductive PairStrays (wanted : Option Strz) (setKey : Strz → S → S) (found : S → S) (value : Expect S) (ctx : JparseCtx)
    (s : S) : Prop where
  | key (done : (jparseExpectStr ctx.begun).1 = .ok)
      (other : ¬ (wanted = none ∨ (jparseExpectStr ctx.begun).2.2 = wanted)) (more : (keyRead ctx).unread ≠ [])
  | colon (done : (jparseExpectStr ctx.begun).1 = .ok)
      (named : wanted = none ∨ (jparseExpectStr ctx.begun).2.2 = wanted)
      (other : (reachColon (keyRead ctx)).1 = .reach 58 2)
  | value (reaches : ReachesValue wanted ctx)
      (mismatch : Mismatch (value (pairValue ctx) (found (keyKept setKey ctx s))))

theorem not_mismatch_of_ok {returned : JparseRes × JparseCtx × S} (done : returned.1 = .ok) : ¬ Mismatch returned :=
  fun mismatch => mismatch.1.1 done

theorem not_mismatch_of_unread {returned : JparseRes × JparseCtx × S} (ended : returned.2.1.unread = []) :
    ¬ Mismatch returned :=
  fun mismatch => mismatch.2 ended

/-- The position is as before unless something is so, and it is never before that. -/
structure Settles (ctx : JparseCtx) (returned : JparseRes × JparseCtx × S) (strays : Prop) : Prop where
  restores : (Mismatch returned → returned.2.1.pos = ctx.pos) ↔ ¬ strays
  forth : Mismatch returned → ctx.pos ≤ returned.2.1.pos

namespace Settles

variable {returned : JparseRes × JparseCtx × S} {strays strays' : Prop}

theorem calm (calm : ¬ Mismatch returned) (straight : ¬ strays) : Settles ctx returned strays :=
  ⟨⟨fun _ => straight, fun _ mismatch => absurd mismatch calm⟩, fun mismatch => absurd mismatch calm⟩

theorem same (same : returned.2.1.pos = ctx.pos) (straight : ¬ strays) : Settles ctx returned strays :=
  ⟨⟨fun _ => straight, fun _ _ => same⟩, fun _ => Nat.le_of_eq same.symm⟩

theorem strayed (mismatch : Mismatch returned) (further : ctx.pos < returned.2.1.pos) (here : strays) :
    Settles ctx returned strays := by
  refine ⟨⟨fun restores => ?_, fun straight => absurd here straight⟩, fun _ => Nat.le_of_lt further⟩
  exact absurd (restores mismatch) (Nat.ne_of_gt further)

theorem congr (settles : Settles ctx returned strays) (same : strays ↔ strays') : Settles ctx returned strays' :=
  ⟨settles.restores.trans (not_congr same), settles.forth⟩

end Settles

theorem Later.unread (later : Later ctx ctx') (same : ctx'.pos = ctx.pos) : ctx'.unread = ctx.unread := by
  rw [JparseCtx.unread, later.text, same, ← JparseCtx.unread]

theorem valueEnd_eq (code : JparseRes) (start : Nat) (parsed : JparseRes × JparseCtx × S) :
    valueEnd code start parsed =
      if parsed.1 = .ok ∨ parsed.1 = .outOfFuel then parsed else (code, parsed.2.1.back start, parsed.2.2) := by
  rcases parsed with ⟨res, next, t⟩
  cases res <;> rfl

/-- The position is behind the spaces if what is there fails. -/
theorem expectLiteralOr_settles (code code' : JparseRes) (fails : code'.Fails) (jval : Place S JparseValue)
    (moves : Moves other) (inside : ctx.Inside) :
    Settles ctx (expectLiteralOr code code' jval other ctx s) (LiteralStrays other ctx s) := by
  have stays := valueStart_stays inside
  have unread : (reachNonblank ctx.begun).1 = .ok ↔ (valueStart ctx).unread ≠ [] := reachNonblank_unread inside.begun
  have forth : ctx.pos ≤ (valueStart ctx).pos := reachNonblank_forth inside.begun
  have literals := literalsRead_stays inside
  have later := literals.later.trans (moves _ s literals.inside)
  rw [expectLiteralOr_eq]
  split_ifs with reached null bool
  · exact .calm (not_mismatch_of_ok rfl) fun strays => strays.null null
  · exact .calm (not_mismatch_of_ok rfl) fun strays => strays.bool bool
  · rw [valueEnd_eq]
    split_ifs with ended
    · refine .calm (fun mismatch => ?_) fun strays => ?_
      · exact ended.elim mismatch.1.1 mismatch.1.2.2
      · exact ended.elim strays.failed strays.fuelled
    · rcases not_or.mp ended with ⟨failed, fuelled⟩
      have more : ((other (literalsRead ctx) s).2.1.back (valueStart ctx).pos).unread ≠ [] := by
        rw [(later.back stays.inside.place).unread rfl]
        exact unread.mp reached
      by_cases spaces : (valueStart ctx).pos = ctx.pos
      · exact .same spaces fun strays => strays.spaces spaces
      · have further : ctx.pos < (valueStart ctx).pos := Nat.lt_of_le_of_ne forth (Ne.symm spaces)
        exact .strayed ⟨fails, more⟩ further ⟨reached, spaces, null, bool, failed, fuelled⟩
  · have ended : (valueStart ctx).unread = [] := by
      by_contra more
      exact reached (unread.mpr more)
    exact .calm (not_mismatch_of_unread ended) fun strays => reached strays.reached

/-- An iteration that fails leaves the position behind the bracket. -/
theorem expectIterFor_settles (codes : ∀ n, (code n).Fails) (mark : ¬ rfc7159.space start) (moves : Moves cb)
    (inside : ctx.Inside) :
    Settles ctx (expectIterFor fuel (reachBody start) (reachBody stop) code cb ctx s)
      (IterStrays fuel start stop cb ctx s) := by
  have stays := (reachBody_stays start inside.begun).of_begun
  have called := iterate_moves moves fuel (reachBody start ctx.begun).2 s stays.inside
  have stopped := iterate_not_ok cb fuel (reachBody start ctx.begun).2 s
  have returned := called.trans (reachBody_stays stop called.inside).later
  have here := (called.returns stays.inside).later.unread rfl
  have there := (returned.returns stays.inside).later.unread rfl
  rw [expectIterFor_eq, loopEnd]
  by_cases reached : (reachBody start ctx.begun).1 = .ok
  · have further : ctx.pos < (reachBody start ctx.begun).2.pos := reachBody_further mark inside.begun reached
    rw [if_pos reached]
    split_ifs with fuelled ended closed
    · exact .calm (fun mismatch => mismatch.1.2.2 fuelled) fun strays => strays.fuelled fuelled
    · exact .calm (not_mismatch_of_ok rfl) fun strays => strays.failed ended closed
    · by_cases more : (reachBody start ctx.begun).2.unread = []
      · exact .calm (not_mismatch_of_unread (there.trans more)) fun strays => strays.more more
      · exact .strayed ⟨codes 2, there.trans_ne more⟩ further ⟨reached, more, fuelled, fun _ => closed⟩
    · by_cases more : (reachBody start ctx.begun).2.unread = []
      · exact .calm (not_mismatch_of_unread (here.trans more)) fun strays => strays.more more
      · have fails := And.intro stopped (And.intro (not_or.mp ended).1 fuelled)
        exact .strayed ⟨fails, here.trans_ne more⟩ further ⟨reached, more, fuelled, fun wrong => absurd wrong ended⟩
  · rw [if_neg reached]
    exact .same rfl fun strays => reached strays.reached

/-- A block that fails is as if it had not begun. -/
theorem expectBlock_settles (ctx : JparseCtx) (s : S) (reachStart reachStop : JparseCtx → JparseRes × JparseCtx)
    (code : Nat → JparseRes) (cb : Expect S) :
    Settles ctx (expectBlock reachStart reachStop code cb ctx s) False := by
  rw [expectBlock]
  rcases reachStart ctx.begun with ⟨res, next⟩
  cases res with
  | ok =>
      dsimp only
      rcases cb next s with ⟨res', last, t⟩
      cases res' with
      | ok =>
          dsimp only
          rcases reachStop last with ⟨res'', after⟩
          cases res'' with
          | ok => exact .calm (not_mismatch_of_ok rfl) not_false
          | _ => exact .same rfl not_false
      | _ => exact .same rfl not_false
  | _ => exact .same rfl not_false

/-- Without a comma it is the end of the container. -/
theorem not_mismatch_comma (next : JparseCtx) (s : S) : ¬ Mismatch ((nextComma next).1, (nextComma next).2, s) := by
  intro mismatch
  exact (nextComma_res next).elim mismatch.1.1 mismatch.1.2.1

theorem commaBehind_of_mismatch {parsed : JparseRes × JparseCtx × S} (mismatch : Mismatch parsed) :
    commaBehind parsed = parsed := if_neg mismatch.1.1

theorem not_mismatch_commaBehind {parsed : JparseRes × JparseCtx × S} (calm : ¬ Mismatch parsed) :
    ¬ Mismatch (commaBehind parsed) := by
  rw [commaBehind]
  split_ifs
  · exact not_mismatch_comma _ _
  · exact calm

theorem expectItem_settles (ctx : JparseCtx) (s : S) (value : Expect S) :
    Settles ctx (expectItem value ctx s) False := by
  rw [expectItem, expectValue_eq, commaBehind]
  by_cases null : (expectMaybeNull ctx.begun).1 = .ok
  · rw [if_pos null, if_pos rfl]
    exact .calm (not_mismatch_comma _ s) not_false
  · rw [if_neg null, goingBack]
    rcases value (expectMaybeNull ctx.begun).2 s with ⟨res, next, t⟩
    cases res with
    | ok => exact .calm (not_mismatch_comma next t) not_false
    | _ => exact .same rfl not_false

theorem expectInt_settles (val : Place S Int64) (inside : ctx.Inside) : Settles ctx (expectInt val ctx s) False := by
  rcases jparseExpectInt_cases inside with done | ended | same
  · exact .calm (not_mismatch_of_ok done) not_false
  · exact .calm (not_mismatch_of_unread ended) not_false
  · exact .same same not_false

theorem expectFloat_settles (val : Place S (List UInt8)) (inside : ctx.Inside) :
    Settles ctx (expectFloat val ctx s) False := by
  by_cases done : (jparseExpectFloat ctx).1 = .ok
  · exact .calm (not_mismatch_of_ok done) not_false
  · exact .calm (not_mismatch_of_unread (jparseExpectFloat_ended inside done)) not_false

theorem expectStr_settles (val : Place S (Option Strz)) (inside : ctx.Inside) :
    Settles ctx (expectStr val ctx s) False := by
  by_cases unterminated : Unterminated ctx.unread
  · exact .calm (not_mismatch_of_unread (jparseExpectStr_unterminated unterminated inside).2.1) not_false
  · rcases jparseExpectStr_terminated unterminated inside with ⟨⟨done, -⟩ | ⟨-, same⟩, -⟩
    · exact .calm (not_mismatch_of_ok done) not_false
    · exact .same same not_false

theorem expectBool_settles (val : Place S Bool) (ctx : JparseCtx) (s : S) :
    Settles ctx (expectBool val ctx s) False := by
  rcases jparseExpectBool_cases ctx with done | ⟨-, same⟩
  · exact .calm (not_mismatch_of_ok done) not_false
  · exact .same same not_false

theorem jparseExpectTok_settles (val : Place S (Option Strz)) (inside : ctx.Inside) :
    Settles ctx (storing val some jparseExpectTok ctx s) False := by
  by_cases done : (jparseExpectTok ctx).1 = .ok
  · exact .calm (not_mismatch_of_ok done) not_false
  · exact .calm (not_mismatch_of_unread (jparseExpectTok_ended inside done)) not_false

theorem expectIgnore_settles (jval : Place S JparseValue) (inside : ctx.Inside) :
    Settles ctx (expectIgnore jval ctx s) (LiteralStrays (ignoreOther (ignoreWithin ctx.ahead)) ctx (jval.get s)) := by
  have fails : (JparseRes.expectIgnore 1).Fails := ⟨nofun, nofun, nofun⟩
  have moves := (ignoreOther_careful (ignoreWithin_bounded ctx.ahead)).moves
  have settles : Settles ctx (jparseExpectIgnore ctx (jval.get s))
      (LiteralStrays (ignoreOther (ignoreWithin ctx.ahead)) ctx (jval.get s)) := by
    rw [jparseExpectIgnore, ignoreWithin_eq]
    exact expectLiteralOr_settles _ _ fails .whole moves inside
  exact ⟨settles.restores, settles.forth⟩

/-- What the values other than scalars, objects and arrays leave behind. -/
def Value.Strays (fuel : Nat) : Value S → JparseCtx → S → Prop
  | .any cb jval, ctx, s => LiteralStrays (anyOther cb.run jval) ctx s
  | .objectIter cb _, ctx, s => IterStrays fuel 123 125 cb.run ctx s
  | .arrayIter cb _, ctx, s => IterStrays fuel 91 93 cb.run ctx s
  | _, _, _ => False

theorem Value.settles (fuel : Nat) (v : Value S) (inside : ctx.Inside) :
    Settles ctx (v.run fuel ctx s) (v.Strays fuel ctx s) := by
  cases v with
  | any cb jval =>
      have fails : (JparseRes.expectAny 2).Fails := by simp [JparseRes.Fails]
      exact expectLiteralOr_settles _ _ fails jval (anyOther_careful cb.moves jval).moves inside
  | int val => exact expectInt_settles val inside
  | float val => exact expectFloat_settles val inside
  | str val => exact expectStr_settles val inside
  | bool val => exact expectBool_settles val ctx s
  | object cb jval => exact expectBlock_settles ctx s _ _ _ cb.run
  | objectIter cb jval => exact expectIterFor_settles (fun _ => by simp [JparseRes.Fails]) (by simp [rfc7159]) cb.moves inside
  | array cb jval => exact expectBlock_settles ctx s _ _ _ cb.run
  | arrayIter cb jval => exact expectIterFor_settles (fun _ => by simp [JparseRes.Fails]) (by simp [rfc7159]) cb.moves inside

theorem pairValue_pos (null : (expectMaybeNull (colonRead ctx)).1 ≠ .ok) : (pairValue ctx).pos = (colonRead ctx).pos := by
  rw [pairValue]
  rcases expectMaybeNull_cases (colonRead ctx) with done | ⟨-, same⟩
  · exact absurd done null
  · exact same

/-- Once the key has been read a failure leaves the position behind it. -/
theorem expectPair_settles (wanted : Option Strz) (codes : ∀ n, (code n).Fails) (setKey : Strz → S → S)
    (found : S → S)
    (forth : ∀ ctx s, ctx.Inside → Mismatch (value ctx s) → ctx.pos ≤ (value ctx s).2.1.pos) (inside : ctx.Inside) :
    Settles ctx (expectPair wanted code setKey found value ctx s) (PairStrays wanted setKey found value ctx s) := by
  have later := keyRead_later inside
  have mark : ¬ rfc7159.space 58 := by simp [rfc7159]
  have fails := codes (if wanted = none then 2 else 3)
  rw [expectPair_eq]
  generalize code (if wanted = none then 2 else 3) = failed at fails
  split_ifs with key named reached
  · have further := (keyRead_done inside key).1
    have place : (keyRead ctx).pos < (colonRead ctx).pos := reachBody_further mark later.inside reached
    have colon := colonRead_stays inside
    rw [expectValue_eq]
    by_cases null : (expectMaybeNull (colonRead ctx)).1 = .ok
    · rw [if_pos null]
      refine .calm (not_mismatch_commaBehind (not_mismatch_of_ok rfl)) fun strays => ?_
      cases strays with
      | key done other more => exact other named
      | colon done named other => cases reached.symm.trans other
      | value reaches mismatch => exact reaches.value null
    · have same := pairValue_pos null
      have start : (pairValue ctx).Inside := (expectMaybeNull_stays colon.inside).inside
      rw [if_neg null, ← pairValue]
      by_cases mismatch : Mismatch (value (pairValue ctx) (found (keyKept setKey ctx s)))
      · have onward := forth (pairValue ctx) _ start mismatch
        rw [commaBehind_of_mismatch mismatch]
        exact .strayed mismatch (by omega) (.value ⟨key, named, reached, null⟩ mismatch)
      · refine .calm (not_mismatch_commaBehind mismatch) fun strays => ?_
        cases strays with
        | key done other more => exact other named
        | colon done named other => cases reached.symm.trans other
        | value reaches mismatch' => exact mismatch mismatch'
  · have further := (keyRead_done inside key).1
    rcases reachBody_cases mark later.inside with ⟨done, -⟩ | ⟨res, ended⟩ | ⟨res, same, more⟩
    · exact absurd done reached
    · refine .calm (not_mismatch_of_unread ended) fun strays => ?_
      cases strays with
      | key done other more => exact other named
      | colon done named other => cases res.symm.trans other
      | value reaches mismatch => exact reached reaches.colon
    · have place : ctx.pos < (colonRead ctx).pos := Nat.lt_of_lt_of_eq further same.symm
      exact .strayed ⟨fails, more⟩ place (.colon key named res)
  · have further := (keyRead_done inside key).1
    by_cases ended : (keyRead ctx).unread = []
    · refine .calm (not_mismatch_of_unread ended) fun strays => ?_
      cases strays with
      | key done other more => exact more ended
      | colon done named' other => exact named named'
      | value reaches mismatch => exact named reaches.named
    · exact .strayed ⟨codes 2, ended⟩ further (.key key named ended)
  · have straight : ¬ PairStrays wanted setKey found value ctx s := by
      intro strays
      cases strays with
      | key done other more => exact key done
      | colon done named other => exact key done
      | value reaches mismatch => exact key reaches.key
    by_cases unterminated : Unterminated ctx.unread
    · have ended := (@jparseExpectStr_unterminated ctx.begun unterminated inside.begun).2.1
      exact .calm (not_mismatch_of_unread ended) straight
    · have outcome := (@jparseExpectStr_terminated ctx.begun unterminated inside.begun).1
      rcases outcome with ⟨done, -⟩ | ⟨-, same⟩
      · exact absurd done key
      · exact .same same straight

/-- Where an operation fails and does not go back to where it has begun. -/
def JparseOp.Strays (fuel : Nat) : JparseOp S → JparseCtx → S → Prop
  | .ignore jval, ctx, s => LiteralStrays (ignoreOther (ignoreWithin ctx.ahead)) ctx (jval.get s)
  | .anykvpIgnore key jval, ctx, s => PairStrays none (keep key) (nameValue key jval) (expectIgnore jval) ctx s
  | .expect v, ctx, s => v.Strays fuel ctx s
  | .kvp wanted v, ctx, s => PairStrays (some wanted) v.kvpKey id (v.run fuel) ctx s
  | .skvp key v _, ctx, s => PairStrays (some (bytesNewFromStr key)) v.kvpKey id (v.run fuel) ctx s
  | .anykvp key v, ctx, s =>
      PairStrays none (keep key) (v.keyFound key) (prepared (v.keyGiven key) (v.run fuel)) ctx s
  | _, _, _ => False

theorem pairStrays_begun (wanted : Option Strz) (setKey : Strz → S → S) (found : S → S) (value : Expect S)
    (ctx : JparseCtx) (s : S) :
    PairStrays wanted setKey found value ctx.begun s ↔ PairStrays wanted setKey found value ctx s := by
  constructor
  · intro strays
    cases strays with
    | key done other more => exact .key done other more
    | colon done named other => exact .colon done named other
    | value reaches mismatch => exact .value ((reachesValue_begun wanted ctx).mp reaches) mismatch
  · intro strays
    cases strays with
    | key done other more => exact .key done other more
    | colon done named other => exact .colon done named other
    | value reaches mismatch => exact .value ((reachesValue_begun wanted ctx).mpr reaches) mismatch

theorem Value.kvp_settles (fuel : Nat) (v : Value S) (wanted : Strz) (inside : ctx.Inside) :
    Settles ctx (v.kvp fuel wanted ctx s) (PairStrays (some wanted) v.kvpKey id (v.run fuel) ctx s) := by
  have codes : ∀ n, (v.kvpCode n).Fails := fun n => by cases v <;> exact ⟨nofun, nofun, nofun⟩
  rw [v.kvp_eq]
  exact expectPair_settles _ codes _ _ (fun _ _ inside => (v.settles fuel inside).forth) inside

theorem JparseOp.settles (fuel : Nat) (op : JparseOp S) (inside : ctx.Inside) :
    Settles ctx (op.run fuel ctx s) (op.Strays fuel ctx s) := by
  cases op with
  | tok val => exact jparseExpectTok_settles val inside
  | ignore jval => exact expectIgnore_settles jval inside
  | itemIgnore jval => exact expectItem_settles ctx s _
  | anykvpIgnore key jval =>
      have codes : ∀ n, (JparseRes.expectAnykvpIgnore n).Fails := fun _ => by simp [JparseRes.Fails]
      exact expectPair_settles _ codes _ _ (fun _ _ inside => (expectIgnore_settles jval inside).forth) inside
  | expect v => exact v.settles fuel inside
  | item v =>
      rw [run, v.item_eq]
      exact expectItem_settles ctx s _
  | kvp wanted v => exact v.kvp_settles fuel wanted inside
  | skvp key v once =>
      have settles := @Value.kvp_settles S ctx.begun s fuel v (bytesNewFromStr key) inside.begun
      have same := pairStrays_begun (some (bytesNewFromStr key)) v.kvpKey id (v.run fuel) ctx s
      rw [run, v.skvp_eq fuel]
      exact ⟨(settles.congr same).restores, settles.forth⟩
  | anykvp key v =>
      have codes : ∀ n, (v.anykvpCode n).Fails := fun n => by cases v <;> simp [Value.anykvpCode, JparseRes.Fails]
      rw [run, v.anykvp_eq]
      exact expectPair_settles _ codes _ _ (fun ctx s inside => (v.settles fuel inside).forth) inside

end MnCommon.Jparse
