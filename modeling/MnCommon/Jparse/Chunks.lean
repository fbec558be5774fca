import MnCommon.Jparse.Model

/-! How the bytes come in makes no difference. Before that, the ends of the values and
of the loops, which the results of what has been read decide. -/

namespace MnCommon.Jparse

open Bytes (Strz)
open Grammars (IsLetter)

variable {S : Type} {ctx ctx' ctx₁ : JparseCtx} {spos : Nat}

/-- The end of a value that has been read. -/
def commaBehind (parsed : JparseRes × JparseCtx × S) : JparseRes × JparseCtx × S :=
  if parsed.1 = .ok then ((nextComma parsed.2.1).1, (nextComma parsed.2.1).2, parsed.2.2) else parsed

theorem match_commaBehind (parsed : JparseRes × JparseCtx × S) :
    (match parsed with
      | (.ok, ctx, s) => ((nextComma ctx).1, (nextComma ctx).2, s)
      | failed => failed) = commaBehind parsed := by
  rcases parsed with ⟨res, last, t⟩
  cases res <;> rfl

theorem expectValue_eq (value : Expect S) (ctx : JparseCtx) (s : S) :
    expectValue value ctx s =
      commaBehind (if (expectMaybeNull ctx).1 = .ok then (.ok, (expectMaybeNull ctx).2, s)
        else value (expectMaybeNull ctx).2 s) := by
  rw [expectValue]
  rcases expectMaybeNull ctx with ⟨res, next⟩
  cases res with
  | ok => rfl
  | _ => exact match_commaBehind (value next s)

theorem commaBehind_ok {parsed : JparseRes × JparseCtx × S} (done : parsed.1 = .ok) :
    commaBehind parsed = ((nextComma parsed.2.1).1, (nextComma parsed.2.1).2, parsed.2.2) := if_pos done

theorem commaBehind_failed {parsed : JparseRes × JparseCtx × S} (failed : parsed.1 ≠ .ok) :
    commaBehind parsed = parsed := if_neg failed

theorem expectValue_null {value : Expect S} {s : S} (null : (expectMaybeNull ctx).1 = .ok) :
    expectValue value ctx s = ((nextComma (expectMaybeNull ctx).2).1, (nextComma (expectMaybeNull ctx).2).2, s) := by
  rw [expectValue_eq, if_pos null, commaBehind_ok rfl]

theorem expectValue_other {value : Expect S} {s : S} (other : (expectMaybeNull ctx).1 ≠ .ok) :
    expectValue value ctx s = commaBehind (value (expectMaybeNull ctx).2 s) := by
  rw [expectValue_eq, if_neg other]

/-- The end of a loop between brackets, which may not be reached. -/
def loopEnd (reachStop : JparseCtx → JparseRes × JparseCtx) (code : Nat → JparseRes) (spos : Nat)
    (last : JparseRes × JparseCtx × S) : JparseRes × JparseCtx × S :=
  if last.1 = .outOfFuel then last
  else if last.1 = .eos ∨ spos = last.2.1.pos then
    if (reachStop last.2.1).1 = .ok then (.ok, (reachStop last.2.1).2, last.2.2)
    else (code 2, (reachStop last.2.1).2.back spos, last.2.2)
  else (last.1, last.2.1.back spos, last.2.2)

theorem match_stop (code : Nat → JparseRes) (spos : Nat) (t : S) (stopped : JparseRes × JparseCtx) :
    (match stopped with
      | (.ok, ctx) => (.ok, ctx, t)
      | (_, ctx) => (code 2, ctx.back spos, t)) =
      if stopped.1 = .ok then (.ok, stopped.2, t) else (code 2, stopped.2.back spos, t) := by
  rcases stopped with ⟨res, after⟩
  cases res <;> rfl

theorem match_loopEnd (reachStop : JparseCtx → JparseRes × JparseCtx) (code : Nat → JparseRes) (spos : Nat)
    (last : JparseRes × JparseCtx × S) :
    (match last with
      | (.outOfFuel, ctx, s) => (.outOfFuel, ctx, s)
      | (res, ctx, s) =>
          if res = .eos ∨ spos = ctx.pos then
            match reachStop ctx with
            | (.ok, ctx) => (.ok, ctx, s)
            | (_, ctx) => (code 2, ctx.back spos, s)
          else (res, ctx.back spos, s)) = loopEnd reachStop code spos last := by
  rcases last with ⟨res, last, t⟩
  rw [loopEnd]
  dsimp only
  rw [← match_stop]
  cases res <;> rfl

theorem loopEnd_closed {reachStop : JparseCtx → JparseRes × JparseCtx} {code : Nat → JparseRes}
    {last : JparseRes × JparseCtx × S} (fuelled : last.1 ≠ .outOfFuel) (ended : last.1 = .eos ∨ spos = last.2.1.pos)
    (closed : (reachStop last.2.1).1 = .ok) :
    loopEnd reachStop code spos last = (.ok, (reachStop last.2.1).2, last.2.2) := by
  rw [loopEnd, if_neg fuelled, if_pos ended, if_pos closed]

theorem expectIter_eq (reachStart reachStop : JparseCtx → JparseRes × JparseCtx) (code : Nat → JparseRes)
    (cb : Expect S) (ctx : JparseCtx) (s : S) :
    expectIter reachStart reachStop code cb ctx s =
      if (reachStart ctx.begun).1 = .ok then
        loopEnd reachStop code (reachStart ctx.begun).2.pos
          (iterate cb ((reachStart ctx.begun).2.ahead + 2) (reachStart ctx.begun).2 s)
      else (code 1, (reachStart ctx.begun).2.back ctx.pos, s) := by
  rw [expectIter]
  rcases reachStart ctx.begun with ⟨res, next⟩
  cases res with
  | ok => exact match_loopEnd reachStop code next.pos _
  | _ => rfl

namespace JparseCtx

/-- The same place with all the bytes there. -/
def flat (ctx : JparseCtx) : JparseCtx := { ctx with data := ctx.text, feed := [] }

/-- The position is in the data as long as there is more to come, and no chunk is empty. -/
structure Inside (ctx : JparseCtx) : Prop where
  place : ctx.feed = [] ∨ ctx.pos ≤ ctx.data.length
  chunks : ∀ chunk ∈ ctx.feed, chunk ≠ []

@[simp] theorem flat_text (ctx : JparseCtx) : ctx.flat.text = ctx.text := by simp [flat, text]

@[simp] theorem flat_ahead (ctx : JparseCtx) : ctx.flat.ahead = ctx.ahead := by
  rw [ahead, flat_text]
  rfl

@[simp] theorem flat_pos (ctx : JparseCtx) : ctx.flat.pos = ctx.pos := rfl

theorem flat_begun (ctx : JparseCtx) : ctx.flat.begun = ctx.begun.flat := rfl

end JparseCtx

/-- Bytes have come in, and none have gone. -/
structure Later (ctx ctx' : JparseCtx) : Prop where
  inside : ctx'.Inside
  text : ctx'.text = ctx.text
  data : ctx.data.length ≤ ctx'.data.length
  ended : ctx.feed = [] → ctx'.feed = []

theorem Later.refl (inside : ctx.Inside) : Later ctx ctx := ⟨inside, rfl, Nat.le_refl _, id⟩

theorem Later.trans (first : Later ctx ctx₁) (second : Later ctx₁ ctx') : Later ctx ctx' where
  inside := second.inside
  text := second.text.trans first.text
  data := Nat.le_trans first.data second.data
  ended done := second.ended (first.ended done)

/-- An earlier position is still one. -/
theorem Later.back (later : Later ctx ctx') (place : ctx.feed = [] ∨ spos ≤ ctx.data.length) :
    Later ctx (ctx'.back spos) := by
  refine ⟨⟨?_, later.inside.chunks⟩, later.text, later.data, later.ended⟩
  rcases place with done | within
  · exact .inl (later.ended done)
  · exact .inr (Nat.le_trans within later.data)

/-- The same result, and the same place in the same text. -/
structure Twin (R : S → S → Prop) (ctx : JparseCtx) (a b : JparseRes × JparseCtx × S) : Prop where
  res : b.1 = a.1
  place : b.2.1 = a.2.1.flat
  written : R a.2.2 b.2.2
  later : Later ctx a.2.1

theorem Twin.parts {r r' : JparseRes} {a a' : JparseCtx} {t t' : S} (twin : Twin R ctx (r, a, t) (r', a', t')) :
    r' = r ∧ a' = a.flat ∧ R t t' ∧ Later ctx a := ⟨twin.res, twin.place, twin.written, twin.later⟩

theorem Twin.same {a b : JparseRes × JparseCtx × S} (twin : Twin Eq ctx a b) : b = (a.1, a.2.1.flat, a.2.2) := by
  rcases b with ⟨res, place, written⟩
  rw [← twin.res, ← twin.place, twin.written]

theorem fetch_flat (inside : ctx.Inside) :
    ctx.flat.fetch = (ctx.fetch.1, ctx.fetch.2.flat) ∧ Later ctx ctx.fetch.2 ∧ ctx.fetch.2.pos = ctx.pos ∧
      (ctx.fetch.1 ≠ none → ctx.pos < ctx.fetch.2.data.length) := by
  by_cases within : ctx.pos < ctx.data.length
  · have same : ctx.text.getD ctx.pos 0 = ctx.data.getD ctx.pos 0 := by
      simp [JparseCtx.text, List.getElem?_append_left within]
    have more : ctx.flat.pos < ctx.flat.data.length := by
      change ctx.pos < (ctx.data ++ ctx.feed.flatten).length
      rw [List.length_append]
      omega
    rw [JparseCtx.fetch, JparseCtx.fetch, if_pos within, if_pos more]
    refine ⟨?_, .refl inside, rfl, fun _ => within⟩
    change (some (ctx.text.getD ctx.pos 0), ctx.flat) = _
    rw [same]
  · cases feed : ctx.feed with
    | nil =>
        have same : ctx.flat = ctx := by
          cases ctx
          cases feed
          simp [JparseCtx.flat, JparseCtx.text]
        rw [same, JparseCtx.fetch, if_neg within, feed, same]
        exact ⟨rfl, .refl inside, rfl, fun wrong => absurd rfl wrong⟩
    | cons chunk feed' =>
        have some : chunk ≠ [] := inside.chunks chunk (by rw [feed]; exact List.mem_cons_self)
        have long : 0 < chunk.length := List.length_pos_iff.mpr some
        have place : ctx.pos ≤ ctx.data.length := by
          rcases inside.place with done | place
          · rw [feed] at done
            cases done
          · exact place
        have text : ctx.text = (ctx.data ++ chunk) ++ feed'.flatten := by
          rw [JparseCtx.text, feed, List.flatten_cons, List.append_assoc]
        have next : ctx.pos < (ctx.data ++ chunk).length := by
          rw [List.length_append]
          omega
        have more : ctx.flat.pos < ctx.flat.data.length := by
          change ctx.pos < ctx.text.length
          rw [text, List.length_append]
          omega
        have same : ctx.text.getD ctx.pos 0 = (ctx.data ++ chunk).getD ctx.pos 0 := by
          rw [text, List.getD_eq_getElem?_getD, List.getElem?_append_left next, ← List.getD_eq_getElem?_getD]
        rw [JparseCtx.fetch, JparseCtx.fetch, if_neg within, if_pos more, feed]
        refine ⟨?_, ⟨⟨.inr (Nat.le_of_lt next), ?_⟩, ?_, ?_, ?_⟩, rfl, fun _ => next⟩
        · change (Option.some (ctx.text.getD ctx.pos 0), ctx.flat) = (Option.some ((ctx.data ++ chunk).getD ctx.pos 0), _)
          rw [same, JparseCtx.flat, text]
          rfl
        · intro other among
          exact inside.chunks other (by rw [feed]; exact List.mem_cons_of_mem _ among)
        · exact text.symm
        · change ctx.data.length ≤ (ctx.data ++ chunk).length
          rw [List.length_append]
          omega
        · rw [feed]
          exact nofun

theorem scan_flat (step : S → UInt8 → Option S) (fuel : Nat) (st : S) (inside : ctx.Inside) :
    scan step fuel st ctx.flat =
        ((scan step fuel st ctx).1, (scan step fuel st ctx).2.1, (scan step fuel st ctx).2.2.flat) ∧
      Later ctx (scan step fuel st ctx).2.2 ∧
      ((scan step fuel st ctx).1 ≠ none → (scan step fuel st ctx).2.2.pos < (scan step fuel st ctx).2.2.data.length) := by
  induction fuel generalizing st ctx with
  | zero => exact ⟨rfl, .refl inside, fun wrong => absurd rfl wrong⟩
  | succ fuel ih =>
      rcases fetch_flat inside with ⟨same, later, pos, within⟩
      rw [scan, scan, same]
      rcases fetched : ctx.fetch with ⟨ch, next⟩
      rw [fetched] at later pos within
      cases ch with
      | none => exact ⟨rfl, later, fun wrong => absurd rfl wrong⟩
      | some ch =>
          have here : next.pos < next.data.length := by
            rw [pos]
            exact within (by simp)
          dsimp only
          cases moved : step st ch with
          | none => exact ⟨rfl, later, fun _ => here⟩
          | some st' =>
              have inside' : JparseCtx.Inside { next with pos := next.pos + 1 } := ⟨.inr here, later.inside.chunks⟩
              have onward : Later ctx { next with pos := next.pos + 1 } := ⟨inside', later.text, later.data, later.ended⟩
              rcases ih st' inside' with ⟨same', later', within'⟩
              exact ⟨same', onward.trans later', within'⟩

theorem fetch_eof (eof : ctx.fetch.1 = none) : ctx.fetch.2.feed = [] := by
  rw [JparseCtx.fetch] at eof ⊢
  split_ifs at eof ⊢ with within
  cases feed : ctx.feed with
  | nil => exact feed
  | cons chunk feed' =>
      rw [feed] at eof
      cases eof

/-- With enough fuel a loop comes to an end mark only at the end of the file. -/
theorem scan_eof (step : S → UInt8 → Option S) (fuel : Nat) (st : S) (inside : ctx.Inside) (enough : ctx.ahead < fuel)
    (eof : (scan step fuel st ctx).1 = none) : (scan step fuel st ctx).2.2.feed = [] := by
  induction fuel generalizing st ctx with
  | zero => exact absurd enough (Nat.not_lt_zero _)
  | succ fuel ih =>
      rcases fetch_flat inside with ⟨-, later, pos, within⟩
      have ended := @fetch_eof ctx
      rw [scan] at eof ⊢
      rcases fetched : ctx.fetch with ⟨ch, next⟩
      rw [fetched] at later pos within eof ended
      cases ch with
      | none => exact ended rfl
      | some ch =>
          have here : next.pos < next.data.length := by
            rw [pos]
            exact within (by simp)
          dsimp only at eof ⊢
          cases moved : step st ch with
          | none =>
              rw [moved] at eof
              cases eof
          | some st' =>
              rw [moved] at eof
              have more : next.pos < next.text.length := by
                rw [JparseCtx.text, List.length_append]
                omega
              have same : next.pos = ctx.pos := pos
              have fewer : JparseCtx.ahead { next with pos := next.pos + 1 } < fuel := by
                change next.text.length - (next.pos + 1) < fuel
                rw [JparseCtx.ahead] at enough
                rw [later.text] at more ⊢
                omega
              exact ih st' ⟨.inr here, later.inside.chunks⟩ fewer eof

theorem scanAll_flat (step : S → UInt8 → Option S) (st : S) (inside : ctx.Inside) :
    scanAll step st ctx.flat =
        ((scanAll step st ctx).1, (scanAll step st ctx).2.1, (scanAll step st ctx).2.2.flat) ∧
      Later ctx (scanAll step st ctx).2.2 ∧
      ((scanAll step st ctx).1 ≠ none → (scanAll step st ctx).2.2.pos < (scanAll step st ctx).2.2.data.length) ∧
      ((scanAll step st ctx).1 = none → (scanAll step st ctx).2.2.feed = []) := by
  rw [scanAll, scanAll, JparseCtx.flat_ahead]
  rcases scan_flat step (ctx.ahead + 1) st inside with ⟨same, later, within⟩
  exact ⟨same, later, within, scan_eof step _ st inside (Nat.lt_succ_self _)⟩

/-! One operation after the other. -/

def Steady (f : JparseCtx → JparseRes × JparseCtx) : Prop :=
  ∀ ctx : JparseCtx, ctx.Inside → f ctx.flat = ((f ctx).1, (f ctx).2.flat) ∧ Later ctx (f ctx).2

/-- Of what is read, all is the same that `R` looks at. -/
def Reads (R : S → S → Prop) (f : JparseCtx → JparseRes × JparseCtx × S) : Prop :=
  ∀ ctx : JparseCtx, ctx.Inside → Twin R ctx (f ctx) (f ctx.flat)

theorem reachNonblank_steady : Steady reachNonblank := by
  intro ctx inside
  rcases scanAll_flat (passing jsnIsSpace) () inside with ⟨same, later, -⟩
  rw [reachNonblank, reachNonblank, same]
  rcases scanned : scanAll (passing jsnIsSpace) () ctx with ⟨_ | ch, st, next⟩
  · rw [scanned] at later
    exact ⟨rfl, later⟩
  · rw [scanned] at later
    exact ⟨rfl, later⟩

theorem reachBody_steady (delim : UInt8) : Steady (reachBody delim) := by
  intro ctx inside
  rcases scanAll_flat (passing fun ch => ch ≠ delim && jsnIsSpace ch) () inside with ⟨same, later, within, -⟩
  rw [reachBody, reachBody, same]
  rcases scanned : scanAll (passing fun ch => ch ≠ delim && jsnIsSpace ch) () ctx with ⟨ch, st, next⟩
  rw [scanned] at later within
  cases ch with
  | none => exact ⟨rfl, later⟩
  | some ch =>
      dsimp only
      split_ifs with found
      · have here : next.pos < next.data.length := within (by simp)
        exact ⟨rfl, ⟨.inr here, later.inside.chunks⟩, later.text, later.data, later.ended⟩
      · exact ⟨rfl, later.back inside.place⟩

theorem probeBody_steady (delim : UInt8) : Steady (probeBody delim) := by
  intro ctx inside
  rcases scanAll_flat (passing fun ch => ch ≠ delim && jsnIsSpace ch) () inside with ⟨same, later, -, -⟩
  rw [probeBody, probeBody, same]
  rcases scanned : scanAll (passing fun ch => ch ≠ delim && jsnIsSpace ch) () ctx with ⟨ch, st, next⟩
  rw [scanned] at later
  cases ch with
  | none => exact ⟨rfl, later⟩
  | some ch =>
      dsimp only
      split_ifs with found
      · exact ⟨rfl, later⟩
      · exact ⟨rfl, later.back inside.place⟩

theorem since_flat {start : Nat} (within : ctx.feed = [] ∨ ctx.pos ≤ ctx.data.length) :
    ctx.flat.since start = ctx.since start := by
  change (ctx.text.take ctx.pos).drop start = (ctx.data.take ctx.pos).drop start
  rcases within with done | within
  · rw [JparseCtx.text, done, List.flatten_nil, List.append_nil]
  · rw [JparseCtx.text, List.take_append_of_le_length within]

theorem JparseCtx.Inside.begun (inside : ctx.Inside) : ctx.begun.Inside := ⟨inside.place, inside.chunks⟩

theorem Later.of_begun (later : Later ctx.begun ctx') : Later ctx ctx' :=
  ⟨later.inside, later.text, later.data, later.ended⟩

theorem jparseExpectTok_reads : Reads Eq jparseExpectTok := by
  intro ctx inside
  rcases reachNonblank_steady ctx.begun inside.begun with ⟨same, later⟩
  rw [jparseExpectTok, jparseExpectTok, JparseCtx.flat_begun, same]
  rcases reached : reachNonblank ctx.begun with ⟨res, next⟩
  rw [reached] at later
  cases res with
  | ok =>
      rcases scanAll_flat (passing fun ch => IsLetter ch) () later.inside with ⟨same', later', -⟩
      dsimp only
      rw [same']
      rcases scanned : scanAll (passing fun ch => IsLetter ch) () next with ⟨ch, st, last⟩
      rw [scanned] at later'
      have slices := @since_flat last next.pos later'.inside.place
      exact ⟨rfl, rfl, congrArg (fun chars => some (Strz.mk chars)) slices.symm, (later.trans later').of_begun⟩
  | _ => exact ⟨rfl, rfl, rfl, later.of_begun⟩

theorem expectMaybeNull_steady : Steady expectMaybeNull := by
  intro ctx inside
  have twin := jparseExpectTok_reads ctx.begun inside.begun
  have later := twin.later
  rw [expectMaybeNull, expectMaybeNull, JparseCtx.flat_begun, twin.same]
  rcases read : jparseExpectTok ctx.begun with ⟨res, next, v⟩
  rw [read] at later
  cases res with
  | ok =>
      dsimp only
      split_ifs
      · exact ⟨rfl, later.of_begun⟩
      · exact ⟨rfl, later.of_begun.back inside.place⟩
  | _ => exact ⟨rfl, later.of_begun.back inside.place⟩

theorem jparseExpectBool_reads : Reads Eq jparseExpectBool := by
  intro ctx inside
  have twin := jparseExpectTok_reads ctx.begun inside.begun
  have later := twin.later
  rw [jparseExpectBool, jparseExpectBool, JparseCtx.flat_begun, twin.same]
  rcases read : jparseExpectTok ctx.begun with ⟨res, next, v⟩
  rw [read] at later
  cases res with
  | ok =>
      dsimp only
      split_ifs
      · exact ⟨rfl, rfl, rfl, later.of_begun⟩
      · exact ⟨rfl, rfl, rfl, later.of_begun⟩
      · exact ⟨rfl, rfl, rfl, later.of_begun.back inside.place⟩
  | _ => exact ⟨rfl, rfl, rfl, later.of_begun.back inside.place⟩

/-- Of a number there is one or none. -/
theorem jparseExpectFloat_reads : Reads (fun v v' => v.isSome = v'.isSome) jparseExpectFloat := by
  intro ctx inside
  rcases reachNonblank_steady ctx.begun inside.begun with ⟨same, later⟩
  rw [jparseExpectFloat, jparseExpectFloat, JparseCtx.flat_begun, same]
  rcases reached : reachNonblank ctx.begun with ⟨res, next⟩
  rw [reached] at later
  cases res with
  | ok =>
      rcases scanAll_flat floatStep .floatIn later.inside with ⟨same', later', -⟩
      dsimp only
      rw [same']
      exact ⟨rfl, rfl, rfl, (later.trans later').of_begun⟩
  | _ => exact ⟨rfl, rfl, rfl, later.of_begun⟩

theorem jparseExpectStr_reads : Reads Eq jparseExpectStr := by
  intro ctx inside
  rcases reachBody_steady 34 ctx.begun inside.begun with ⟨same, later⟩
  rw [jparseExpectStr, jparseExpectStr, JparseCtx.flat_begun, reachDquote, reachDquote, same]
  rcases reached : reachBody 34 ctx.begun with ⟨res, next⟩
  rw [reached] at later
  cases res with
  | ok =>
      rcases scanAll_flat strStep (.str, false) later.inside with ⟨same', later', within, ended⟩
      dsimp only
      rw [same']
      rcases scanned : scanAll strStep (.str, false) next with ⟨ch, ⟨st, flag⟩, last⟩
      rw [scanned] at later' within ended
      have slices := @since_flat last next.pos later'.inside.place
      have onward : Later next { last with pos := last.pos + 1 } := by
        refine ⟨⟨?_, later'.inside.chunks⟩, later'.text, later'.data, later'.ended⟩
        cases ch with
        | none => exact .inl (ended rfl)
        | some ch => exact .inr (within (by simp))
      refine ⟨rfl, rfl, ?_, (later.trans onward).of_begun⟩
      dsimp only
      rw [JparseCtx.flat_pos, slices]
  | _ => exact ⟨rfl, rfl, rfl, later.of_begun.back inside.place⟩

def Agrees (R : S → S → Prop) (f : Expect S) : Prop :=
  ∀ (ctx : JparseCtx) (s s' : S), ctx.Inside → R s s' → Twin R ctx (f ctx s) (f ctx.flat s')

theorem nextComma_steady : Steady nextComma := by
  intro ctx inside
  rcases reachBody_steady 44 ctx inside with ⟨same, later⟩
  rw [nextComma, nextComma, reachComma, reachComma, same]
  rcases reached : reachBody 44 ctx with ⟨res, next⟩
  rw [reached] at later
  cases res with
  | ok => exact ⟨rfl, later⟩
  | _ => exact ⟨rfl, later⟩

variable {R : S → S → Prop} {value cb : Expect S} {s s' : S}

/-- What comes behind an operation, in the two runs. -/
theorem Twin.andThen {a b : JparseRes × JparseCtx × S} (twin : Twin R ctx a b) {f : JparseCtx → JparseRes × JparseCtx}
    (steady : Steady f) :
    Twin R ctx ((f a.2.1).1, (f a.2.1).2, a.2.2) ((f b.2.1).1, (f b.2.1).2, b.2.2) := by
  rcases steady a.2.1 twin.later.inside with ⟨same, later⟩
  rw [twin.place, same]
  exact ⟨rfl, rfl, twin.written, twin.later.trans later⟩

theorem commaBehind_twin {a b : JparseRes × JparseCtx × S} (twin : Twin R ctx a b) :
    Twin R ctx (commaBehind a) (commaBehind b) := by
  have more := twin.andThen nextComma_steady
  rw [commaBehind, commaBehind, twin.res]
  split_ifs
  · exact more
  · exact twin

theorem expectValue_twin (inside : ctx.Inside) (related : R s s')
    (agrees : ∀ next, Later ctx next → Twin R next (value next s) (value next.flat s')) :
    Twin R ctx (expectValue value ctx s) (expectValue value ctx.flat s') := by
  rcases expectMaybeNull_steady ctx inside with ⟨same, later⟩
  rw [expectValue_eq, expectValue_eq, same]
  apply commaBehind_twin
  split_ifs
  · exact ⟨rfl, rfl, related, later⟩
  · have twin := agrees _ later
    exact ⟨twin.res, twin.place, twin.written, later.trans twin.later⟩

theorem expectAnykvp_agrees {code : Nat → JparseRes} {setKey : Strz → S → S}
    (keeps : ∀ key s s', R s s' → R (setKey key s) (setKey key s')) (agrees : Agrees R value) :
    Agrees R (expectAnykvp code setKey value) := by
  intro ctx s s' inside related
  have twin := jparseExpectStr_reads ctx.begun inside.begun
  have later := twin.later.of_begun
  rw [expectAnykvp, expectAnykvp, JparseCtx.flat_begun, twin.same]
  rcases read : jparseExpectStr ctx.begun with ⟨res, next, key⟩
  rw [read] at later
  have related' : R (key.elim s fun key => setKey key s) (key.elim s' fun key => setKey key s') := by
    cases key with
    | none => exact related
    | some key => exact keeps key s s' related
  cases res with
  | ok =>
      rcases reachBody_steady 58 next later.inside with ⟨same, later'⟩
      dsimp only
      rw [reachColon, reachColon, same]
      rcases colon : reachBody 58 next with ⟨res', next'⟩
      rw [colon] at later'
      cases res' with
      | ok =>
          have twin' := expectValue_twin later'.inside related' fun last later'' =>
            agrees last _ _ later''.inside related'
          exact ⟨twin'.res, twin'.place, twin'.written, later.trans (later'.trans twin'.later)⟩
      | _ => exact ⟨rfl, rfl, related', later.trans later'⟩
  | _ => exact ⟨rfl, rfl, related', later⟩

theorem iterate_agrees (agrees : Agrees R cb) (fuel : Nat) : Agrees R (iterate cb fuel) := by
  induction fuel with
  | zero => exact fun ctx s s' inside related => ⟨rfl, rfl, related, .refl inside⟩
  | succ fuel ih =>
      intro ctx s s' inside related
      have twin := agrees ctx s s' inside related
      rw [iterate, iterate]
      rcases run : cb ctx s with ⟨r, a, t⟩
      rcases run' : cb ctx.flat s' with ⟨r', a', t'⟩
      rw [run, run'] at twin
      rcases twin.parts with ⟨rfl, rfl, written, later⟩
      cases r' with
      | ok =>
          have more := ih a t t' later.inside written
          exact ⟨more.res, more.place, more.written, later.trans more.later⟩
      | _ => exact ⟨rfl, rfl, written, later⟩

theorem loopEnd_twin {next : JparseCtx} {code : Nat → JparseRes} {reachStop : JparseCtx → JparseRes × JparseCtx}
    {a b : JparseRes × JparseCtx × S} (stops : Steady reachStop) (later : Later ctx next) (twin : Twin R next a b) :
    Twin R ctx (loopEnd reachStop code next.pos a) (loopEnd reachStop code next.pos b) := by
  have stop := twin.andThen stops
  have back := Later.back twin.later later.inside.place
  have back' := Later.back stop.later later.inside.place
  have ended : (reachStop b.2.1).1 = (reachStop a.2.1).1 := stop.res
  have place : (reachStop b.2.1).2 = (reachStop a.2.1).2.flat := stop.place
  rw [loopEnd, loopEnd, twin.res, ended, place, twin.place, JparseCtx.flat_pos]
  split_ifs
  · exact ⟨twin.res, twin.place, twin.written, later.trans twin.later⟩
  · exact ⟨rfl, rfl, twin.written, later.trans stop.later⟩
  · exact ⟨rfl, rfl, twin.written, later.trans back'⟩
  · exact ⟨rfl, rfl, twin.written, later.trans back⟩

theorem expectIter_agrees {reachStart reachStop : JparseCtx → JparseRes × JparseCtx} {code : Nat → JparseRes}
    (starts : Steady reachStart) (stops : Steady reachStop) (agrees : Agrees R cb) :
    Agrees R (expectIter reachStart reachStop code cb) := by
  intro ctx s s' inside related
  rcases starts ctx.begun inside.begun with ⟨same, later⟩
  have later := later.of_begun
  rw [expectIter_eq, expectIter_eq, JparseCtx.flat_begun, same]
  dsimp only
  rw [JparseCtx.flat_ahead, JparseCtx.flat_pos, JparseCtx.flat_pos]
  split_ifs
  · exact loopEnd_twin stops later (iterate_agrees agrees _ _ s s' later.inside related)
  · exact ⟨rfl, rfl, related, later.back inside.place⟩

/-! The values that are read. -/

/-- Numbers are left aside. -/
def JparseV.Same : JparseV → JparseV → Prop
  | .f _, .f _ => True
  | v, v' => v = v'

theorem JparseV.Same.refl (v : JparseV) : v.Same v := by
  cases v <;> first | rfl | trivial

theorem JparseV.Same.symm {v v' : JparseV} (same : v.Same v') : v'.Same v := by
  cases v <;> cases v' <;> first | trivial | exact Eq.symm same

theorem JparseV.Same.trans {v v' v'' : JparseV} (first : v.Same v') (second : v'.Same v'') : v.Same v'' := by
  cases v with
  | f text =>
      cases v' with
      | f text' => cases v'' <;> trivial
      | _ => cases first
  | _ =>
      cases v' with
      | f text' => cases first
      | _ => cases first <;> exact second

structure JparseValue.Same (jval jval' : JparseValue) : Prop where
  k : jval.k = jval'.k
  v : jval.v.Same jval'.v
  ty : jval.ty = jval'.ty

theorem JparseValue.Same.symm {jval jval' : JparseValue} (same : jval.Same jval') : jval'.Same jval :=
  ⟨same.k.symm, same.v.symm, same.ty.symm⟩

theorem JparseValue.Same.trans {jval jval' jval'' : JparseValue} (first : jval.Same jval') (second : jval'.Same jval'') :
    jval.Same jval'' :=
  ⟨first.k.trans second.k, first.v.trans second.v, first.ty.trans second.ty⟩

variable {ignore : Expect JparseValue}

theorem jparseExpectAnykvpIgnore_agrees (agrees : Agrees JparseValue.Same ignore) :
    Agrees JparseValue.Same (jparseExpectAnykvpIgnore ignore) :=
  expectAnykvp_agrees (fun _ _ _ same => ⟨rfl, same.v, same.ty⟩) agrees

theorem goingBack_twin {start : Nat} (within : ctx.feed = [] ∨ start ≤ ctx.data.length)
    (twin : Twin R ctx (value ctx s) (value ctx.flat s')) :
    Twin R ctx (goingBack start value ctx s) (goingBack start value ctx.flat s') := by
  rw [goingBack, goingBack]
  rcases run : value ctx s with ⟨r, a, t⟩
  rcases run' : value ctx.flat s' with ⟨r', a', t'⟩
  rw [run, run'] at twin
  rcases twin.parts with ⟨rfl, rfl, written, later⟩
  cases r' with
  | ok => exact ⟨rfl, rfl, written, later⟩
  | _ => exact ⟨rfl, rfl, written, later.back within⟩

theorem jparseExpectItemIgnore_agrees (agrees : Agrees JparseValue.Same ignore) :
    Agrees JparseValue.Same (jparseExpectItemIgnore ignore) := by
  intro ctx jval jval' inside related
  have twin : Twin JparseValue.Same ctx.begun (expectValue (goingBack ctx.pos ignore) ctx.begun jval)
      (expectValue (goingBack ctx.pos ignore) ctx.begun.flat jval') := by
    apply expectValue_twin inside.begun related
    intro next later
    apply goingBack_twin
    · rcases inside.place with done | within
      · exact .inl (later.ended done)
      · exact .inr (Nat.le_trans within later.data)
    · exact agrees next jval jval' later.inside related
  exact ⟨twin.res, twin.place, twin.written, twin.later.of_begun⟩

theorem ignoreStr_agrees : Agrees JparseValue.Same ignoreStr := by
  intro ctx jval jval' inside related
  have twin := jparseExpectStr_reads ctx inside
  have later := twin.later
  rw [ignoreStr, ignoreStr, twin.same]
  rcases read : jparseExpectStr ctx with ⟨res, last, val⟩
  rw [read] at later
  refine ⟨rfl, rfl, ?_, later⟩
  cases val <;> dsimp only [Option.elim] <;> split_ifs
  · exact ⟨related.k, related.v, rfl⟩
  · exact related
  · exact ⟨related.k, rfl, rfl⟩
  · exact ⟨related.k, rfl, related.ty⟩

theorem ignoreFloat_agrees : Agrees JparseValue.Same ignoreFloat := by
  intro ctx jval jval' inside related
  have twin := jparseExpectFloat_reads ctx inside
  rw [ignoreFloat, ignoreFloat]
  rcases read : jparseExpectFloat ctx with ⟨res, last, val⟩
  rcases read' : jparseExpectFloat ctx.flat with ⟨res', last', val'⟩
  rw [read, read'] at twin
  rcases twin with ⟨same, place, written, later⟩
  change res' = res at same
  change last' = last.flat at place
  change val.isSome = val'.isSome at written
  subst same place
  refine ⟨rfl, rfl, ?_, later⟩
  rcases val with _ | text <;> rcases val' with _ | text'
  · dsimp only [Option.elim]
    split_ifs
    · exact ⟨related.k, related.v, rfl⟩
    · exact related
  · cases written
  · cases written
  · dsimp only [Option.elim]
    split_ifs
    · exact ⟨related.k, trivial, rfl⟩
    · exact ⟨related.k, trivial, related.ty⟩

theorem ignoreArray_agrees (agrees : Agrees JparseValue.Same ignore) : Agrees JparseValue.Same (ignoreArray ignore) :=
  fun ctx _ _ inside related => expectIter_agrees (reachBody_steady 91) (reachBody_steady 93)
    (jparseExpectItemIgnore_agrees agrees) ctx _ _ inside ⟨related.k, related.v, rfl⟩

theorem ignoreObject_agrees (agrees : Agrees JparseValue.Same ignore) :
    Agrees JparseValue.Same (ignoreObject ignore) := by
  intro ctx jval jval' inside related
  have typed : JparseValue.Same { jval with ty := .object } { jval' with ty := .object } := ⟨related.k, related.v, rfl⟩
  have twin : Twin JparseValue.Same ctx
      (jparseExpectObjectIter (jparseExpectAnykvpIgnore ignore) ctx { jval with ty := .object })
      (jparseExpectObjectIter (jparseExpectAnykvpIgnore ignore) ctx.flat { jval' with ty := .object }) :=
    expectIter_agrees (reachBody_steady 123) (reachBody_steady 125) (jparseExpectAnykvpIgnore_agrees agrees) ctx _ _
      inside typed
  rw [ignoreObject, ignoreObject]
  rcases run : jparseExpectObjectIter (jparseExpectAnykvpIgnore ignore) ctx { jval with ty := .object } with ⟨r, a, t⟩
  rcases run' : jparseExpectObjectIter (jparseExpectAnykvpIgnore ignore) ctx.flat { jval' with ty := .object }
    with ⟨r', a', t'⟩
  rw [run, run'] at twin
  rcases twin.parts with ⟨rfl, rfl, written, later⟩
  refine ⟨rfl, rfl, ?_, later⟩
  dsimp only
  split_ifs
  · exact ⟨written.k, written.v, rfl⟩
  · exact written

theorem whether_agrees {probe : JparseCtx → JparseRes × JparseCtx} {yes no : Expect JparseValue} (steady : Steady probe)
    (first : Agrees JparseValue.Same yes) (second : Agrees JparseValue.Same no) :
    Agrees JparseValue.Same (whether probe yes no) := by
  intro ctx jval jval' inside related
  rcases steady ctx inside with ⟨same, later⟩
  rw [whether, whether, same]
  rcases probed : probe ctx with ⟨res, next⟩
  rw [probed] at later
  have twin₁ := first next jval jval' later.inside related
  have twin₂ := second next jval jval' later.inside related
  cases res with
  | ok => exact ⟨twin₁.res, twin₁.place, twin₁.written, later.trans twin₁.later⟩
  | _ => exact ⟨twin₂.res, twin₂.place, twin₂.written, later.trans twin₂.later⟩

theorem ignoreOther_agrees (agrees : Agrees JparseValue.Same ignore) : Agrees JparseValue.Same (ignoreOther ignore) :=
  whether_agrees (probeBody_steady 34) ignoreStr_agrees
    (whether_agrees (probeBody_steady 123) (ignoreObject_agrees agrees)
      (whether_agrees (probeBody_steady 91) (ignoreArray_agrees agrees) ignoreFloat_agrees))

theorem ignoreEnd_twin {start : Nat} {a b : JparseRes × JparseCtx × JparseValue}
    (within : ctx.feed = [] ∨ start ≤ ctx.data.length) (twin : Twin JparseValue.Same ctx a b) :
    Twin JparseValue.Same ctx (ignoreEnd start a) (ignoreEnd start b) := by
  rcases a with ⟨r, a, t⟩
  rcases b with ⟨r', a', t'⟩
  rcases twin.parts with ⟨rfl, rfl, written, later⟩
  cases r' with
  | ok | outOfFuel => exact ⟨rfl, rfl, written, later⟩
  | _ => exact ⟨rfl, rfl, written, later.back within⟩

/-- The three places where a value may turn out to be something else. -/
theorem ignoreWithin_succ (depth : Nat) (ctx : JparseCtx) (jval : JparseValue) :
    ignoreWithin (depth + 1) ctx jval =
      let start := reachNonblank ctx.begun
      let null := expectMaybeNull start.2
      let bool := jparseExpectBool null.2
      if start.1 = .ok then
        if null.1 = .ok then (.ok, null.2, { jval with ty := .null })
        else if bool.1 = .ok then
          (.ok, bool.2.1, { jval with v := (bool.2.2.map .b).getD jval.v, ty := .boolean })
        else ignoreEnd start.2.pos (ignoreOther (ignoreWithin depth) bool.2.1 jval)
      else (.expectIgnore 1, start.2, jval) := by
  rw [ignoreWithin]
  dsimp only
  split
  · next start reached =>
      rw [reached, if_pos rfl]
      split
      · next null => rw [null, if_pos rfl]
      · next other null =>
          rw [null, if_neg other]
          split
          · next bool => rw [bool, if_pos rfl]
          · next other bool => rw [bool, if_neg other]
  · next other reached => rw [reached, if_neg other]

theorem ignoreWithin_agrees (depth : Nat) : Agrees JparseValue.Same (ignoreWithin depth) := by
  induction depth with
  | zero => exact fun ctx _ _ inside related => ⟨rfl, rfl, related, .refl inside⟩
  | succ depth ih =>
      intro ctx jval jval' inside related
      rcases reachNonblank_steady ctx.begun inside.begun with ⟨same, later⟩
      rw [ignoreWithin_succ, ignoreWithin_succ, JparseCtx.flat_begun, same]
      dsimp only
      have later := later.of_begun
      generalize reachNonblank ctx.begun = start at later ⊢
      rcases expectMaybeNull_steady start.2 later.inside with ⟨same₁, later₁⟩
      rw [same₁]
      dsimp only
      have literal := jparseExpectBool_reads (expectMaybeNull start.2).2 later₁.inside
      generalize expectMaybeNull start.2 = null at later₁ literal ⊢
      rw [literal.same]
      generalize jparseExpectBool null.2 = bool at literal ⊢
      have onward := later.trans later₁
      split_ifs with reached found read
      · exact ⟨rfl, rfl, ⟨related.k, related.v, rfl⟩, onward⟩
      · refine ⟨rfl, rfl, ⟨related.k, ?_, rfl⟩, onward.trans literal.later⟩
        dsimp only
        cases bool.2.2 with
        | none => exact related.v
        | some b => exact rfl
      · have within : bool.2.1.feed = [] ∨ start.2.pos ≤ bool.2.1.data.length := by
          rcases later.inside.place with done | within
          · exact .inl (literal.later.ended (later₁.ended done))
          · exact .inr (Nat.le_trans within (Nat.le_trans later₁.data literal.later.data))
        have twin := ignoreOther_agrees ih bool.2.1 jval jval' literal.later.inside related
        have ended := ignoreEnd_twin within twin
        exact ⟨ended.res, ended.place, ended.written, (onward.trans literal.later).trans ended.later⟩
      · exact ⟨rfl, rfl, related, later⟩

theorem jparseExpectIgnore_agrees : Agrees JparseValue.Same jparseExpectIgnore := by
  intro ctx jval jval' inside related
  rw [jparseExpectIgnore, jparseExpectIgnore, JparseCtx.flat_ahead]
  exact ignoreWithin_agrees _ ctx jval jval' inside related

end MnCommon.Jparse
