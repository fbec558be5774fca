import MnCommon.JsonParser.Sound

/-! Which texts are accepted, whatever the callbacks are. -/

namespace MnCommon.JsonParser

open Grammars (Json Phrase Lexicon Derives IsDigit IsLetter)

variable {U A X Y : Type} {handlers : JsonHandlers U A} {ctx ctx' ctx₁ : JsonCtx U A} {slot : Slot U A}
  {obj array : Parser U A} {chars rest before seg after : List UInt8} {c : UInt8} {fuel : Nat} {v : Json}
  {first : Opening}

/-! The text around the container. -/

/-- What one character can do there. -/
inductive TopStep (c : UInt8) (ctx : JsonCtx U A) : JsonCtx U A → Prop where
  | container {ctx₁ : JsonCtx U A} {v : Json} {seg rest : List UInt8} : ctx.st = .start → v.Container →
      Passed ctx ctx₁ v seg rest → TopStep c ctx ctx₁
  | unclosed {ctx₁ : JsonCtx U A} : ctx.st = .start → ctx.nest + 1 ≤ ctx₁.nest → Onward ctx ctx₁ → TopStep c ctx ctx₁
  | other : ¬ (ctx.st = .start ∧ (c = 123 ∨ c = 91)) → TopStep c ctx ctx

theorem TopStep.onward (step : TopStep c ctx ctx₁) : Onward ctx ctx₁ := by
  cases step with
  | container _ _ passed => exact passed.onward
  | unclosed _ _ onward => exact onward
  | other _ => exact ⟨rfl, le_rfl⟩

theorem TopStep.of_opened (st : ctx.st = .start) (found : Onward ctx ctx₁ ∧
    (ctx.nest + 1 ≤ ctx₁.nest ∨ ∃ v seg rest, v.Container ∧ Passed ctx ctx₁ v seg rest)) : TopStep c ctx ctx₁ := by
  rcases found with ⟨onward, deeper | ⟨v, seg, rest, container, passed⟩⟩
  · exact .unclosed st deeper onward
  · exact .container st container passed

theorem topBody_ok (objSound : LoopSound ObjRest obj) (arraySound : LoopSound ArrayRest array) {turn : Turn U A}
    (left : ctx.input.drop ctx.idx = c :: rest) (run : topBody handlers obj array c ctx = .ok turn) :
    ∃ ctx₁, turn = .next ctx₁ ∧ TopStep c ctx ctx₁ := by
  rw [topBody] at run
  split_ifs at run with brace bracket
  · rcases map_ok run with ⟨ctx₁, same, opened⟩
    rw [brace.2] at left
    exact ⟨ctx₁, same, .of_opened brace.1 (object_sound objSound left opened)⟩
  · rcases map_ok run with ⟨ctx₁, same, opened⟩
    rw [bracket.2] at left
    exact ⟨ctx₁, same, .of_opened bracket.1 (array_sound arraySound left opened)⟩
  · refine ⟨ctx, (Except.ok.inj run).symm, .other ?_⟩
    rintro ⟨st, rfl | rfl⟩
    · exact brace ⟨st, rfl⟩
    · exact bracket ⟨st, rfl⟩

theorem topLoop_ok (run : topLoop handlers (fuel + 1) ctx = .ok ctx') :
    ctx' = ctx ∨ ∃ c rest ctx₁, ctx.input.drop ctx.idx = c :: rest ∧ c ≠ 0 ∧ TopStep c ctx ctx₁ ∧
      topLoop handlers fuel { ctx₁ with idx := ctx₁.idx + 1 } = .ok ctx' := by
  rcases loops_sound handlers fuel with ⟨objSound, arraySound⟩
  rcases iterate_ok run with ⟨same, -⟩ | ⟨c, rest, left, nonzero, turn | ⟨ctx₁, turn, more⟩⟩
  · exact .inl same
  · rcases topBody_ok objSound arraySound left turn with ⟨ctx₁, wrong, -⟩
    cases wrong
  · rcases topBody_ok objSound arraySound left turn with ⟨ctx₂, same, step⟩
    cases same
    exact .inr ⟨c, rest, ctx₁, left, nonzero, step, more⟩

/-- What has been left open stays open. -/
theorem topLoop_nest (run : topLoop handlers fuel ctx = .ok ctx') : ctx.nest ≤ ctx'.nest := by
  induction fuel generalizing ctx with
  | zero => cases run
  | succ fuel ih =>
      rcases topLoop_ok run with rfl | ⟨c, rest, ctx₁, -, -, step, more⟩
      · exact le_rfl
      · have later := ih more
        change ctx₁.nest ≤ ctx'.nest at later
        cases step with
        | container _ _ passed => exact passed.nest ▸ later
        | unclosed _ deeper _ => exact (le_of_lt deeper).trans later
        | other _ => exact later

/-- A NUL is not passed. -/
theorem topLoop_after (run : topLoop handlers fuel ctx = .ok ctx') (st : ctx.st ≠ .start)
    (whole : ctx'.idx = ctx'.input.length) : ∀ c ∈ ctx.input.drop ctx.idx, c ≠ 0 := by
  induction fuel generalizing ctx with
  | zero => cases run
  | succ fuel ih =>
      rcases topLoop_ok run with rfl | ⟨c, rest, ctx₁, left, nonzero, step, more⟩
      · rw [whole, List.drop_length]
        exact fun c inside => absurd inside List.not_mem_nil
      · cases step with
        | container start _ _ | unclosed start _ _ => exact absurd start st
        | other _ =>
            have others := ih more st
            rw [(Faces.of_left left).step.left] at others
            rw [left]
            exact List.forall_mem_cons.mpr ⟨nonzero, others⟩

theorem topLoop_reading (run : topLoop handlers fuel ctx = .ok ctx') (st : ctx.st = .start) (nest : ctx.nest = -1)
    (whole : ctx'.idx = ctx'.input.length) (out : ctx'.st.isOut = true) (closed : ctx'.nest < 0) :
    ∃ v before seg after, ctx.input.drop ctx.idx = before ++ (seg ++ after) ∧ Reading v before seg after := by
  induction fuel generalizing ctx with
  | zero => cases run
  | succ fuel ih =>
      rcases topLoop_ok run with rfl | ⟨c, rest, ctx₁, left, nonzero, step, more⟩
      · rw [st] at out
        exact absurd out (by decide)
      · cases step with
        | unclosed _ deeper _ =>
            have later := topLoop_nest more
            change ctx₁.nest ≤ ctx'.nest at later
            omega
        | @container _ v seg after _ container passed =>
            have begun : ctx₁.st ≠ .start := by
              intro wrong
              have out₁ := passed.out
              rw [wrong] at out₁
              exact absurd out₁ (by decide)
            have behind := topLoop_after more begun whole
            rw [passed.left] at behind
            exact ⟨v, [], seg, after, passed.text, fun c inside => absurd inside List.not_mem_nil, container,
              passed.derived, behind⟩
        | other marks =>
            rcases ih more st nest with ⟨v, before, seg, after, shape, reading⟩
            rw [(Faces.of_left left).step.left] at shape
            have outside : c ≠ 123 ∧ c ≠ 91 :=
              ⟨fun brace => marks ⟨st, .inl brace⟩, fun bracket => marks ⟨st, .inr bracket⟩⟩
            refine ⟨v, c :: before, seg, after, ?_, ?_, reading.container, reading.derived, reading.after⟩
            · rw [left, shape]
              rfl
            · exact List.forall_mem_cons.mpr ⟨⟨nonzero, outside⟩, reading.before⟩

/-- A text that leaves the context consistent can be read. -/
theorem jsonParse_sound {text : List UInt8} (st : ctx.st = .start) (idx : ctx.idx = 0) (nest : ctx.nest = -1)
    (run : jsonParse handlers text ctx = .ok ctx') (consistent : jsonCtxConsistent ctx' = 0) :
    ∃ v before seg after, text = before ++ (seg ++ after) ∧ Reading v before seg after := by
  rcases consistent_iff.mp consistent with ⟨whole, out, closed, -⟩
  rcases topLoop_reading run st nest whole out closed with ⟨v, before, seg, after, shape, reading⟩
  change text.drop ctx.idx = _ at shape
  rw [idx, List.drop_zero] at shape
  exact ⟨v, before, seg, after, shape, reading⟩


/-! The fuel of the model never runs out. -/

def Finishes (parse : Parse U A X) : Prop := ∀ ctx, parse ≠ .error (.outOfFuel, ctx)

theorem Finishes.ok (x : X) : Finishes (.ok x : Parse U A X) := by
  intro ctx wrong
  cases wrong

theorem Finishes.error {failed : Failure} (other : failed ≠ .outOfFuel) (ctx : JsonCtx U A) :
    Finishes (.error (failed, ctx) : Parse U A X) := by
  intro ctx' wrong
  cases wrong
  exact other rfl

theorem Finishes.bind {parse : Parse U A X} {f : X → Parse U A Y} (finishes : Finishes parse)
    (more : ∀ x, parse = .ok x → Finishes (f x)) : Finishes (parse >>= f) := by
  cases parse with
  | error failed =>
      intro ctx wrong
      cases wrong
      exact finishes _ rfl
  | ok x => exact more x rfl

theorem Finishes.map {parse : Parse U A X} {f : X → Y} (finishes : Finishes parse) : Finishes (parse.map f) := by
  cases parse with
  | error failed =>
      intro ctx wrong
      cases wrong
      exact finishes _ rfl
  | ok x => exact .ok (f x)

theorem Finishes.labelled {label : Failure → Failure} {parse : Parse U A (JsonCtx U A)} (finishes : Finishes parse)
    (labels : ∀ res, res ≠ .outOfFuel → label res ≠ .outOfFuel) : Finishes (labelled label parse) := by
  cases parse with
  | error failed =>
      have other : failed.1 ≠ .outOfFuel := fun wrong => finishes failed.2 (by rw [← wrong])
      simp only [JsonParser.labelled, Except.mapError, if_neg other]
      exact .error (labels _ other) _
  | ok x => exact .ok x

theorem call_finishes (h : JsonHandler U A) (ctx : JsonCtx U A) : Finishes (h.call ctx) := by
  rw [JsonHandler.call]
  cases h.cb with
  | none => exact .ok ctx
  | some cb =>
      dsimp only
      split_ifs
      · exact .error (by simp) _
      · exact .ok _

theorem callWithin_finishes (h : JsonHandler U A) (ctx : JsonCtx U A) : Finishes (h.callWithin ctx) :=
  (call_finishes h _).bind fun _ _ => .ok _

theorem Finishes.ite {P : Prop} [Decidable P] {parse other : Parse U A X} (yes : Finishes parse) (no : Finishes other) :
    Finishes (if P then parse else other) := by
  by_cases holds : P
  · rwa [if_pos holds]
  · rwa [if_neg holds]

theorem strLoop_finishes (chars : List UInt8) (ctx : JsonCtx U A) : Finishes (strLoop chars ctx) := by
  have ended (ctx : JsonCtx U A) : Finishes (strEnd ctx) := .ite (.ok _) (.error (by simp) _)
  fun_induction strLoop chars ctx <;>
    first
      | assumption
      | exact ended _
      | exact .error (by simp) _

theorem numLoop_finishes (chars : List UInt8) (ctx : JsonCtx U A) : Finishes (numLoop chars ctx) := by
  have ended (ctx : JsonCtx U A) : Finishes (numEnd ctx) := .ite (.ok _) (.error (by simp) _)
  fun_induction numLoop chars ctx <;>
    first
      | assumption
      | exact ended _
      | exact .error (by simp) _

theorem tokLoop_finishes (chars : List UInt8) (ctx : JsonCtx U A) : Finishes (tokLoop chars ctx) := by
  have ended (ctx : JsonCtx U A) : Finishes (tokEnd ctx) := .ite (.ok _) (.error (by simp) _)
  fun_induction tokLoop chars ctx <;>
    first
      | assumption
      | exact ended _
      | exact .error (by simp) _

/-- The results of the client's code and of the parser stay apart from the model's own. -/
structure Slot.Plain (slot : Slot U A) : Prop where
  label : ∀ n res, res ≠ .outOfFuel → slot.label n res ≠ .outOfFuel
  badNumber : slot.badNumber ≠ .outOfFuel

/-- Fuel for as many characters as are left. -/
def Enough (n : Nat) (run : Parser U A) : Prop := ∀ ctx, (ctx.input.drop ctx.idx).length < n → Finishes (run ctx)

theorem openObject_finishes {inner : JsonHandler U A} {label : Nat → Failure → Failure}
    (labels : ∀ n res, res ≠ .outOfFuel → label n res ≠ .outOfFuel) (enough : Enough fuel obj)
    (left : ctx.input.drop ctx.idx = c :: rest) (shorter : rest.length < fuel) :
    Finishes (openObject handlers inner label obj ctx) := by
  apply Finishes.bind ((call_finishes _ _).labelled (labels 5))
  intro ctx₁ started
  apply Finishes.bind ((call_finishes _ _).labelled (labels 6))
  intro ctx₂ told
  rcases call_ok (of_labelled started) with ⟨stack, world, rfl⟩
  rcases call_ok (of_labelled told) with ⟨stack', world', rfl⟩
  apply enough
  change (ctx.input.drop (ctx.idx + 1)).length < fuel
  rwa [(Faces.of_left left).step.left]

theorem openArray_finishes {inner : JsonHandler U A} {label : Nat → Failure → Failure}
    (labels : ∀ n res, res ≠ .outOfFuel → label n res ≠ .outOfFuel) (enough : Enough fuel array)
    (left : ctx.input.drop ctx.idx = c :: rest) (shorter : rest.length < fuel) :
    Finishes (openArray handlers inner label array ctx) := by
  apply Finishes.bind ((call_finishes _ _).labelled (labels 2))
  intro ctx₁ started
  apply Finishes.bind ((call_finishes _ _).labelled (labels 3))
  intro ctx₂ told
  rcases call_ok (of_labelled started) with ⟨stack, world, rfl⟩
  rcases call_ok (of_labelled told) with ⟨stack', world', rfl⟩
  apply Finishes.labelled (enough _ ?_) (labels 4)
  change (ctx.input.drop (ctx.idx + 1)).length < fuel
  rwa [(Faces.of_left left).step.left]

theorem jsonParseValue_finishes (plain : slot.Plain) (objEnough : Enough fuel obj) (arrayEnough : Enough fuel array)
    (left : ctx.input.drop ctx.idx = c :: rest) (shorter : rest.length < fuel) (first : Opening) :
    Finishes (jsonParseValue handlers slot obj array ctx first) := by
  cases first with
  | object => exact openObject_finishes plain.label objEnough left shorter
  | array => exact openArray_finishes plain.label arrayEnough left shorter
  | string =>
      apply Finishes.bind (strLoop_finishes _ _)
      exact fun _ _ => (callWithin_finishes _ _).labelled (plain.label 7)
  | number =>
      apply Finishes.bind (numLoop_finishes _ _)
      intro ctx₁ _
      have valued : Finishes (numberValue ctx.idx slot.badNumber ctx₁) := by
        rw [numberValue]
        cases ctx₁.ty with
        | int | float => exact .ok _
        | _ => exact .error plain.badNumber _
      exact valued.bind fun _ _ => (callWithin_finishes _ _).labelled (plain.label 9)
  | token =>
      apply Finishes.bind (tokLoop_finishes _ _)
      exact fun _ _ => (callWithin_finishes _ _).labelled (plain.label 10)

theorem jsonParseKey_finishes (handlers : JsonHandlers U A) (ctx : JsonCtx U A) :
    Finishes (jsonParseKey handlers ctx) :=
  (strLoop_finishes _ _).bind fun _ _ => callWithin_finishes _ _

theorem skipSpace_finishes {n : Failure} (other : n ≠ .outOfFuel) : Finishes (skipSpace n c ctx) :=
  .ite (.ok _) (.error other _)

theorem closeObject_finishes (handlers : JsonHandlers U A) (ctx : JsonCtx U A) : Finishes (closeObject handlers ctx) :=
  (call_finishes _ _).bind fun _ _ => .ok _

theorem closeArray_finishes (handlers : JsonHandlers U A) (n : Nat) (ctx : JsonCtx U A) :
    Finishes (closeArray handlers n ctx) :=
  ((call_finishes _ _).labelled fun _ _ => by simp).bind fun _ _ => .ok _

theorem objBody_finishes (objEnough : Enough fuel obj) (arrayEnough : Enough fuel array)
    (left : ctx.input.drop ctx.idx = c :: rest) (shorter : rest.length < fuel) :
    Finishes (objBody handlers obj array c ctx) := by
  have close : Finishes ((closeObject handlers ctx).map Turn.leave) := (closeObject_finishes _ _).map
  have key : Finishes ((jsonParseKey handlers ctx).map Turn.next) := (jsonParseKey_finishes _ _).map
  have outside : Finishes (if ctx.st.isOut then
      if c = 44 then .ok (.next { ctx with st := .eNext })
      else if c = 125 then (closeObject handlers ctx).map .leave
      else skipSpace (.obj 5) c ctx
    else .error (.obj 7, ctx)) := by
    apply Finishes.ite _ (.error (by simp) _)
    exact .ite (.ok _) (.ite close (skipSpace_finishes (by simp)))
  cases st : ctx.st with
  | ostart =>
      simp only [objBody, st]
      exact .ite close (.ite key (skipSpace_finishes (by simp)))
  | keyOut =>
      simp only [objBody, st]
      exact .ite (.ok _) (skipSpace_finishes (by simp))
  | eValue =>
      simp only [objBody, st]
      cases opening c with
      | none => exact skipSpace_finishes (by simp)
      | some first =>
          have plain : (memberSlot handlers).Plain := ⟨fun _ _ other => other, by simp [memberSlot]⟩
          exact (jsonParseValue_finishes plain objEnough arrayEnough left shorter first).map
  | eNext =>
      simp only [objBody, st]
      exact .ite key (skipSpace_finishes (by simp))
  | _ => simpa only [objBody, st] using outside

theorem arrayBody_finishes (objEnough : Enough fuel obj) (arrayEnough : Enough fuel array)
    (left : ctx.input.drop ctx.idx = c :: rest) (shorter : rest.length < fuel) :
    Finishes (arrayBody handlers obj array c ctx) := by
  have close (n : Nat) : Finishes ((closeArray handlers n ctx).map Turn.leave) := (closeArray_finishes _ _ _).map
  have outside : Finishes (if ctx.st.isOut then
      if c = 44 then .ok (.next { ctx with st := .eNext })
      else if c = 93 then (closeArray handlers 12 ctx).map .leave
      else skipSpace (.array 13) c ctx
    else .error (.array 14, ctx)) := by
    apply Finishes.ite _ (.error (by simp) _)
    exact .ite (.ok _) (.ite (close 12) (skipSpace_finishes (by simp)))
  cases st : ctx.st with
  | astart | eNext =>
      simp only [arrayBody, st]
      apply Finishes.ite (close 1)
      cases opening c with
      | none => exact skipSpace_finishes (by simp)
      | some first =>
          have plain : (itemSlot handlers).Plain := ⟨by simp [itemSlot], by simp [itemSlot]⟩
          exact (jsonParseValue_finishes plain objEnough arrayEnough left shorter first).map
  | _ => simpa only [arrayBody, st] using outside

theorem topBody_finishes (objEnough : Enough fuel obj) (arrayEnough : Enough fuel array)
    (left : ctx.input.drop ctx.idx = c :: rest) (shorter : rest.length < fuel) :
    Finishes (topBody handlers obj array c ctx) := by
  apply Finishes.ite
  · exact (openObject_finishes (fun _ _ other => other) objEnough left shorter).map
  · apply Finishes.ite _ (.ok _)
    exact (openArray_finishes (fun _ _ other => other) arrayEnough left shorter).map

/-- Every turn passes a character. -/
theorem Enough.iterate {body : Body U A} {again : Parser U A}
    (finishes : ∀ ctx c rest, ctx.input.drop ctx.idx = c :: rest → rest.length < fuel → Finishes (body c ctx))
    (onward : ∀ ctx ctx' c rest, ctx.input.drop ctx.idx = c :: rest → body c ctx = .ok (.next ctx') → Onward ctx ctx')
    (enough : Enough fuel again) : Enough (fuel + 1) (iterate body again) := by
  intro ctx shorter
  rw [JsonParser.iterate, ← List.head?_drop]
  cases left : ctx.input.drop ctx.idx with
  | nil => exact .ok ctx
  | cons c rest =>
      have less : rest.length < fuel := by
        rw [left, List.length_cons] at shorter
        exact Nat.lt_of_succ_lt_succ shorter
      simp only [List.head?_cons]
      apply Finishes.ite (.ok ctx)
      apply Finishes.bind (finishes ctx c rest left less)
      intro turn done
      cases turn with
      | leave ctx₁ => exact .ok ctx₁
      | next ctx₁ =>
          apply enough
          have further := onward ctx ctx₁ c rest left done
          have length := congrArg List.length left
          rw [List.length_drop, List.length_cons] at length
          have input : ctx₁.input = ctx.input := further.input
          have idx : ctx.idx ≤ ctx₁.idx := further.idx
          change (ctx₁.input.drop (ctx₁.idx + 1)).length < fuel
          rw [List.length_drop, input]
          omega

theorem loops_finish (handlers : JsonHandlers U A) (fuel : Nat) :
    Enough fuel (jsonParseObj handlers fuel) ∧ Enough fuel (jsonParseArray handlers fuel) := by
  induction fuel with
  | zero =>
      constructor
      · exact fun _ shorter => absurd shorter (Nat.not_lt_zero _)
      · exact fun _ shorter => absurd shorter (Nat.not_lt_zero _)
  | succ fuel ih =>
      rcases ih with ⟨obj, array⟩
      rcases loops_sound handlers fuel with ⟨objSound, arraySound⟩
      constructor
      · exact .iterate (fun _ _ _ left shorter => objBody_finishes obj array left shorter)
          (fun _ _ _ _ left turn => (obj_next_sound objSound arraySound left turn).1) obj
      · exact .iterate (fun _ _ _ left shorter => arrayBody_finishes obj array left shorter)
          (fun _ _ _ _ left turn => (array_next_sound objSound arraySound left turn).1) array

theorem topLoop_finishes (handlers : JsonHandlers U A) (fuel : Nat) : Enough fuel (topLoop handlers fuel) := by
  induction fuel with
  | zero => exact fun _ shorter => absurd shorter (Nat.not_lt_zero _)
  | succ fuel ih =>
      rcases loops_finish handlers fuel with ⟨obj, array⟩
      rcases loops_sound handlers fuel with ⟨objSound, arraySound⟩
      apply Enough.iterate (fun _ _ _ left shorter => topBody_finishes obj array left shorter) _ ih
      intro ctx ctx' c rest left turn
      rcases topBody_ok objSound arraySound left turn with ⟨ctx₁, same, step⟩
      cases same
      exact step.onward

theorem jsonParse_finishes (handlers : JsonHandlers U A) (text : List UInt8) (ctx : JsonCtx U A) :
    Finishes (jsonParse handlers text ctx) := by
  apply topLoop_finishes
  change (text.drop ctx.idx).length < text.length + 1
  rw [List.length_drop]
  exact Nat.lt_succ_of_le (Nat.sub_le _ _)

end MnCommon.JsonParser
