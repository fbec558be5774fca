import MnCommon.JsonParser.Compare

/-! What the client is told about the escapes in a string. -/

namespace MnCommon.JsonParser

/-- `JPS_FNEEDUNESCAPE` when the callback for a string is made, and the slice that it finds. -/
structure Hint where
  needUnescape : Bool
  slice : List UInt8
  deriving DecidableEq

variable {U A B : Type} {handlers : JsonHandlers U A} {ctx : JsonCtx U A} {loops : List Container} {l : Look}
  {body rest : List UInt8}

def hintOf (ctx : JsonCtx U A) : Option Hint :=
  match ctx.ty, ctx.v with
  | .string, .s start stop => some ⟨ctx.flags.needUnescape, (ctx.input.drop start).take (stop - start)⟩
  | _, _ => none

/-- The context as a client sees it that keeps no hints. -/
def JsonCtx.plain (ctx : JsonCtx U (A × B)) : JsonCtx U A := { ctx with world := ctx.world.1 }

/-- A client that notes the hints of all strings. -/
def JsonHandler.hinted (h : JsonHandler U A) : JsonHandler U (A × List Hint) where
  cb := some fun ctx udata =>
    match h.cb with
    | none => (0, ctx.stack, ctx.world.1, ctx.world.2 ++ (hintOf ctx).toList)
    | some cb =>
        let (res, stack, world) := cb ctx.plain udata
        (res, stack, world, ctx.world.2 ++ (hintOf ctx).toList)
  udata := h.udata

def JsonHandlers.hinted (handlers : JsonHandlers U A) : JsonHandlers U (A × List Hint) where
  ostart := handlers.ostart.hinted
  ostop := handlers.ostop.hinted
  astart := handlers.astart.hinted
  astop := handlers.astop.hinted
  key := handlers.key.hinted
  value := handlers.value.hinted
  item := handlers.item.hinted

/-- The hint tells whether the string begins with a backslash. -/
def Hint.Begins (hint : Hint) : Prop := hint.needUnescape = decide (hint.slice.head? = some 92)

def Marked (hints : List Hint) : Prop := ∀ hint ∈ hints, hint.Begins

/-- A client that is called now gets no other hint. -/
def Hinting (l : Look) (ctx : JsonCtx U A) : Prop :=
  ∀ loops st hint, l.notices loops st ≠ [] → hintOf ctx = some hint → hint.Begins

theorem hinted_get (handlers : JsonHandlers U A) (k : JsonCallback) : handlers.hinted.get k = (handlers.get k).hinted := by
  cases k <;> rfl

theorem hinted_call (n : Notice) (ctx : JsonCtx U (A × List Hint)) :
    ∃ res stack world,
      (handlers.hinted.noticed n).call ctx =
        (if res ≠ 0 then
          .error (.callback res, { ctx with stack := stack, world := (world, ctx.world.2 ++ (hintOf ctx).toList) })
        else .ok { ctx with stack := stack, world := (world, ctx.world.2 ++ (hintOf ctx).toList) }) ∧
      (handlers.noticed n).call ctx.plain =
        (if res ≠ 0 then .error (.callback res, { ctx.plain with stack := stack, world := world })
        else .ok { ctx.plain with stack := stack, world := world }) := by
  cases cb : (handlers.get n.callback).cb with
  | none =>
      refine ⟨0, ctx.stack, ctx.world.1, ?_, ?_⟩
      · simp [JsonHandlers.noticed, hinted_get, JsonHandler.hinted, JsonHandler.call, cb]
      · simp [JsonHandlers.noticed, JsonHandler.call, cb, JsonCtx.plain]
  | some cb' =>
      rcases ran : cb' ctx.plain (handlers.get n.data).udata with ⟨res, stack, world⟩
      refine ⟨res, stack, world, ?_, ?_⟩
      · simp [JsonHandlers.noticed, hinted_get, JsonHandler.hinted, JsonHandler.call, cb, ran]
      · simp [JsonHandlers.noticed, JsonHandler.call, cb, ran]

theorem tokenValue_plain (tmp : Nat) (ctx : JsonCtx U (A × B)) : (tokenValue tmp ctx).plain = tokenValue tmp ctx.plain := by
  simp only [tokenValue, apply_ite JsonCtx.plain]
  rfl

theorem ready_plain (l : Look) (loops : List Container) (ctx : JsonCtx U (A × B)) :
    (l.ready loops ctx).plain = l.ready loops ctx.plain := by
  cases l with
  | number chars => cases chars <;> rfl
  | token chars => exact congrArg JsonCtx.inward (tokenValue_plain _ _)
  | _ => rfl

theorem hintOf_other (other : ctx.ty ≠ .string) : hintOf ctx = none := by
  cases ty : ctx.ty with
  | string => exact absurd ty other
  | _ => simp only [hintOf, ty]

theorem tokenValue_ty (tmp : Nat) (other : ctx.ty ≠ .string) : (tokenValue tmp ctx).ty ≠ .string := by
  simp only [tokenValue]
  split_ifs
  · simp
  · simp
  · simp
  · exact other

theorem endedType_ne (loops : List Container) : endedType loops ≠ .string := by
  cases loops with
  | nil => exact nofun
  | cons k outer =>
      cases k with
      | object => exact nofun
      | array => exact nofun

theorem numMarked_ty (c : UInt8) (cs : List UInt8) : (ctx.numMarked c cs).ty ≠ .string := by
  simp only [JsonCtx.numMarked, JsonCtx.numEnded]
  split_ifs
  · simp
  · simp

/-- What a callback for a string finds. -/
theorem hintOf_ready (passes : Passes loops ctx.st (ctx.input.drop ctx.idx) l) :
    Hinting l (l.ready loops ctx) := by
  intro loops' st hint told found
  have none : ∀ ctx : JsonCtx U A, ctx.ty ≠ .string → hintOf ctx = some hint → hint.Begins := by
    intro ctx other here
    rw [hintOf_other other] at here
    cases here
  cases l with
  | key body | string body =>
      rcases passes with ⟨closed, after, left⟩
      have text := (Faces.of_left left).step.slice
      simp only [Look.ready, hintOf, JsonCtx.inward, JsonCtx.strMarked, JsonCtx.strEnded, JsonCtx.strBegun,
        Nat.add_sub_cancel_left, text, Option.some.injEq] at found
      rw [← found]
      rfl
  | number chars =>
      rcases passes with ⟨c, cs, d, after, rfl, -⟩
      exact none _ (numMarked_ty c cs) found
  | token chars =>
      have null : JsonType.null ≠ .string := by simp
      exact none _ (tokenValue_ty _ null) found
  | enter k => exact none _ (endedType_ne [k]) found
  | leave => exact none _ (endedType_ne loops) found
  | _ => exact absurd rfl told

theorem hinted_simulation (handlers : JsonHandlers U A) :
    Simulation handlers.hinted handlers (fun ctx ctx' => ctx.plain = ctx' ∧ Marked ctx.world.2)
      (fun l ctx ctx' => ctx.plain = ctx' ∧ Marked ctx.world.2 ∧ Hinting l ctx)
      (fun ctx ctx' => ctx.world.1 = ctx'.world ∧ Marked ctx.world.2) where
  place := by
    rintro ctx _ ⟨rfl, -⟩
    exact ⟨rfl, rfl, rfl⟩
  ready := by
    rintro ctx _ loops l ⟨rfl, marked⟩ looks goes
    have passes := look_passes loops ctx.st (ctx.input.drop ctx.idx)
    rw [looks] at passes
    refine ⟨ready_plain l loops ctx, ?_, hintOf_ready passes⟩
    rwa [ready_world]
  call := by
    rintro loops st l ctx _ n told ⟨rfl, marked, hinting⟩
    rcases @hinted_call U A handlers n ctx with ⟨res, stack, world, run, run'⟩
    have more : Marked (ctx.world.2 ++ (hintOf ctx).toList) := by
      intro hint inside
      rcases List.mem_append.mp inside with before | now
      · exact marked hint before
      · exact hinting loops st hint (List.ne_nil_of_mem told) (Option.mem_toList.mp now)
    by_cases zero : res = 0
    · rw [if_neg (not_not.mpr zero)] at run run'
      exact .inl ⟨_, _, run, run', rfl, more, hinting⟩
    · rw [if_pos zero] at run run'
      exact .inr ⟨_, _, _, run, run', rfl, more⟩
  settled := by
    rintro ctx _ l ⟨rfl, marked, -⟩
    refine ⟨?_, ?_⟩
    · cases l <;> rfl
    · rwa [settled_world]
  finished := by
    rintro ctx _ n ⟨rfl, marked⟩
    exact ⟨rfl, marked⟩
  rejected := by
    rintro ctx _ ⟨rfl, marked⟩
    exact ⟨rfl, marked⟩
  cut := by
    rintro ctx _ ctx₁ ctx₁' ⟨rfl, marked⟩ cut cut'
    refine ⟨(congrArg Prod.fst cut.world).trans cut'.world.symm, ?_⟩
    rwa [cut.world]

/-- The hints of all the calls of a parse. -/
def hintsGiven (handlers : JsonHandlers U A) (text : List UInt8) (ctx : JsonCtx U A) : List Hint :=
  (leftBy (jsonParse handlers.hinted text { ctx with world := (ctx.world, []) })).world.2

theorem hintsGiven_marked (handlers : JsonHandlers U A) (text : List UInt8) (st : ctx.st = .start) (idx : ctx.idx = 0)
    (nest : ctx.nest = -1) : Marked (hintsGiven handlers text ctx) := by
  let noted : JsonCtx U (A × List Hint) := { ctx with world := (ctx.world, []) }
  have first : Marked ([] : List Hint) := fun hint inside => absurd inside List.not_mem_nil
  have same : Same _ (jsonParse handlers.hinted text noted) (jsonParse handlers text ctx) :=
    (hinted_simulation handlers).jsonParse st idx nest ⟨rfl, first⟩
  exact same.left.2

/-- A hint is right for the strings without a backslash and for those that begin with one. -/
theorem hint_right_iff (handlers : JsonHandlers U A) (text : List UInt8) (ctx : JsonCtx U A) (st : ctx.st = .start)
    (idx : ctx.idx = 0) (nest : ctx.nest = -1) :
    ∀ hint ∈ hintsGiven handlers text ctx,
      (hint.needUnescape = true ↔ 92 ∈ hint.slice) ↔ (92 ∈ hint.slice → hint.slice.head? = some 92) := by
  intro hint given
  have begins : hint.needUnescape = decide (hint.slice.head? = some 92) :=
    hintsGiven_marked handlers text st idx nest hint given
  have within : hint.slice.head? = some 92 → 92 ∈ hint.slice := List.mem_of_head?
  rw [begins, decide_eq_true_iff]
  constructor
  · exact Iff.mpr
  · exact fun first => ⟨within, first⟩

/-- A client without callbacks, and a context that has been initialized. -/
def silent : JsonHandlers Unit Unit := (jsonInit ⟨[], .start, ⟨false, false, false⟩, .undef, .b false, 0, 0, [], ()⟩ none ()).2

def fresh : JsonCtx Unit Unit := (jsonInit ⟨[], .start, ⟨false, false, false⟩, .undef, .b false, 0, 0, [], ()⟩ none ()).1

/-- The string of two characters in an array, the first of which is a backslash. -/
theorem hint_right_iff_newline :
    ⟨true, [92, 110]⟩ ∈ hintsGiven silent [91, 34, 92, 110, 34, 93] fresh ∧
      ((true = true ↔ (92 : UInt8) ∈ ([92, 110] : List UInt8)) ↔
        ((92 : UInt8) ∈ ([92, 110] : List UInt8) → ([92, 110] : List UInt8).head? = some 92)) := by
  have given : ⟨true, [92, 110]⟩ ∈ hintsGiven silent [91, 34, 92, 110, 34, 93] fresh := by decide
  exact ⟨given, hint_right_iff silent _ fresh rfl rfl rfl _ given⟩

/-- With a character in front of the escape, there is no hint. -/
theorem hint_missing :
    ∃ hint ∈ hintsGiven silent [91, 34, 97, 92, 110, 34, 93] fresh, ¬ (hint.needUnescape = true ↔ 92 ∈ hint.slice) := by
  have given : ⟨false, [97, 92, 110]⟩ ∈ hintsGiven silent [91, 34, 97, 92, 110, 34, 93] fresh := by decide
  exact ⟨_, given, by decide⟩

end MnCommon.JsonParser
