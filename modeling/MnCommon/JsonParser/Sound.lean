import MnCommon.JsonParser.Reading
import MnCommon.Memory.Run

/-! What a text is like that the code accepts. -/

namespace MnCommon.JsonParser

open Grammars (Json Phrase Lexicon Derives IsDigit IsLetter IsWord Closed)

variable {U A : Type} {handlers : JsonHandlers U A} {ctx ctx' : JsonCtx U A} {slot : Slot U A} {obj array : Parser U A}
  {chars cs rest after ws seg : List UInt8} {c : UInt8} {fuel : Nat} {first : Opening}

theorem Faces.of_left {input : List UInt8} {idx : Nat} (left : input.drop idx = c :: rest) :
    Faces input idx (c :: rest) := by
  refine ⟨?_, left⟩
  by_contra beyond
  rw [List.drop_eq_nil_of_le (by omega)] at left
  cases left

/-! Calls that return 0. -/

theorem call_ok {h : JsonHandler U A} (run : h.call ctx = .ok ctx') :
    ∃ stack world, ctx' = { ctx with stack := stack, world := world } := by
  rw [JsonHandler.call] at run
  cases cb : h.cb with
  | none =>
      rw [cb] at run
      exact ⟨ctx.stack, ctx.world, (Except.ok.inj run).symm⟩
  | some cb' =>
      rw [cb] at run
      rcases shape : cb' ctx h.udata with ⟨res, stack, world⟩
      simp only [shape] at run
      by_cases zero : res = 0
      · rw [if_neg (not_not.mpr zero)] at run
        exact ⟨stack, world, (Except.ok.inj run).symm⟩
      · rw [if_pos zero] at run
        cases run

theorem callWithin_ok {h : JsonHandler U A} (run : h.callWithin ctx = .ok ctx') :
    ∃ stack world, ctx' = { ctx with stack := stack, world := world } := by
  rw [JsonHandler.callWithin] at run
  cases call : h.call { ctx with nest := ctx.nest + 1 } with
  | error failed =>
      rw [call] at run
      cases run
  | ok seen =>
      rcases call_ok call with ⟨stack, world, rfl⟩
      rw [call] at run
      refine ⟨stack, world, ?_⟩
      rw [← Except.ok.inj run]
      simp

theorem of_labelled {label : Failure → Failure} {parse : Parse U A (JsonCtx U A)}
    (run : labelled label parse = .ok ctx') :
    parse = .ok ctx' := by
  cases parse with
  | error failed => cases run
  | ok seen => exact run

structure Onward (ctx ctx' : JsonCtx U A) : Prop where
  input : ctx'.input = ctx.input
  idx : ctx.idx ≤ ctx'.idx

/-- A value has been read. -/
structure Passed (ctx ctx' : JsonCtx U A) (v : Json) (seg rest : List UInt8) : Prop where
  onward : Onward ctx ctx'
  nest : ctx'.nest = ctx.nest
  out : ctx'.st.isOut = true
  text : ctx.input.drop ctx.idx = seg ++ rest
  left : ctx'.input.drop (ctx'.idx + 1) = rest
  derived : Derives loose (.value v) seg

theorem string_passed (left : ctx.input.drop ctx.idx = 34 :: chars)
    (run : jsonParseValue handlers slot obj array ctx .string = .ok ctx') :
    ∃ v seg rest, Passed ctx ctx' v seg rest := by
  rcases Memory.of_bind_ok run with ⟨ctx₁, scanned, told⟩
  have faces := Faces.of_left left
  rcases jsonParseStr_ok faces scanned with ⟨body, rest, flags, rfl, closed, rfl⟩
  rcases callWithin_ok (of_labelled told) with ⟨stack, world, rfl⟩
  refine ⟨.string body, 34 :: (body ++ [34]), rest, ⟨rfl, ?_⟩, rfl, rfl, ?_, faces.step.advance.step.left,
    .string closed⟩
  · change ctx.idx ≤ ctx.idx + 1 + body.length
    omega
  · rw [left, List.cons_append, List.append_assoc, List.singleton_append]

theorem number_passed (left : ctx.input.drop ctx.idx = c :: chars) (digit : IsDigit c ∨ c = 45)
    (run : jsonParseValue handlers slot obj array ctx .number = .ok ctx') :
    ∃ v seg rest, Passed ctx ctx' v seg rest := by
  rcases Memory.of_bind_ok run with ⟨ctx₁, scanned, valued⟩
  rcases Memory.of_bind_ok valued with ⟨ctx₂, value, told⟩
  have faces := Faces.of_left left
  rw [jsonParseNum_eq faces digit] at scanned
  rcases numLoop_ok rfl scanned with ⟨cs, d, rest, rfl, all, ends, rfl⟩
  have faces' : Faces ctx.input ctx.idx (c :: cs ++ d :: rest) := faces
  rw [numMarked_value all ends faces' slot.badNumber] at value
  rcases callWithin_ok (of_labelled told) with ⟨stack, world, rfl⟩
  rw [← Except.ok.inj value]
  have index : (ctx.numBegun.numEnded cs).idx + 1 = ctx.idx + (c :: cs).length := by
    simp only [JsonCtx.numBegun, JsonCtx.numEnded, List.length_cons]
    omega
  refine ⟨.number (c :: cs), c :: cs, d :: rest, ⟨rfl, ?_⟩, rfl, rfl, left, ?_, .number ⟨c, cs, rfl, digit, all⟩⟩
  · change ctx.idx ≤ (ctx.numBegun.numEnded cs).idx
    rw [List.length_cons] at index
    omega
  · change ctx.input.drop ((ctx.numBegun.numEnded cs).idx + 1) = _
    rw [index]
    exact faces.advance.left

theorem token_passed (left : ctx.input.drop ctx.idx = c :: chars) (letter : IsLetter c)
    (run : jsonParseValue handlers slot obj array ctx .token = .ok ctx') :
    ∃ v seg rest, Passed ctx ctx' v seg rest := by
  rcases Memory.of_bind_ok run with ⟨ctx₁, scanned, told⟩
  have faces := Faces.of_left left
  rw [jsonParseTok_eq faces letter] at scanned
  rcases tokLoop_ok rfl scanned with ⟨cs, d, rest, rfl, all, ends, rfl⟩
  have index : ctx.idx + 1 + cs.length - 1 = ctx.idx + cs.length := by omega
  have faces' : Faces ctx.input ctx.idx (c :: cs ++ d :: rest) := faces
  rcases tokenValue_seen faces' .value with ⟨ty, v, made, -⟩
  change labelled _
    (slot.handler.callWithin (tokenValue ctx.idx (ctx.tokEnded (ctx.idx + 1 + cs.length - 1)))) = _ at told
  rw [index, made] at told
  rcases callWithin_ok (of_labelled told) with ⟨stack, world, rfl⟩
  exact ⟨.token (c :: cs), c :: cs, d :: rest, ⟨rfl, Nat.le_add_right _ _⟩, rfl, rfl, left, faces'.advance.left,
    .token ⟨c, cs, rfl, letter, all⟩⟩

/-- What a loop finds of its container from a state on, up to the end of it. -/
def OutRest (close : UInt8) (phrase : List UInt8 → Prop) (rest after : List UInt8) : Prop :=
  ∃ ws, loose.Spaces ws ∧ (rest = ws ++ close :: after ∨
    ∃ ws' seg, loose.Spaces ws' ∧ phrase seg ∧ rest = ws ++ 44 :: (ws' ++ (seg ++ after)))

def Members (seg : List UInt8) : Prop := ∃ ms, Derives loose (.members ms) seg

def ValueRest (rest after : List UInt8) : Prop :=
  ∃ ws v seg tail, loose.Spaces ws ∧ Derives loose (.value v) seg ∧ rest = ws ++ (seg ++ tail) ∧
    OutRest 125 Members tail after

def ObjRest (st : JsonState) (rest after : List UInt8) : Prop :=
  match st with
  | .ostart => ∃ ws, loose.Spaces ws ∧ (rest = ws ++ 125 :: after ∨ ∃ seg, Members seg ∧ rest = ws ++ (seg ++ after))
  | .keyOut => ∃ ws tail, loose.Spaces ws ∧ rest = ws ++ 58 :: tail ∧ ValueRest tail after
  | .eValue => ValueRest rest after
  | .eNext => ∃ ws seg, loose.Spaces ws ∧ Members seg ∧ rest = ws ++ (seg ++ after)
  | st => st.isOut = true ∧ OutRest 125 Members rest after

theorem OutRest.space {close : UInt8} {phrase : List UInt8 → Prop} (space : loose.space c)
    (found : OutRest close phrase rest after) : OutRest close phrase (c :: rest) after := by
  rcases found with ⟨ws, spaces, shape⟩
  refine ⟨c :: ws, List.forall_mem_cons.mpr ⟨space, spaces⟩, ?_⟩
  rcases shape with rfl | ⟨ws', seg, spaces', more, rfl⟩
  · exact .inl rfl
  · exact .inr ⟨ws', seg, spaces', more, rfl⟩

theorem ValueRest.space (space : loose.space c) (found : ValueRest rest after) : ValueRest (c :: rest) after := by
  rcases found with ⟨ws, v, seg, tail, spaces, derived, rfl, out⟩
  exact ⟨c :: ws, v, seg, tail, List.forall_mem_cons.mpr ⟨space, spaces⟩, derived, rfl, out⟩

theorem ObjRest.space {st : JsonState} (space : loose.space c) (found : ObjRest st rest after) :
    ObjRest st (c :: rest) after := by
  cases st with
  | ostart =>
      rcases found with ⟨ws, spaces, rfl | ⟨seg, members, rfl⟩⟩
      · exact ⟨c :: ws, List.forall_mem_cons.mpr ⟨space, spaces⟩, .inl rfl⟩
      · exact ⟨c :: ws, List.forall_mem_cons.mpr ⟨space, spaces⟩, .inr ⟨seg, members, rfl⟩⟩
  | keyOut =>
      rcases found with ⟨ws, tail, spaces, rfl, value⟩
      exact ⟨c :: ws, tail, List.forall_mem_cons.mpr ⟨space, spaces⟩, rfl, value⟩
  | eValue => exact ValueRest.space space found
  | eNext =>
      rcases found with ⟨ws, seg, spaces, members, rfl⟩
      exact ⟨c :: ws, seg, List.forall_mem_cons.mpr ⟨space, spaces⟩, members, rfl⟩
  | _ => exact ⟨found.1, OutRest.space space found.2⟩

/-- The members that begin with a key. -/
theorem members_of_key {key : List UInt8} (closed : Closed key) (found : ObjRest .keyOut rest after) :
    ∃ seg, Members seg ∧ 34 :: (key ++ 34 :: rest) = seg ++ after := by
  rcases found with ⟨ws₁, tail, spaces₁, rfl, ws₂, v, seg, more, spaces₂, value, rfl, ws, spaces, rfl |
    ⟨ws', others, spaces', ⟨ms, members⟩, rfl⟩⟩
  · exact ⟨_, ⟨_, .lastMember closed spaces₁ spaces₂ value spaces⟩, by simp⟩
  · exact ⟨_, ⟨_, .member closed spaces₁ spaces₂ value spaces spaces' members⟩, by simp⟩

def Items (seg : List UInt8) : Prop := seg = [93] ∨ ∃ vs comma, Derives loose (.items vs comma) seg

def ArrayRest (st : JsonState) (rest after : List UInt8) : Prop :=
  match st with
  | .astart | .eNext => ∃ ws seg, loose.Spaces ws ∧ Items seg ∧ rest = ws ++ (seg ++ after)
  | st => st.isOut = true ∧ OutRest 93 Items rest after

theorem ArrayRest.space {st : JsonState} (space : loose.space c) (found : ArrayRest st rest after) :
    ArrayRest st (c :: rest) after := by
  cases st with
  | astart | eNext =>
      rcases found with ⟨ws, seg, spaces, items, rfl⟩
      exact ⟨c :: ws, seg, List.forall_mem_cons.mpr ⟨space, spaces⟩, items, rfl⟩
  | _ => exact ⟨found.1, OutRest.space space found.2⟩

/-- The items that begin with a value. -/
theorem items_of_value {v : Json} (value : Derives loose (.value v) seg) (found : OutRest 93 Items rest after) :
    ∃ seg', Items seg' ∧ seg ++ rest = seg' ++ after := by
  rcases found with ⟨ws, spaces, rfl | ⟨ws', others, spaces', rfl | ⟨vs, comma, items⟩, rfl⟩⟩
  · exact ⟨_, .inr ⟨_, _, .lastItem value spaces⟩, by simp⟩
  · exact ⟨_, .inr ⟨_, _, .comma trivial value spaces spaces'⟩, by simp⟩
  · exact ⟨_, .inr ⟨_, _, .item value spaces spaces' items⟩, by simp⟩

/-! What a turn of a loop can do. -/

theorem skipSpace_ok {failed : Failure} {turn : Turn U A} (run : skipSpace failed c ctx = .ok turn) :
    loose.space c ∧ turn = .next ctx := by
  rw [skipSpace] at run
  by_cases space : jsnIsSpace c = true
  · rw [if_pos space] at run
    refine ⟨?_, (Except.ok.inj run).symm⟩
    simpa [jsnIsSpace, loose, or_assoc] using space
  · rw [if_neg space] at run
    cases run

theorem map_ok {X : Type} {f : JsonCtx U A → X} {parse : Parse U A (JsonCtx U A)} {x : X} (run : parse.map f = .ok x) :
    ∃ ctx', x = f ctx' ∧ parse = .ok ctx' := by
  cases parse with
  | error failed => cases run
  | ok ctx' => exact ⟨ctx', (Except.ok.inj run).symm, rfl⟩

theorem objBody_cases {turn : Turn U A} (run : objBody handlers obj array c ctx = .ok turn) :
    (loose.space c ∧ turn = .next ctx) ∨
    (c = 125 ∧ (ctx.st = .ostart ∨ ctx.st.isOut = true) ∧ ∃ ctx', turn = .leave ctx' ∧
    closeObject handlers ctx = .ok ctx') ∨
    (c = 34 ∧ (ctx.st = .ostart ∨ ctx.st = .eNext) ∧ ∃ ctx', turn = .next ctx' ∧ jsonParseKey handlers ctx = .ok ctx') ∨
    (c = 58 ∧ ctx.st = .keyOut ∧ turn = .next { ctx with st := .eValue }) ∨
    (ctx.st = .eValue ∧ ∃ first ctx', opening c = some first ∧ turn = .next ctx' ∧
      jsonParseValue handlers (memberSlot handlers) obj array ctx first = .ok ctx') ∨
    (c = 44 ∧ ctx.st.isOut = true ∧ turn = .next { ctx with st := .eNext }) := by
  by_cases out : ctx.st.isOut = true
  · have same : objBody handlers obj array c ctx =
        if c = 44 then .ok (.next { ctx with st := .eNext })
        else if c = 125 then (closeObject handlers ctx).map .leave
        else skipSpace (.obj 5) c ctx := by
      cases shape : ctx.st <;> rw [shape] at out <;>
        first
          | exact absurd out (by decide)
          | simp only [objBody, shape, JsonState.isOut, if_true]
    rw [same] at run
    split_ifs at run with comma brace
    · exact .inr (.inr (.inr (.inr (.inr ⟨comma, out, (Except.ok.inj run).symm⟩))))
    · exact .inr (.inl ⟨brace, .inr out, map_ok run⟩)
    · exact .inl (skipSpace_ok run)
  · cases shape : ctx.st with
    | ostart =>
        simp only [objBody, shape] at run
        split_ifs at run with brace quote
        · exact .inr (.inl ⟨brace, .inl rfl, map_ok run⟩)
        · exact .inr (.inr (.inl ⟨quote, .inl rfl, map_ok run⟩))
        · exact .inl (skipSpace_ok run)
    | keyOut =>
        simp only [objBody, shape] at run
        split_ifs at run with colon
        · exact .inr (.inr (.inr (.inl ⟨colon, rfl, (Except.ok.inj run).symm⟩)))
        · exact .inl (skipSpace_ok run)
    | eValue =>
        simp only [objBody, shape] at run
        cases opens : opening c with
        | none =>
            rw [opens] at run
            exact .inl (skipSpace_ok run)
        | some first =>
            rw [opens] at run
            rcases map_ok run with ⟨ctx', same, parsed⟩
            exact .inr (.inr (.inr (.inr (.inl ⟨rfl, first, ctx', rfl, same, parsed⟩))))
    | eNext =>
        simp only [objBody, shape] at run
        split_ifs at run with quote
        · exact .inr (.inr (.inl ⟨quote, .inr rfl, map_ok run⟩))
        · exact .inl (skipSpace_ok run)
    | _ =>
        simp only [objBody, shape, JsonState.isOut] at run out
        first
          | cases run
          | exact absurd trivial out

theorem arrayBody_cases {turn : Turn U A} (run : arrayBody handlers obj array c ctx = .ok turn) :
    (loose.space c ∧ turn = .next ctx) ∨
    (c = 93 ∧ ctx.st.inArray = true ∧ ∃ n ctx', turn = .leave ctx' ∧ closeArray handlers n ctx = .ok ctx') ∨
    ((ctx.st = .astart ∨ ctx.st = .eNext) ∧ ∃ first ctx', opening c = some first ∧ turn = .next ctx' ∧
      jsonParseValue handlers (itemSlot handlers) obj array ctx first = .ok ctx') ∨
    (c = 44 ∧ ctx.st.isOut = true ∧ turn = .next { ctx with st := .eNext }) := by
  by_cases out : ctx.st.isOut = true
  · have same : arrayBody handlers obj array c ctx =
        if c = 44 then .ok (.next { ctx with st := .eNext })
        else if c = 93 then (closeArray handlers 12 ctx).map .leave
        else skipSpace (.array 13) c ctx := by
      cases shape : ctx.st <;> rw [shape] at out <;>
        first
          | exact absurd out (by decide)
          | simp only [arrayBody, shape, JsonState.isOut, if_true]
    rw [same] at run
    split_ifs at run with comma bracket
    · exact .inr (.inr (.inr ⟨comma, out, (Except.ok.inj run).symm⟩))
    · exact .inr (.inl ⟨bracket, by simp [JsonState.inArray, out], 12, map_ok run⟩)
    · exact .inl (skipSpace_ok run)
  · by_cases between : ctx.st = .astart ∨ ctx.st = .eNext
    · have inside : ctx.st.inArray = true := by rcases between with st | st <;> simp [JsonState.inArray, st]
      cases opens : opening c with
      | none =>
          have same : arrayBody handlers obj array c ctx =
              if c = 93 then (closeArray handlers 1 ctx).map .leave else skipSpace (.array 11) c ctx := by
            rcases between with st | st <;> simp only [arrayBody, st, opens]
          rw [same] at run
          split_ifs at run with bracket
          · exact .inr (.inl ⟨bracket, inside, 1, map_ok run⟩)
          · exact .inl (skipSpace_ok run)
      | some first =>
          have same : arrayBody handlers obj array c ctx =
              if c = 93 then (closeArray handlers 1 ctx).map .leave
              else (jsonParseValue handlers (itemSlot handlers) obj array ctx first).map .next := by
            rcases between with st | st <;> simp only [arrayBody, st, opens]
          rw [same] at run
          split_ifs at run with bracket
          · exact .inr (.inl ⟨bracket, inside, 1, map_ok run⟩)
          · rcases map_ok run with ⟨ctx', same, parsed⟩
            exact .inr (.inr (.inl ⟨between, first, ctx', rfl, same, parsed⟩))
    · cases shape : ctx.st <;> rw [shape] at out between <;>
        first
          | exact absurd rfl out
          | exact absurd (.inl rfl) between
          | exact absurd (.inr rfl) between
          | simp [arrayBody, shape, JsonState.isOut] at run

/-- A loop that returns 0 either leaves its container open, which shows in the nesting, or
has found what there must be. -/
def LoopSound (restOf : JsonState → List UInt8 → List UInt8 → Prop) (run : Parser U A) : Prop :=
  ∀ ctx ctx', run ctx = .ok ctx' → Onward ctx ctx' ∧
    (ctx.nest ≤ ctx'.nest ∨ (ctx'.nest = ctx.nest - 1 ∧ ctx'.st.isOut = true ∧
      restOf ctx.st (ctx.input.drop ctx.idx) (ctx'.input.drop (ctx'.idx + 1))))

theorem openObject_ok {inner : JsonHandler U A} {label : Nat → Failure → Failure}
    (run : openObject handlers inner label obj ctx = .ok ctx') :
    ∃ ctx₁, obj ctx₁ = .ok ctx' ∧ ctx₁.input = ctx.input ∧ ctx₁.idx = ctx.idx + 1 ∧ ctx₁.st = .ostart ∧
      ctx₁.nest = ctx.nest + 1 := by
  rcases Memory.of_bind_ok run with ⟨ctx₁, started, more⟩
  rcases Memory.of_bind_ok more with ⟨ctx₂, told, inside⟩
  rcases call_ok (of_labelled started) with ⟨stack, world, rfl⟩
  rcases call_ok (of_labelled told) with ⟨stack', world', rfl⟩
  exact ⟨_, inside, rfl, rfl, rfl, rfl⟩

theorem openArray_ok {inner : JsonHandler U A} {label : Nat → Failure → Failure}
    (run : openArray handlers inner label array ctx = .ok ctx') :
    ∃ ctx₁, array ctx₁ = .ok ctx' ∧ ctx₁.input = ctx.input ∧ ctx₁.idx = ctx.idx + 1 ∧ ctx₁.st = .astart ∧
      ctx₁.nest = ctx.nest + 1 := by
  rcases Memory.of_bind_ok run with ⟨ctx₁, started, more⟩
  rcases Memory.of_bind_ok more with ⟨ctx₂, told, inside⟩
  rcases call_ok (of_labelled started) with ⟨stack, world, rfl⟩
  rcases call_ok (of_labelled told) with ⟨stack', world', rfl⟩
  exact ⟨_, of_labelled inside, rfl, rfl, rfl, rfl⟩

theorem left_behind {i : Nat} (left : ctx.input.drop ctx.idx = c :: chars) (input : ctx'.input = ctx.input)
    (idx : i = ctx.idx + 1) : ctx'.input.drop i = chars := by
  rw [input, idx]
  exact (Faces.of_left left).step.left

theorem object_sound {inner : JsonHandler U A} {label : Nat → Failure → Failure} (sound : LoopSound ObjRest obj)
    (left : ctx.input.drop ctx.idx = 123 :: chars) (run : openObject handlers inner label obj ctx = .ok ctx') :
    Onward ctx ctx' ∧ (ctx.nest + 1 ≤ ctx'.nest ∨ ∃ v seg rest, v.Container ∧ Passed ctx ctx' v seg rest) := by
  rcases openObject_ok run with ⟨ctx₁, inside, input, idx, st, nest⟩
  have behind := left_behind left input idx
  rcases sound ctx₁ ctx' inside with ⟨⟨input', idx'⟩, unclosed | ⟨nest', out, found⟩⟩
  · exact ⟨⟨input'.trans input, by omega⟩, .inl (by omega)⟩
  · rw [st, behind] at found
    have onward : Onward ctx ctx' := ⟨input'.trans input, by omega⟩
    have level : ctx'.nest = ctx.nest := by omega
    refine ⟨onward, .inr ?_⟩
    rcases found with ⟨ws, spaces, shape | ⟨seg, ⟨ms, members⟩, shape⟩⟩
    · exact ⟨.object [], 123 :: (ws ++ [125]), _, trivial, onward, level, out, by rw [left, shape]; simp, rfl,
        .emptyObject spaces⟩
    · exact ⟨.object ms, 123 :: (ws ++ seg), _, trivial, onward, level, out, by rw [left, shape]; simp, rfl,
        .object spaces members⟩

theorem array_sound {inner : JsonHandler U A} {label : Nat → Failure → Failure} (sound : LoopSound ArrayRest array)
    (left : ctx.input.drop ctx.idx = 91 :: chars) (run : openArray handlers inner label array ctx = .ok ctx') :
    Onward ctx ctx' ∧ (ctx.nest + 1 ≤ ctx'.nest ∨ ∃ v seg rest, v.Container ∧ Passed ctx ctx' v seg rest) := by
  rcases openArray_ok run with ⟨ctx₁, inside, input, idx, st, nest⟩
  have behind := left_behind left input idx
  rcases sound ctx₁ ctx' inside with ⟨⟨input', idx'⟩, unclosed | ⟨nest', out, found⟩⟩
  · exact ⟨⟨input'.trans input, by omega⟩, .inl (by omega)⟩
  · rw [st, behind] at found
    have onward : Onward ctx ctx' := ⟨input'.trans input, by omega⟩
    have level : ctx'.nest = ctx.nest := by omega
    refine ⟨onward, .inr ?_⟩
    rcases found with ⟨ws, seg, spaces, rfl | ⟨vs, comma, items⟩, shape⟩
    · exact ⟨.array [] false, 91 :: (ws ++ [93]), _, trivial, onward, level, out, by rw [left, shape]; simp, rfl,
        .emptyArray spaces⟩
    · exact ⟨.array vs comma, 91 :: (ws ++ seg), _, trivial, onward, level, out, by rw [left, shape]; simp, rfl,
        .array spaces items⟩

theorem opening_cases (opens : opening c = some first) :
    (first = .object ∧ c = 123) ∨ (first = .array ∧ c = 91) ∨ (first = .string ∧ c = 34) ∨
      (first = .number ∧ (IsDigit c ∨ c = 45)) ∨ (first = .token ∧ IsLetter c) := by
  rw [opening] at opens
  split_ifs at opens with brace bracket quote digit letter
  · exact .inl ⟨(Option.some.inj opens).symm, brace⟩
  · exact .inr (.inl ⟨(Option.some.inj opens).symm, bracket⟩)
  · exact .inr (.inr (.inl ⟨(Option.some.inj opens).symm, quote⟩))
  · exact .inr (.inr (.inr (.inl ⟨(Option.some.inj opens).symm, digit⟩)))
  · exact .inr (.inr (.inr (.inr ⟨(Option.some.inj opens).symm, letter⟩)))

theorem value_sound (objSound : LoopSound ObjRest obj) (arraySound : LoopSound ArrayRest array)
    (left : ctx.input.drop ctx.idx = c :: chars) (opens : opening c = some first)
    (run : jsonParseValue handlers slot obj array ctx first = .ok ctx') :
    Onward ctx ctx' ∧ (ctx.nest + 1 ≤ ctx'.nest ∨ ∃ v seg rest, Passed ctx ctx' v seg rest) := by
  have scalar (passed : ∃ v seg rest, Passed ctx ctx' v seg rest) :
      Onward ctx ctx' ∧ (ctx.nest + 1 ≤ ctx'.nest ∨ ∃ v seg rest, Passed ctx ctx' v seg rest) := by
    rcases passed with ⟨v, seg, rest, passed⟩
    exact ⟨passed.onward, .inr ⟨v, seg, rest, passed⟩⟩
  rcases opening_cases opens with ⟨rfl, rfl⟩ | ⟨rfl, rfl⟩ | ⟨rfl, rfl⟩ | ⟨rfl, digit⟩ | ⟨rfl, letter⟩
  · rcases object_sound objSound left run with ⟨onward, unclosed | ⟨v, seg, rest, -, passed⟩⟩
    · exact ⟨onward, .inl unclosed⟩
    · exact ⟨onward, .inr ⟨v, seg, rest, passed⟩⟩
  · rcases array_sound arraySound left run with ⟨onward, unclosed | ⟨v, seg, rest, -, passed⟩⟩
    · exact ⟨onward, .inl unclosed⟩
    · exact ⟨onward, .inr ⟨v, seg, rest, passed⟩⟩
  · exact scalar (string_passed left run)
  · exact scalar (number_passed left digit run)
  · exact scalar (token_passed left letter run)

theorem key_ok (left : ctx.input.drop ctx.idx = 34 :: chars) (run : jsonParseKey handlers ctx = .ok ctx') :
    ∃ key rest, Closed key ∧ chars = key ++ 34 :: rest ∧ Onward ctx ctx' ∧ ctx'.nest = ctx.nest ∧
      ctx'.st = .keyOut ∧ ctx'.input.drop (ctx'.idx + 1) = rest := by
  rcases Memory.of_bind_ok run with ⟨ctx₁, scanned, told⟩
  have faces := Faces.of_left left
  rcases jsonParseStr_ok faces scanned with ⟨key, rest, flags, rfl, closed, rfl⟩
  rcases callWithin_ok told with ⟨stack, world, rfl⟩
  refine ⟨key, rest, closed, rfl, ⟨rfl, ?_⟩, rfl, rfl, faces.step.advance.step.left⟩
  change ctx.idx ≤ ctx.idx + 1 + key.length
  omega

theorem iterate_ok {body : Body U A} {again : Parser U A} (run : iterate body again ctx = .ok ctx') :
    (ctx' = ctx ∧ ∀ c ∈ (ctx.input.drop ctx.idx).head?, c = 0) ∨ ∃ c rest, ctx.input.drop ctx.idx = c :: rest ∧ c ≠ 0 ∧
      (body c ctx = .ok (.leave ctx') ∨
        ∃ ctx₁, body c ctx = .ok (.next ctx₁) ∧ again { ctx₁ with idx := ctx₁.idx + 1 } = .ok ctx') := by
  rw [iterate, ← List.head?_drop] at run
  cases left : ctx.input.drop ctx.idx with
  | nil =>
      rw [left] at run
      exact .inl ⟨(Except.ok.inj run).symm, by simp⟩
  | cons c rest =>
      rw [left] at run
      by_cases zero : c = 0
      · simp only [List.head?_cons, if_pos zero] at run
        exact .inl ⟨(Except.ok.inj run).symm, by simp [zero]⟩
      · simp only [List.head?_cons, if_neg zero] at run
        rcases Memory.of_bind_ok run with ⟨turn, body, more⟩
        refine .inr ⟨c, rest, rfl, zero, ?_⟩
        cases turn with
        | next ctx₁ => exact .inr ⟨ctx₁, body, more⟩
        | leave ctx₁ =>
            cases more
            exact .inl body

theorem closeObject_ok (run : closeObject handlers ctx = .ok ctx') :
    ctx'.input = ctx.input ∧ ctx'.nest = ctx.nest - 1 ∧ ctx'.st = .ostop ∧ ctx'.idx = ctx.idx := by
  rcases Memory.of_bind_ok run with ⟨ctx₁, told, same⟩
  rcases call_ok told with ⟨stack, world, rfl⟩
  cases same
  exact ⟨rfl, rfl, rfl, rfl⟩

theorem closeArray_ok {n : Nat} (run : closeArray handlers n ctx = .ok ctx') :
    ctx'.input = ctx.input ∧ ctx'.nest = ctx.nest - 1 ∧ ctx'.st = .astop ∧ ctx'.idx = ctx.idx := by
  rcases Memory.of_bind_ok run with ⟨ctx₁, told, same⟩
  rcases call_ok (of_labelled told) with ⟨stack, world, rfl⟩
  cases same
  exact ⟨rfl, rfl, rfl, rfl⟩

theorem ObjRest.of_out (out : ctx.st.isOut = true) (found : OutRest 125 Members rest after) :
    ObjRest ctx.st rest after := by
  cases shape : ctx.st <;> rw [shape] at out <;>
    first
      | exact absurd out (by decide)
      | exact ⟨rfl, found⟩

theorem ObjRest.out (out : ctx.st.isOut = true) (found : ObjRest ctx.st rest after) :
    OutRest 125 Members rest after := by
  cases shape : ctx.st <;> rw [shape] at out found <;>
    first
      | exact absurd out (by decide)
      | exact found.2

theorem ArrayRest.of_out (out : ctx.st.isOut = true) (found : OutRest 93 Items rest after) :
    ArrayRest ctx.st rest after := by
  cases shape : ctx.st <;> rw [shape] at out <;>
    first
      | exact absurd out (by decide)
      | exact ⟨rfl, found⟩

theorem ArrayRest.out (out : ctx.st.isOut = true) (found : ArrayRest ctx.st rest after) :
    OutRest 93 Items rest after := by
  cases shape : ctx.st <;> rw [shape] at out found <;>
    first
      | exact absurd out (by decide)
      | exact found.2

/-- A turn that leaves the loop ends the container. -/
def LeaveSound (restOf : JsonState → List UInt8 → List UInt8 → Prop) (ctx ctx' : JsonCtx U A) : Prop :=
  Onward ctx ctx' ∧ ctx'.nest = ctx.nest - 1 ∧ ctx'.st.isOut = true ∧
    restOf ctx.st (ctx.input.drop ctx.idx) (ctx'.input.drop (ctx'.idx + 1))

/-- Any other turn comes closer to the end of the container, if it does not leave open
one that is inside. -/
def NextSound (restOf : JsonState → List UInt8 → List UInt8 → Prop) (ctx ctx' : JsonCtx U A) : Prop :=
  Onward ctx ctx' ∧ (ctx.nest + 1 ≤ ctx'.nest ∨ (ctx'.nest = ctx.nest ∧
    ∀ after, restOf ctx'.st (ctx'.input.drop (ctx'.idx + 1)) after → restOf ctx.st (ctx.input.drop ctx.idx) after))

theorem LoopSound.of_turns {restOf : JsonState → List UInt8 → List UInt8 → Prop} {body : Body U A} {again : Parser U A}
    (leaves : ∀ ctx ctx' c rest, ctx.input.drop ctx.idx = c :: rest → body c ctx = .ok (.leave ctx') →
      LeaveSound restOf ctx ctx')
    (nexts : ∀ ctx ctx' c rest, ctx.input.drop ctx.idx = c :: rest → body c ctx = .ok (.next ctx') →
      NextSound restOf ctx ctx')
    (sound : LoopSound restOf again) : LoopSound restOf (iterate body again) := by
  intro ctx ctx' run
  rcases iterate_ok run with ⟨rfl, -⟩ | ⟨c, rest, left, -, turn | ⟨ctx₁, turn, more⟩⟩
  · exact ⟨⟨rfl, le_rfl⟩, .inl le_rfl⟩
  · rcases leaves ctx ctx' c rest left turn with ⟨onward, found⟩
    exact ⟨onward, .inr found⟩
  · rcases nexts ctx ctx₁ c rest left turn with ⟨⟨input, idx⟩, step⟩
    rcases sound _ ctx' more with ⟨⟨input', idx'⟩, later⟩
    refine ⟨⟨input'.trans input, idx.trans (Nat.le_of_succ_le idx')⟩, ?_⟩
    rcases step with deeper | ⟨nest, back⟩
    · refine .inl ?_
      rcases later with deeper' | ⟨nest', -⟩
      · exact (le_of_lt deeper).trans deeper'
      · change ctx'.nest = ctx₁.nest - 1 at nest'
        omega
    · rcases later with deeper' | ⟨nest', out, found⟩
      · exact .inl (nest ▸ deeper')
      · exact .inr ⟨nest ▸ nest', out, back _ found⟩

theorem obj_leave_sound (left : ctx.input.drop ctx.idx = c :: rest)
    (turn : objBody handlers obj array c ctx = .ok (.leave ctx')) : LeaveSound ObjRest ctx ctx' := by
  rcases objBody_cases turn with ⟨-, wrong⟩ | ⟨rfl, st, ctx₁, same, closed⟩ | ⟨-, -, ctx₁, wrong, -⟩ | ⟨-, -, wrong⟩ |
    ⟨-, first, ctx₁, -, wrong, -⟩ | ⟨-, -, wrong⟩
  · cases wrong
  · cases same
    rcases closeObject_ok closed with ⟨input, nest, st', idx⟩
    have after := left_behind left input (congrArg (· + 1) idx)
    refine ⟨⟨input, idx.ge⟩, nest, by rw [st']; rfl, ?_⟩
    rw [after, left]
    rcases st with st | out
    · rw [st]
      exact ⟨[], loose.spaces_nil, .inl rfl⟩
    · exact ObjRest.of_out out ⟨[], loose.spaces_nil, .inl rfl⟩
  · cases wrong
  · cases wrong
  · cases wrong
  · cases wrong

theorem obj_next_sound (objSound : LoopSound ObjRest obj) (arraySound : LoopSound ArrayRest array)
    (left : ctx.input.drop ctx.idx = c :: rest) (turn : objBody handlers obj array c ctx = .ok (.next ctx')) :
    NextSound ObjRest ctx ctx' := by
  have step : ctx.input.drop (ctx.idx + 1) = rest := (Faces.of_left left).step.left
  rcases objBody_cases turn with ⟨space, same⟩ | ⟨-, -, ctx₁, wrong, -⟩ | ⟨rfl, st, ctx₁, same, parsed⟩ |
    ⟨rfl, st, same⟩ |
    ⟨st, first, ctx₁, opens, same, parsed⟩ | ⟨rfl, out, same⟩
  · cases same
    refine ⟨⟨rfl, le_rfl⟩, .inr ⟨rfl, fun after found => ?_⟩⟩
    rw [step] at found
    rw [left]
    exact found.space space
  · cases wrong
  · cases same
    rcases key_ok left parsed with ⟨key, more, closed, rfl, onward, nest, st', left'⟩
    refine ⟨onward, .inr ⟨nest, fun after found => ?_⟩⟩
    rw [st', left'] at found
    rcases members_of_key closed found with ⟨seg, members, shape⟩
    rw [left, shape]
    rcases st with st | st
    · rw [st]
      exact ⟨[], loose.spaces_nil, .inr ⟨seg, members, rfl⟩⟩
    · rw [st]
      exact ⟨[], seg, loose.spaces_nil, members, rfl⟩
  · cases same
    refine ⟨⟨rfl, le_rfl⟩, .inr ⟨rfl, fun after found => ?_⟩⟩
    rw [st, left, ← step]
    exact ⟨[], _, loose.spaces_nil, rfl, found⟩
  · cases same
    rcases value_sound objSound arraySound left opens parsed with ⟨onward, unclosed | ⟨v, seg, more, passed⟩⟩
    · exact ⟨onward, .inl unclosed⟩
    · refine ⟨onward, .inr ⟨passed.nest, fun after found => ?_⟩⟩
      rw [passed.left] at found
      rw [st, passed.text]
      exact ⟨[], v, seg, more, loose.spaces_nil, passed.derived, rfl, found.out passed.out⟩
  · cases same
    refine ⟨⟨rfl, le_rfl⟩, .inr ⟨rfl, fun after found => ?_⟩⟩
    rcases found with ⟨ws, seg, spaces, members, shape⟩
    rw [left]
    refine ObjRest.of_out out ⟨[], loose.spaces_nil, .inr ⟨ws, seg, spaces, members, ?_⟩⟩
    rw [← step]
    exact congrArg (44 :: ·) shape

theorem array_leave_sound (left : ctx.input.drop ctx.idx = c :: rest)
    (turn : arrayBody handlers obj array c ctx = .ok (.leave ctx')) : LeaveSound ArrayRest ctx ctx' := by
  rcases arrayBody_cases turn with ⟨-, wrong⟩ | ⟨rfl, st, n, ctx₁, same, closed⟩ | ⟨-, first, ctx₁, -, wrong, -⟩ |
    ⟨-, -, wrong⟩
  · cases wrong
  · cases same
    rcases closeArray_ok closed with ⟨input, nest, st', idx⟩
    have after := left_behind left input (congrArg (· + 1) idx)
    refine ⟨⟨input, idx.ge⟩, nest, by rw [st']; rfl, ?_⟩
    rw [after, left]
    cases shape : ctx.st <;> rw [shape] at st <;>
      first
        | exact absurd st (by decide)
        | exact ⟨[], [93], loose.spaces_nil, .inl rfl, rfl⟩
        | exact ⟨rfl, [], loose.spaces_nil, .inl rfl⟩
  · cases wrong
  · cases wrong

theorem array_next_sound (objSound : LoopSound ObjRest obj) (arraySound : LoopSound ArrayRest array)
    (left : ctx.input.drop ctx.idx = c :: rest) (turn : arrayBody handlers obj array c ctx = .ok (.next ctx')) :
    NextSound ArrayRest ctx ctx' := by
  have step : ctx.input.drop (ctx.idx + 1) = rest := (Faces.of_left left).step.left
  rcases arrayBody_cases turn with ⟨space, same⟩ | ⟨-, -, n, ctx₁, wrong, -⟩ | ⟨st, first, ctx₁, opens, same, parsed⟩ |
    ⟨rfl, out, same⟩
  · cases same
    refine ⟨⟨rfl, le_rfl⟩, .inr ⟨rfl, fun after found => ?_⟩⟩
    rw [step] at found
    rw [left]
    exact found.space space
  · cases wrong
  · cases same
    rcases value_sound objSound arraySound left opens parsed with ⟨onward, unclosed | ⟨v, seg, more, passed⟩⟩
    · exact ⟨onward, .inl unclosed⟩
    · refine ⟨onward, .inr ⟨passed.nest, fun after found => ?_⟩⟩
      rw [passed.left] at found
      rcases items_of_value passed.derived (found.out passed.out) with ⟨seg', items, shape⟩
      rw [passed.text, shape]
      rcases st with st | st
      all_goals
        rw [st]
        exact ⟨[], seg', loose.spaces_nil, items, rfl⟩
  · cases same
    refine ⟨⟨rfl, le_rfl⟩, .inr ⟨rfl, fun after found => ?_⟩⟩
    rcases found with ⟨ws, seg, spaces, items, shape⟩
    rw [left]
    refine ArrayRest.of_out out ⟨[], loose.spaces_nil, .inr ⟨ws, seg, spaces, items, ?_⟩⟩
    rw [← step]
    exact congrArg (44 :: ·) shape

theorem loops_sound (handlers : JsonHandlers U A) (fuel : Nat) :
    LoopSound ObjRest (jsonParseObj handlers fuel) ∧ LoopSound ArrayRest (jsonParseArray handlers fuel) := by
  induction fuel with
  | zero =>
      constructor
      all_goals
        intro ctx ctx' run
        cases run
  | succ fuel ih =>
      constructor
      · exact .of_turns (fun _ _ _ _ left turn => obj_leave_sound left turn)
          (fun _ _ _ _ left turn => obj_next_sound ih.1 ih.2 left turn) ih.1
      · exact .of_turns (fun _ _ _ _ left turn => array_leave_sound left turn)
          (fun _ _ _ _ left turn => array_next_sound ih.1 ih.2 left turn) ih.2

end MnCommon.JsonParser
