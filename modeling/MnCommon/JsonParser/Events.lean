import MnCommon.JsonParser.Scan

/-! The callbacks that a text brings about. -/

namespace MnCommon.JsonParser

open Grammars (Json Phrase Lexicon Derives IsDigit IsLetter IsWord Closed)

/-- What the code takes for a text. -/
def loose : Lexicon where
  space c := c = 32 ∨ c = 9 ∨ c = 10
  allows
    | .string body => Closed body
    | .number chars => ∃ c cs, chars = c :: cs ∧ (IsDigit c ∨ c = 45) ∧ ∀ x ∈ cs, NumChar x
    | .token chars => ∃ c cs, chars = c :: cs ∧ IsLetter c ∧ ∀ x ∈ cs, TokChar x
    | .comma => True

inductive JsonCallback where
  | ostart | ostop | astart | astop | key | value | item
  deriving DecidableEq

def JsonHandlers.get {U A : Type} (handlers : JsonHandlers U A) : JsonCallback → JsonHandler U A
  | .ostart => handlers.ostart
  | .ostop => handlers.ostop
  | .astart => handlers.astart
  | .astop => handlers.astop
  | .key => handlers.key
  | .value => handlers.value
  | .item => handlers.item

inductive Datum where
  | none
  | text (bytes : List UInt8)
  | integer (n : Int)
  | truth (b : Bool)
  deriving DecidableEq

structure Event where
  callback : JsonCallback
  ty : JsonType
  nest : Int
  datum : Datum
  deriving DecidableEq

/-- What a callback finds in the context. -/
def observe {U A : Type} (k : JsonCallback) (ctx : JsonCtx U A) : Event where
  callback := k
  ty := ctx.ty
  nest := ctx.nest
  datum :=
    match ctx.ty, ctx.v with
    | .string, .s start stop => .text ((ctx.input.drop start).take (stop - start))
    | .int, .i n => .integer n
    | .boolean, .b b => .truth b
    | _, _ => .none

/-- An integer has nothing but digits, apart from its sign. -/
def numberEvent (k : JsonCallback) (nest : Int) (chars : List UInt8) : Event :=
  if (chars.drop 1).all fun c => IsDigit c then
    ⟨k, .int, nest, .integer (strtol chars)⟩
  else
    ⟨k, .float, nest, .none⟩

def tokenEvent (k : JsonCallback) (nest : Int) (chars : List UInt8) : Event :=
  if chars = [116, 114, 117, 101] then ⟨k, .boolean, nest, .truth true⟩
  else if chars = [102, 97, 108, 115, 101] then ⟨k, .boolean, nest, .truth false⟩
  else ⟨k, .null, nest, .none⟩

mutual

/-- The events of a document, in preorder. -/
def valueEvents (k : JsonCallback) (nest : Int) : Json → List Event
  | .string body => [⟨k, .string, nest, .text body⟩]
  | .number chars => [numberEvent k nest chars]
  | .token chars => [tokenEvent k nest chars]
  | .object ms =>
      ⟨.ostart, .object, nest, .none⟩ :: ⟨k, .object, nest, .none⟩ ::
        (memberEvents (nest + 1) ms ++ [⟨.ostop, .object, nest, .none⟩])
  | .array vs _ =>
      ⟨.astart, .array, nest, .none⟩ :: ⟨k, .array, nest, .none⟩ ::
        (itemEvents (nest + 1) vs ++ [⟨.astop, .array, nest, .none⟩])

def memberEvents (nest : Int) : List (List UInt8 × Json) → List Event
  | [] => []
  | (key, v) :: ms => ⟨.key, .string, nest, .text key⟩ :: (valueEvents .value nest v ++ memberEvents nest ms)

def itemEvents (nest : Int) : List Json → List Event
  | [] => []
  | v :: vs => valueEvents .item nest v ++ itemEvents nest vs

end

/-- Callbacks that return 0, leave the stack alone and keep what is known of the events
so far. -/
structure Follows {U A : Type} (handlers : JsonHandlers U A) (R : A → List Event → Prop) : Prop where
  called : ∀ k udata ctx events, R ctx.world events → ∃ world,
    ({ handlers.get k with udata := udata }).call ctx = .ok { ctx with world := world } ∧
      R world (events ++ [observe k ctx])

/-- The part of the text that has been passed ends at the index. -/
structure Moved {U A : Type} (ctx ctx' : JsonCtx U A) (rest : List UInt8) : Prop where
  input : ctx'.input = ctx.input
  stack : ctx'.stack = ctx.stack
  faces : Faces ctx'.input (ctx'.idx + 1) rest

/-- Something follows a number or a token. -/
def Ends (rest : List UInt8) : Prop := ∃ c s, rest = c :: s ∧ ¬ IsWord c

variable {U A : Type} {handlers : JsonHandlers U A} {R : A → List Event → Prop} {ctx ctx' : JsonCtx U A}
  {k : JsonCallback} {u : U} {events : List Event} {slot : Slot U A} {obj array : Parser U A}
  {body chars cs rest ws seg : List UInt8} {c : UInt8} {fuel : Nat}

@[simp] theorem labelled_ok (label : Failure → Failure) (ctx : JsonCtx U A) : labelled label (.ok ctx) = .ok ctx := rfl

theorem Follows.callWithin (follows : Follows handlers R) (k : JsonCallback) (u : U) (ctx : JsonCtx U A)
    (known : R ctx.world events) : ∃ world,
    ({ handlers.get k with udata := u }).callWithin ctx = .ok { ctx with world := world } ∧
      R world (events ++ [observe k { ctx with nest := ctx.nest + 1 }]) := by
  rcases follows.called k u { ctx with nest := ctx.nest + 1 } events known with ⟨world, call, kept⟩
  refine ⟨world, ?_, kept⟩
  rw [JsonHandler.callWithin, call]
  simp [bind, Except.bind, pure, Except.pure]

/-- A scanned string, with its bounds set. -/
def JsonCtx.strMarked (ctx : JsonCtx U A) (flags : JsonFlags) (st : JsonState) (length : Nat) : JsonCtx U A :=
  { ctx.strBegun.strEnded flags (ctx.idx + 1 + length) with st := st, v := .s (ctx.idx + 1) (ctx.idx + 1 + length) }

/-- The callback for it finds its bytes. -/
theorem Follows.text (follows : Follows handlers R) (k : JsonCallback) (u : U) (flags : JsonFlags) (st : JsonState)
    (faces : Faces ctx.input ctx.idx (34 :: (body ++ 34 :: rest))) (known : R ctx.world events) : ∃ world,
    ({ handlers.get k with udata := u }).callWithin (ctx.strMarked flags st body.length) =
        .ok { ctx.strMarked flags st body.length with world := world } ∧
      R world (events ++ [⟨k, .string, ctx.nest + 1, .text body⟩]) := by
  rcases follows.callWithin k u (ctx.strMarked flags st body.length) known with ⟨world, call, kept⟩
  have text := faces.step.slice
  simp only [observe, JsonCtx.strMarked, JsonCtx.strEnded, JsonCtx.strBegun, Nat.add_sub_cancel_left, text] at kept
  exact ⟨world, call, kept⟩

theorem string_served (follows : Follows handlers R) (told : slot.handler = { handlers.get k with udata := u })
    (closed : Closed body) (faces : Faces ctx.input ctx.idx (34 :: (body ++ 34 :: rest))) (known : R ctx.world events) :
    ∃ ctx', jsonParseValue handlers slot obj array ctx .string = .ok ctx' ∧ Moved ctx ctx' rest ∧
      ctx'.st = .strOut ∧ ctx'.nest = ctx.nest ∧
      R ctx'.world (events ++ [⟨k, .string, ctx.nest + 1, .text body⟩]) := by
  have scanned := jsonParseStr_closed faces closed
  rcases follows.text k u (ctx.strFlags body) .strOut faces known with ⟨world, call, kept⟩
  refine ⟨{ ctx.strMarked (ctx.strFlags body) .strOut body.length with world := world }, ?_,
    ⟨rfl, rfl, faces.step.advance.step⟩, rfl, rfl, kept⟩
  rw [jsonParseValue]
  change (jsonParseStr ctx.strBegun >>= _) = _
  rw [scanned, told]
  change labelled _
    (({ handlers.get k with udata := u }).callWithin (ctx.strMarked (ctx.strFlags body) .strOut body.length)) = _
  rw [call]
  rfl

theorem takeWhile_digits {d : UInt8} (ends : ¬ IsDigit d) :
    ((cs ++ d :: rest).takeWhile fun x => IsDigit x) = cs.takeWhile fun x => IsDigit x := by
  induction cs with
  | nil => simp [ends]
  | cons c cs ih => by_cases digit : IsDigit c <;> simp [digit, ih]

theorem strtol_append {d : UInt8} (ends : ¬ IsDigit d) : strtol (c :: (cs ++ d :: rest)) = strtol (c :: cs) := by
  by_cases minus : c = 45
  · subst minus
    simp only [strtol, takeWhile_digits ends]
  · have whole : ((c :: cs ++ d :: rest).takeWhile fun x => IsDigit x) = (c :: cs).takeWhile fun x => IsDigit x :=
      takeWhile_digits ends
    rw [List.cons_append] at whole
    simp [strtol, minus, whole]

theorem scan_digits (all : ∀ x ∈ cs, NumChar x) (flags : JsonFlags)
    (begun : flags.float = false ∧ flags.scientific = false) :
    ((flags.scan cs).float || (flags.scan cs).scientific) = !cs.all fun x => IsDigit x := by
  simp only [JsonFlags.scan, begun, Bool.false_or]
  induction cs with
  | nil => rfl
  | cons c cs ih =>
      rcases List.forall_mem_cons.mp all with ⟨char, others⟩
      have later := ih others
      rcases char with digit | rfl | rfl | rfl | rfl
      · have other : c ≠ 46 ∧ c ≠ 101 ∧ c ≠ 69 ∧ c ≠ 45 := by
          refine ⟨?_, ?_, ?_, ?_⟩
          all_goals
            rintro rfl
            exact absurd digit (by decide)
        simpa [digit, other] using later
      all_goals simp [IsDigit]

/-- A scanned number, with its value. -/
def JsonCtx.numMarked (ctx : JsonCtx U A) (c : UInt8) (cs : List UInt8) : JsonCtx U A :=
  { ctx.numBegun.numEnded cs with
    v := if cs.all fun x => IsDigit x then .i (strtol (c :: cs)) else .f (ctx.input.drop ctx.idx) }

theorem numMarked_value {d : UInt8} (all : ∀ x ∈ cs, NumChar x) (ends : ¬ NumChar d)
    (faces : Faces ctx.input ctx.idx (c :: cs ++ d :: rest)) (bad : Failure) :
    numberValue ctx.idx bad (ctx.numBegun.numEnded cs) = .ok (ctx.numMarked c cs) := by
  have digits := scan_digits all ctx.numBegun.flags ⟨rfl, rfl⟩
  by_cases integer : cs.all fun x => IsDigit x
  · have ty : (ctx.numBegun.numEnded cs).ty = .int := by
      simp only [JsonCtx.numEnded, digits, integer, Bool.not_true, Bool.false_eq_true, if_false]
    have value : strtol ((ctx.numBegun.numEnded cs).input.drop ctx.idx) = strtol (c :: cs) := by
      change strtol (ctx.input.drop ctx.idx) = _
      rw [faces.left]
      exact strtol_append fun digit => ends (.inl digit)
    simp only [numberValue, ty, value, JsonCtx.numMarked, integer, if_true]
  · have ty : (ctx.numBegun.numEnded cs).ty = .float := by
      simp only [JsonCtx.numEnded, digits, integer, Bool.not_false, if_true]
    simp only [numberValue, ty, JsonCtx.numMarked, integer, if_false, Bool.false_eq_true]
    rfl

theorem numMarked_seen (all : ∀ x ∈ cs, NumChar x) (k : JsonCallback) :
    observe k { ctx.numMarked c cs with nest := ctx.nest + 1 } = numberEvent k (ctx.nest + 1) (c :: cs) := by
  have digits := scan_digits all ctx.numBegun.flags ⟨rfl, rfl⟩
  by_cases integer : cs.all fun x => IsDigit x
  · have ty : (ctx.numMarked c cs).ty = .int := by
      simp only [JsonCtx.numMarked, JsonCtx.numEnded, digits, integer, Bool.not_true, Bool.false_eq_true, if_false]
    have v : (ctx.numMarked c cs).v = .i (strtol (c :: cs)) := if_pos integer
    simp only [observe, ty, v, numberEvent, List.drop_one, List.tail_cons, integer, if_true]
  · have ty : (ctx.numMarked c cs).ty = .float := by
      simp only [JsonCtx.numMarked, JsonCtx.numEnded, digits, integer, Bool.not_false, if_true]
    simp only [observe, ty, numberEvent, List.drop_one, List.tail_cons, integer, if_false, Bool.false_eq_true]

theorem number_served (follows : Follows handlers R) (told : slot.handler = { handlers.get k with udata := u })
    (first : IsDigit c ∨ c = 45) (all : ∀ x ∈ cs, NumChar x) (ends : Ends rest)
    (faces : Faces ctx.input ctx.idx (c :: cs ++ rest)) (known : R ctx.world events) :
    ∃ ctx', jsonParseValue handlers slot obj array ctx .number = .ok ctx' ∧ Moved ctx ctx' rest ∧
      ctx'.st = .numOut ∧ ctx'.nest = ctx.nest ∧
      R ctx'.world (events ++ [numberEvent k (ctx.nest + 1) (c :: cs)]) := by
  rcases ends with ⟨d, more, rfl, word⟩
  have stops : ¬ NumChar d := fun char => word char.word
  have scanned := jsonParseNum_chars faces first all stops
  have index : (ctx.numBegun.numEnded cs).idx + 1 = ctx.idx + (c :: cs).length := by
    simp only [JsonCtx.numBegun, JsonCtx.numEnded, List.length_cons]
    omega
  have made := numMarked_value all stops faces slot.badNumber
  rcases follows.callWithin k u (ctx.numMarked c cs) known with ⟨world, call, kept⟩
  refine ⟨{ ctx.numMarked c cs with world := world }, ?_, ⟨rfl, rfl, ?_⟩, rfl, rfl, ?_⟩
  · rw [jsonParseValue]
    simp only [bind, Except.bind, scanned, made, told]
    rw [call]
    rfl
  · change Faces ctx.input ((ctx.numBegun.numEnded cs).idx + 1) (d :: more)
    rw [index]
    exact faces.advance
  · change R world (events ++ [observe k { ctx.numMarked c cs with nest := ctx.nest + 1 }]) at kept
    rwa [numMarked_seen all] at kept

/-- A token stands for what it spells. -/
theorem tokenValue_seen (faces : Faces ctx.input ctx.idx (c :: cs ++ rest)) (k : JsonCallback) :
    ∃ ty v, tokenValue ctx.idx (ctx.tokEnded (ctx.idx + cs.length)) =
        { ctx.tokEnded (ctx.idx + cs.length) with ty := ty, v := v } ∧
      observe k { ctx.tokEnded (ctx.idx + cs.length) with ty := ty, v := v, nest := ctx.nest + 1 } =
        tokenEvent k (ctx.nest + 1) (c :: cs) := by
  have token : ((ctx.tokEnded (ctx.idx + cs.length)).input.drop ctx.idx).take
      ((ctx.tokEnded (ctx.idx + cs.length)).idx - ctx.idx + 1) = c :: cs := by
    have width : (ctx.tokEnded (ctx.idx + cs.length)).idx - ctx.idx + 1 = (c :: cs).length := by
      simp only [JsonCtx.tokEnded, Nat.add_sub_cancel_left, List.length_cons]
    rw [width]
    exact faces.slice
  simp only [tokenValue, token, tokenEvent]
  split_ifs
  · exact ⟨_, _, rfl, rfl⟩
  · exact ⟨_, _, rfl, rfl⟩
  · exact ⟨_, _, rfl, rfl⟩
  · exact ⟨_, _, rfl, rfl⟩

theorem token_served (follows : Follows handlers R) (told : slot.handler = { handlers.get k with udata := u })
    (first : IsLetter c) (all : ∀ x ∈ cs, TokChar x) (ends : Ends rest)
    (faces : Faces ctx.input ctx.idx (c :: cs ++ rest)) (known : R ctx.world events) :
    ∃ ctx', jsonParseValue handlers slot obj array ctx .token = .ok ctx' ∧ Moved ctx ctx' rest ∧
      ctx'.st = .tokOut ∧ ctx'.nest = ctx.nest ∧
      R ctx'.world (events ++ [tokenEvent k (ctx.nest + 1) (c :: cs)]) := by
  rcases ends with ⟨d, more, rfl, word⟩
  have scanned := jsonParseTok_chars faces first all fun char => word char.word
  rcases tokenValue_seen faces k with ⟨ty, v, made, seen⟩
  rcases follows.callWithin k u { ctx.tokEnded (ctx.idx + cs.length) with ty := ty, v := v } known with
    ⟨world, call, kept⟩
  refine ⟨{ ctx.tokEnded (ctx.idx + cs.length) with ty := ty, v := v, world := world }, ?_, ⟨rfl, rfl, ?_⟩, rfl,
    rfl, ?_⟩
  · rw [jsonParseValue]
    simp only [bind, Except.bind, scanned, made, told]
    rw [call]
    rfl
  · change Faces ctx.input (ctx.idx + cs.length + 1) (d :: more)
    exact faces.advance
  · change R world (events ++ [observe k { ctx.tokEnded (ctx.idx + cs.length) with
      ty := ty, v := v, nest := ctx.nest + 1 }]) at kept
    rwa [seen] at kept

/-! The loops. -/

theorem iterate_next {body : Body U A} {again : Parser U A} (faces : Faces ctx.input ctx.idx (c :: rest))
    (nonzero : c ≠ 0) (turn : body c ctx = .ok (.next ctx')) :
    iterate body again ctx = again { ctx' with idx := ctx'.idx + 1 } := by
  rw [iterate, faces.head]
  simp only [if_neg nonzero, bind, Except.bind, turn]

theorem iterate_leave {body : Body U A} {again : Parser U A} (faces : Faces ctx.input ctx.idx (c :: rest))
    (nonzero : c ≠ 0) (turn : body c ctx = .ok (.leave ctx')) : iterate body again ctx = .ok ctx' := by
  rw [iterate, faces.head]
  simp only [if_neg nonzero, bind, Except.bind, turn]
  rfl

theorem iterate_end {body : Body U A} {again : Parser U A} (faces : Faces ctx.input ctx.idx []) :
    iterate body again ctx = .ok ctx := by
  rw [iterate, faces.none]

/-- The states of the loop of an object, and those of the loop of an array. -/
def JsonState.inObject (st : JsonState) : Bool :=
  st = .ostart || st = .keyOut || st = .eValue || st = .eNext || st.isOut

def JsonState.inArray (st : JsonState) : Bool := st = .astart || st = .eNext || st.isOut

theorem space_opens (space : loose.space c) : opening c = none ∧ jsnIsSpace c = true := by
  rcases space with rfl | rfl | rfl <;> decide

theorem objBody_space (space : loose.space c) (st : ctx.st.inObject) :
    objBody handlers obj array c ctx = .ok (.next ctx) := by
  have opens := space_opens space
  have marks : c ≠ 125 ∧ c ≠ 34 ∧ c ≠ 58 ∧ c ≠ 44 := by rcases space with rfl | rfl | rfl <;> decide
  cases shape : ctx.st <;> rw [shape] at st <;>
    first
      | exact absurd st (by decide)
      | simp [objBody, shape, marks, opens, skipSpace, JsonState.isOut]

theorem arrayBody_space (space : loose.space c) (st : ctx.st.inArray) :
    arrayBody handlers obj array c ctx = .ok (.next ctx) := by
  have opens := space_opens space
  have marks : c ≠ 93 ∧ c ≠ 44 := by rcases space with rfl | rfl | rfl <;> decide
  cases shape : ctx.st <;> rw [shape] at st <;>
    first
      | exact absurd st (by decide)
      | simp [arrayBody, shape, marks, opens, skipSpace, JsonState.isOut]

end MnCommon.JsonParser
