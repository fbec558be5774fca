import Mathlib.Algebra.Group.Int.Defs
import Mathlib.Algebra.Group.Nat.Defs
import MnCommon.Grammars.Json

/-! The callback parser of `json.c`. The depth of nesting is taken to fit into an `int`. -/

namespace MnCommon.JsonParser

open Grammars (IsDigit IsLetter)

/-- The states `JPS_*`. -/
inductive JsonState where
  | start | ostart | ostop | astart | astop | keyOut | strIn | strEsc | str | strOut | numIn | num | numOut | tokIn
  | tok | tokOut | eNext | eValue
  deriving DecidableEq

/-- `JPS_OUT`. -/
def JsonState.isOut : JsonState → Bool
  | .strOut | .numOut | .tokOut | .ostop | .astop => true
  | _ => false

inductive JsonType where
  | undef | object | array | string | int | float | boolean | null
  deriving DecidableEq

structure JsonFlags where
  needUnescape : Bool
  float : Bool
  scientific : Bool
  deriving DecidableEq

/-- The member of the union that has been written last. A `double` is kept as the text
that `strtod` has been given. -/
inductive JsonV where
  | i (n : Int)
  | f (text : List UInt8)
  | s (start stop : Nat)
  | b (b : Bool)
  deriving DecidableEq

/-- `U` are the pointers of the client. What its callbacks have done so far goes along
with the context. -/
structure JsonCtx (U A : Type) where
  input : List UInt8
  st : JsonState
  flags : JsonFlags
  ty : JsonType
  v : JsonV
  idx : Nat
  nest : Int
  stack : List U
  world : A
  deriving DecidableEq

/-- A callback may change the stack; the rest of the context is for it to read. -/
abbrev JsonCb (U A : Type) := JsonCtx U A → U → Int × List U × A

structure JsonHandler (U A : Type) where
  cb : Option (JsonCb U A)
  udata : U

structure JsonHandlers (U A : Type) where
  ostart : JsonHandler U A
  ostop : JsonHandler U A
  astart : JsonHandler U A
  astop : JsonHandler U A
  key : JsonHandler U A
  value : JsonHandler U A
  item : JsonHandler U A

/-- The results other than 0. The last one is none of the code's. -/
inductive Failure where
  | needMore
  | str (n : Nat)
  | num (n : Nat)
  | tok (n : Nat)
  | obj (n : Nat)
  | array (n : Nat)
  | callback (res : Int)
  | outOfFuel
  deriving DecidableEq

abbrev Parse (U A X : Type) := Except (Failure × JsonCtx U A) X

abbrev Parser (U A : Type) := JsonCtx U A → Parse U A (JsonCtx U A)

variable {U A : Type}

def jsonInit (ctx : JsonCtx U A) (cb : Option (JsonCb U A)) (udata : U) : JsonCtx U A × JsonHandlers U A :=
  let h : JsonHandler U A := { cb := cb, udata := udata }
  ({ ctx with
      input := []
      st := .start
      flags := { needUnescape := false, float := false, scientific := false }
      idx := 0
      nest := -1
      stack := [] },
    { ostart := h, ostop := h, astart := h, astop := h, key := h, value := h, item := h })

/-- `json_ctx_consistent`, with the bits `JSON_CTX_INCONSISTENT_*`. -/
def jsonCtxConsistent (ctx : JsonCtx U A) : Nat :=
  (if ctx.idx ≠ ctx.input.length then 1 else 0) ||| (if ctx.st.isOut then 0 else 2) |||
    (if ctx.nest ≥ 0 then 4 else 0) ||| (if ctx.stack.length > 0 then 8 else 0)

def JsonHandler.call (h : JsonHandler U A) (ctx : JsonCtx U A) : Parse U A (JsonCtx U A) :=
  match h.cb with
  | none => .ok ctx
  | some cb =>
      let (res, stack, world) := cb ctx h.udata
      let ctx := { ctx with stack := stack, world := world }
      if res ≠ 0 then .error (.callback res, ctx) else .ok ctx

/-- A call of which the client sees the next level of nesting. -/
def JsonHandler.callWithin (h : JsonHandler U A) (ctx : JsonCtx U A) : Parse U A (JsonCtx U A) := do
  let ctx ← h.call { ctx with nest := ctx.nest + 1 }
  return { ctx with nest := ctx.nest - 1 }

/-- Another result in place of the one that is not 0. -/
def labelled (label : Failure → Failure) (parse : Parse U A (JsonCtx U A)) : Parse U A (JsonCtx U A) :=
  parse.mapError fun failed => (if failed.1 = .outOfFuel then .outOfFuel else label failed.1, failed.2)

def jsnIsSpace (c : UInt8) : Bool := c = 32 || c = 9 || c = 10

def strEnd (ctx : JsonCtx U A) : Parse U A (JsonCtx U A) :=
  if ctx.st = .strOut then .ok { ctx with ty := .string } else .error (.needMore, ctx)

/-- The loop of `json_parse_str` over the characters from the index on. -/
def strLoop : List UInt8 → Parser U A
  | [], ctx => strEnd ctx
  | ch :: chars, ctx =>
      match ctx.st with
      | .strIn =>
          if ch = 92 then
            strLoop chars { ctx with st := .strEsc, flags.needUnescape := true, idx := ctx.idx + 1 }
          else if ch = 34 then
            strEnd { ctx with st := .strOut }
          else
            strLoop chars { ctx with st := .str, idx := ctx.idx + 1 }
      | .strEsc => strLoop chars { ctx with st := .str, idx := ctx.idx + 1 }
      | .str =>
          if ch = 92 then
            strLoop chars { ctx with st := .strEsc, idx := ctx.idx + 1 }
          else if ch = 34 then
            strEnd { ctx with st := .strOut }
          else
            strLoop chars { ctx with st := .str, idx := ctx.idx + 1 }
      | _ => .error (.str 1, ctx)

def jsonParseStr (ctx : JsonCtx U A) : Parse U A (JsonCtx U A) :=
  strLoop (ctx.input.drop ctx.idx) { ctx with flags.needUnescape := false }

def numEnd (ctx : JsonCtx U A) : Parse U A (JsonCtx U A) :=
  if ctx.st = .numOut then
    .ok { ctx with
      idx := ctx.idx - 1
      ty := if ctx.flags.float || ctx.flags.scientific then .float else .int }
  else
    .error (.needMore, ctx)

/-- The loop of `json_parse_num`. -/
def numLoop : List UInt8 → Parser U A
  | [], ctx => numEnd ctx
  | ch :: chars, ctx =>
      match ctx.st with
      | .numIn =>
          if IsDigit ch ∨ ch = 45 then
            numLoop chars { ctx with st := .num, idx := ctx.idx + 1 }
          else if ch = 46 then
            numLoop chars { ctx with st := .num, flags.float := true, idx := ctx.idx + 1 }
          else
            numEnd { ctx with st := .numOut }
      | .num =>
          if IsDigit ch then
            numLoop chars { ctx with st := .num, idx := ctx.idx + 1 }
          else if ch = 46 then
            numLoop chars { ctx with st := .num, flags.float := true, idx := ctx.idx + 1 }
          else if ch = 101 ∨ ch = 69 ∨ ch = 45 then
            numLoop chars { ctx with st := .num, flags.scientific := true, idx := ctx.idx + 1 }
          else
            numEnd { ctx with st := .numOut }
      | _ => .error (.num 1, ctx)

def jsonParseNum (ctx : JsonCtx U A) : Parse U A (JsonCtx U A) :=
  numLoop (ctx.input.drop ctx.idx) { ctx with flags.float := false, flags.scientific := false }

def tokEnd (ctx : JsonCtx U A) : Parse U A (JsonCtx U A) :=
  if ctx.st = .tokOut then .ok { ctx with idx := ctx.idx - 1, ty := .null } else .error (.needMore, ctx)

/-- The loop of `json_parse_tok`. -/
def tokLoop : List UInt8 → Parser U A
  | [], ctx => tokEnd ctx
  | ch :: chars, ctx =>
      match ctx.st with
      | .tokIn | .tok =>
          if IsLetter ch ∨ IsDigit ch ∨ ch = 46 then
            tokLoop chars { ctx with st := .tok, idx := ctx.idx + 1 }
          else
            tokEnd { ctx with st := .tokOut }
      | _ => .error (.tok 1, ctx)

def jsonParseTok (ctx : JsonCtx U A) : Parse U A (JsonCtx U A) := tokLoop (ctx.input.drop ctx.idx) ctx

/-- `strtol` to the base 10 of a text that begins with a digit or a minus. -/
def strtol (text : List UInt8) : Int :=
  let value (ds : List UInt8) : Int :=
    (ds.takeWhile fun d => IsDigit d).foldl (fun n d => 10 * n + (d.toNat - 48)) 0
  let n := match text with
    | 45 :: ds => -value ds
    | ds => value ds
  max (-2 ^ 63) (min n (2 ^ 63 - 1))

/-- The value of a number that begins at `tmp`. -/
def numberValue (tmp : Nat) (bad : Failure) (ctx : JsonCtx U A) : Parse U A (JsonCtx U A) :=
  match ctx.ty with
  | .int => .ok { ctx with v := .i (strtol (ctx.input.drop tmp)) }
  | .float => .ok { ctx with v := .f (ctx.input.drop tmp) }
  | _ => .error (bad, ctx)

/-- What a token that begins at `tmp` stands for. -/
def tokenValue (tmp : Nat) (ctx : JsonCtx U A) : JsonCtx U A :=
  let token := (ctx.input.drop tmp).take (ctx.idx - tmp + 1)
  if token = [116, 114, 117, 101] then
    { ctx with ty := .boolean, v := .b true }
  else if token = [102, 97, 108, 115, 101] then
    { ctx with ty := .boolean, v := .b false }
  else if token = [110, 117, 108, 108] then
    { ctx with ty := .null }
  else
    ctx

/-- A place for values: who is told of them, and the results of the code there. -/
structure Slot (U A : Type) where
  handler : JsonHandler U A
  label : Nat → Failure → Failure
  badNumber : Failure

def memberSlot (handlers : JsonHandlers U A) : Slot U A where
  handler := handlers.value
  label _ res := res
  badNumber := .obj 3

def itemSlot (handlers : JsonHandlers U A) : Slot U A where
  handler := handlers.item
  label n _ := .array n
  badNumber := .array 8

def openObject (handlers : JsonHandlers U A) (inner : JsonHandler U A) (label : Nat → Failure → Failure)
    (obj : Parser U A) (ctx : JsonCtx U A) : Parse U A (JsonCtx U A) := do
  let ctx ← labelled (label 5) (handlers.ostart.call { ctx with st := .ostart, ty := .object, nest := ctx.nest + 1 })
  let ctx ← labelled (label 6) (inner.call ctx)
  obj { ctx with idx := ctx.idx + 1 }

def openArray (handlers : JsonHandlers U A) (inner : JsonHandler U A) (label : Nat → Failure → Failure)
    (array : Parser U A) (ctx : JsonCtx U A) : Parse U A (JsonCtx U A) := do
  let ctx ← labelled (label 2) (handlers.astart.call { ctx with st := .astart, ty := .array, nest := ctx.nest + 1 })
  let ctx ← labelled (label 3) (inner.call ctx)
  labelled (label 4) (array { ctx with idx := ctx.idx + 1 })

/-- What the first character of a value announces. -/
inductive Opening where
  | object | array | string | number | token

def opening (ch : UInt8) : Option Opening :=
  if ch = 123 then some .object
  else if ch = 91 then some .array
  else if ch = 34 then some .string
  else if IsDigit ch ∨ ch = 45 then some .number
  else if IsLetter ch then some .token
  else none

/-- The branches for a value, the same ones in `json_parse_obj` and in `json_parse_array`. -/
def jsonParseValue (handlers : JsonHandlers U A) (slot : Slot U A) (obj array : Parser U A)
    (ctx : JsonCtx U A) : Opening → Parse U A (JsonCtx U A)
  | .object => openObject handlers slot.handler slot.label obj ctx
  | .array => openArray handlers slot.handler slot.label array ctx
  | .string => do
      let start := ctx.idx + 1
      -- the end is not read before it is set
      let ctx ← jsonParseStr { ctx with st := .strIn, idx := start, v := .s start 0 }
      labelled (slot.label 7) (slot.handler.callWithin { ctx with v := .s start ctx.idx })
  | .number => do
      let tmp := ctx.idx
      let ctx ← jsonParseNum { ctx with st := .numIn }
      let ctx ← numberValue tmp slot.badNumber ctx
      labelled (slot.label 9) (slot.handler.callWithin ctx)
  | .token => do
      let tmp := ctx.idx
      let ctx ← jsonParseTok { ctx with st := .tokIn }
      labelled (slot.label 10) (slot.handler.callWithin (tokenValue tmp ctx))

def jsonParseKey (handlers : JsonHandlers U A) (ctx : JsonCtx U A) : Parse U A (JsonCtx U A) := do
  let start := ctx.idx + 1
  let ctx ← jsonParseStr { ctx with st := .strIn, idx := start, v := .s start 0 }
  handlers.key.callWithin { ctx with st := .keyOut, v := .s start ctx.idx }

def closeObject (handlers : JsonHandlers U A) (ctx : JsonCtx U A) : Parse U A (JsonCtx U A) := do
  let ctx ← handlers.ostop.call { ctx with st := .ostop, ty := .object }
  return { ctx with nest := ctx.nest - 1 }

def closeArray (handlers : JsonHandlers U A) (n : Nat) (ctx : JsonCtx U A) : Parse U A (JsonCtx U A) := do
  let ctx ← labelled (fun _ => .array n) (handlers.astop.call { ctx with st := .astop, ty := .array })
  return { ctx with nest := ctx.nest - 1 }

/-- How the body of a loop ends: it goes on with the next character, or breaks. -/
inductive Turn (U A : Type) where
  | next (ctx : JsonCtx U A)
  | leave (ctx : JsonCtx U A)

abbrev Body (U A : Type) := UInt8 → JsonCtx U A → Parse U A (Turn U A)

/-- A turn of one of the loops over the text, all of which break at a NUL. -/
def iterate (body : Body U A) (again : Parser U A) (ctx : JsonCtx U A) : Parse U A (JsonCtx U A) :=
  match ctx.input[ctx.idx]? with
  | none => .ok ctx
  | some ch =>
      if ch = 0 then
        .ok ctx
      else do
        match ← body ch ctx with
        | .next ctx => again { ctx with idx := ctx.idx + 1 }
        | .leave ctx => return ctx

def skipSpace (n : Failure) : Body U A := fun ch ctx =>
  if jsnIsSpace ch then .ok (.next ctx) else .error (n, ctx)

def objBody (handlers : JsonHandlers U A) (obj array : Parser U A) : Body U A := fun ch ctx =>
  match ctx.st with
  | .ostart =>
      if ch = 125 then (closeObject handlers ctx).map .leave
      else if ch = 34 then (jsonParseKey handlers ctx).map .next
      else skipSpace (.obj 1) ch ctx
  | .keyOut =>
      if ch = 58 then .ok (.next { ctx with st := .eValue })
      else skipSpace (.obj 2) ch ctx
  | .eValue =>
      match opening ch with
      | some first => (jsonParseValue handlers (memberSlot handlers) obj array ctx first).map .next
      | none => skipSpace (.obj 4) ch ctx
  | .eNext =>
      if ch = 34 then (jsonParseKey handlers ctx).map .next
      else skipSpace (.obj 6) ch ctx
  | st =>
      if st.isOut then
        if ch = 44 then .ok (.next { ctx with st := .eNext })
        else if ch = 125 then (closeObject handlers ctx).map .leave
        else skipSpace (.obj 5) ch ctx
      else
        .error (.obj 7, ctx)

def arrayBody (handlers : JsonHandlers U A) (obj array : Parser U A) : Body U A := fun ch ctx =>
  match ctx.st with
  | .astart | .eNext =>
      if ch = 93 then (closeArray handlers 1 ctx).map .leave
      else
        match opening ch with
        | some first => (jsonParseValue handlers (itemSlot handlers) obj array ctx first).map .next
        | none => skipSpace (.array 11) ch ctx
  | st =>
      if st.isOut then
        if ch = 44 then .ok (.next { ctx with st := .eNext })
        else if ch = 93 then (closeArray handlers 12 ctx).map .leave
        else skipSpace (.array 13) ch ctx
      else
        .error (.array 14, ctx)

mutual

def jsonParseObj (handlers : JsonHandlers U A) : Nat → Parser U A
  | 0, ctx => .error (.outOfFuel, ctx)
  | fuel + 1, ctx =>
      iterate (objBody handlers (jsonParseObj handlers fuel) (jsonParseArray handlers fuel))
        (jsonParseObj handlers fuel) ctx

def jsonParseArray (handlers : JsonHandlers U A) : Nat → Parser U A
  | 0, ctx => .error (.outOfFuel, ctx)
  | fuel + 1, ctx =>
      iterate (arrayBody handlers (jsonParseObj handlers fuel) (jsonParseArray handlers fuel))
        (jsonParseArray handlers fuel) ctx

end

/-- The object of the text goes to `value_cb` with the data of `item_cb`. -/
def topBody (handlers : JsonHandlers U A) (obj array : Parser U A) : Body U A := fun ch ctx =>
  if ctx.st = .start ∧ ch = 123 then
    (openObject handlers { cb := handlers.value.cb, udata := handlers.item.udata } (fun _ res => res) obj ctx).map .next
  else if ctx.st = .start ∧ ch = 91 then
    (openArray handlers handlers.item (fun _ res => res) array ctx).map .next
  else
    .ok (.next ctx)

def topLoop (handlers : JsonHandlers U A) : Nat → Parser U A
  | 0, ctx => .error (.outOfFuel, ctx)
  | fuel + 1, ctx =>
      iterate (topBody handlers (jsonParseObj handlers fuel) (jsonParseArray handlers fuel)) (topLoop handlers fuel) ctx

def jsonParse (handlers : JsonHandlers U A) (text : List UInt8) (ctx : JsonCtx U A) : Parse U A (JsonCtx U A) :=
  topLoop handlers (text.length + 1) { ctx with input := text }

end MnCommon.JsonParser
