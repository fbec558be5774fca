import MnCommon.Bytes.Escape
import MnCommon.JsonParser.Model

/-! The pull parser of `jparse.c`. The memory of the strings is taken to be there. -/

namespace MnCommon.Jparse

open Grammars (IsDigit IsLetter)
open Bytes (Strz bytesJsonUnescape)
open JsonParser (JsonType)

/-- 0, `JPARSE_EOS`, the -2 of `expect_maybe_null`, and the results that the build numbers. The
last one is none of the code's. -/
inductive JparseRes where
  | ok
  | eos
  | notNull
  | reachNonblank (n : Nat)
  | reach (delim : UInt8) (n : Nat)
  | probe (delim : UInt8) (n : Nat)
  | expectIgnore (n : Nat)
  | expectAny (n : Nat)
  | expectTok (n : Nat)
  | expectInt (n : Nat)
  | expectFloat (n : Nat)
  | expectStr (n : Nat)
  | expectBool (n : Nat)
  | expectKvpAny (n : Nat)
  | expectKvpInt (n : Nat)
  | expectKvpFloat (n : Nat)
  | expectKvpStr (n : Nat)
  | expectKvpBool (n : Nat)
  | expectKvpObject (n : Nat)
  | expectKvpObjectIter (n : Nat)
  | expectKvpArray (n : Nat)
  | expectKvpArrayIter (n : Nat)
  | expectAnykvpIgnore (n : Nat)
  | expectAnykvpAny (n : Nat)
  | expectAnykvpInt (n : Nat)
  | expectAnykvpFloat (n : Nat)
  | expectAnykvpStr (n : Nat)
  | expectAnykvpBool (n : Nat)
  | expectAnykvpObject (n : Nat)
  | expectAnykvpObjectIter (n : Nat)
  | expectAnykvpArray (n : Nat)
  | expectAnykvpArrayIter (n : Nat)
  | expectObject (n : Nat)
  | expectObjectIter (n : Nat)
  | expectArray (n : Nat)
  | expectArrayIter (n : Nat)
  | outOfFuel
  deriving DecidableEq

/-- `data` are the bytes of the stream up to its end mark, `feed` the chunks that `read_more`
has still to deliver before the end of the file. -/
structure JparseCtx where
  data : List UInt8
  feed : List (List UInt8)
  pos : Nat
  errorpos : Int
  deriving DecidableEq

/-- The member of the union that has been written last. A `double` is kept as the text
that `strtod` has been given. -/
inductive JparseV where
  | null
  | s (s : Strz)
  | f (text : List UInt8)
  | b (b : Bool)
  deriving DecidableEq

structure JparseValue where
  k : Option Strz
  v : JparseV
  ty : JsonType
  deriving DecidableEq

def jparseValueInit : JparseValue := { k := none, v := .null, ty := .undef }

/-- An operation with what it writes to. -/
abbrev Expect (S : Type) := JparseCtx → S → JparseRes × JparseCtx × S

namespace JparseCtx

/-- All the bytes, whether they have been delivered or not. -/
def text (ctx : JparseCtx) : List UInt8 := ctx.data ++ ctx.feed.flatten

def ahead (ctx : JparseCtx) : Nat := ctx.text.length - ctx.pos

/-- `SNEEDMORE` with `bytestream_consume_data`, and `SPCHR`. Behind the data the buffer reads
as 0. -/
def fetch (ctx : JparseCtx) : Option UInt8 × JparseCtx :=
  if ctx.pos < ctx.data.length then
    (some (ctx.data.getD ctx.pos 0), ctx)
  else
    match ctx.feed with
    | [] => (none, ctx)
    | chunk :: feed =>
        let ctx := { ctx with data := ctx.data ++ chunk, feed := feed }
        (some (ctx.data.getD ctx.pos 0), ctx)

/-- The bytes from `start` to the position. -/
def since (ctx : JparseCtx) (start : Nat) : List UInt8 := (ctx.data.take ctx.pos).drop start

def begun (ctx : JparseCtx) : JparseCtx := { ctx with errorpos := -1 }

/-- What an operation does that fails: it marks the place if none is marked, and goes back. -/
def back (ctx : JparseCtx) (spos : Nat) : JparseCtx :=
  { ctx with errorpos := if ctx.errorpos = -1 then ctx.pos else ctx.errorpos, pos := spos }

end JparseCtx

section

variable {S : Type}

/-- The loops over characters, up to one that they do not take, or up to the end of the file.
The fuel is more than the characters that are left. -/
def scan (step : S → UInt8 → Option S) : Nat → S → JparseCtx → Option UInt8 × S × JparseCtx
  | 0, st, ctx => (none, st, ctx)
  | fuel + 1, st, ctx =>
      match ctx.fetch with
      | (none, ctx) => (none, st, ctx)
      | (some ch, ctx) =>
          match step st ch with
          | some st => scan step fuel st { ctx with pos := ctx.pos + 1 }
          | none => (some ch, st, ctx)

def scanAll (step : S → UInt8 → Option S) (st : S) (ctx : JparseCtx) : Option UInt8 × S × JparseCtx :=
  scan step (ctx.ahead + 1) st ctx

/-- Stays as long as the characters are of a kind. -/
def passing (P : UInt8 → Bool) (_ : Unit) (ch : UInt8) : Option Unit := if P ch then some () else none

end

def jsnIsSpace (c : UInt8) : Bool := c = 32 || c = 9 || c = 13 || c = 10

def reachNonblank (ctx : JparseCtx) : JparseRes × JparseCtx :=
  match scanAll (passing jsnIsSpace) () ctx with
  | (none, _, ctx) => (.reachNonblank 1, ctx)
  | (some _, _, ctx) => (.ok, ctx)

def reachBody (delim : UInt8) (ctx : JparseCtx) : JparseRes × JparseCtx :=
  let spos := ctx.pos
  match scanAll (passing fun ch => ch ≠ delim && jsnIsSpace ch) () ctx with
  | (none, _, ctx) => (.reach delim 1, ctx)
  | (some ch, _, ctx) =>
      if ch = delim then (.ok, { ctx with pos := ctx.pos + 1 }) else (.reach delim 2, ctx.back spos)

def probeBody (delim : UInt8) (ctx : JparseCtx) : JparseRes × JparseCtx :=
  let spos := ctx.pos
  match scanAll (passing fun ch => ch ≠ delim && jsnIsSpace ch) () ctx with
  | (none, _, ctx) => (.probe delim 1, ctx)
  | (some ch, _, ctx) => if ch = delim then (.ok, ctx) else (.probe delim 2, ctx.back spos)

def reachOstart (ctx : JparseCtx) : JparseRes × JparseCtx := reachBody 123 ctx

def probeOstart (ctx : JparseCtx) : JparseRes × JparseCtx := probeBody 123 ctx

def reachOstop (ctx : JparseCtx) : JparseRes × JparseCtx := reachBody 125 ctx

def reachAstart (ctx : JparseCtx) : JparseRes × JparseCtx := reachBody 91 ctx

def probeAstart (ctx : JparseCtx) : JparseRes × JparseCtx := probeBody 91 ctx

def reachAstop (ctx : JparseCtx) : JparseRes × JparseCtx := reachBody 93 ctx

def reachComma (ctx : JparseCtx) : JparseRes × JparseCtx := reachBody 44 ctx

def reachDquote (ctx : JparseCtx) : JparseRes × JparseCtx := reachBody 34 ctx

def probeDquote (ctx : JparseCtx) : JparseRes × JparseCtx := probeBody 34 ctx

def reachColon (ctx : JparseCtx) : JparseRes × JparseCtx := reachBody 58 ctx

/-- The token is not there if the loop has not begun. -/
def jparseExpectTok (ctx : JparseCtx) : JparseRes × JparseCtx × Option Strz :=
  match reachNonblank ctx.begun with
  | (.ok, ctx) =>
      let start := ctx.pos
      let (ch, _, ctx) := scanAll (passing fun ch => IsLetter ch) () ctx
      (if ch = none then .expectTok 1 else .ok, ctx, some ⟨ctx.since start⟩)
  | (_, ctx) => (.expectTok 1, ctx, none)

def expectMaybeNull (ctx : JparseCtx) : JparseRes × JparseCtx :=
  let spos := ctx.pos
  match jparseExpectTok ctx.begun with
  | (.ok, ctx, v) => if v = some ⟨[110, 117, 108, 108]⟩ then (.ok, ctx) else (.notNull, ctx.back spos)
  | (_, ctx, _) => (.notNull, ctx.back spos)

def jparseExpectBool (ctx : JparseCtx) : JparseRes × JparseCtx × Option Bool :=
  let spos := ctx.pos
  match jparseExpectTok ctx.begun with
  | (.ok, ctx, v) =>
      if v = some ⟨[116, 114, 117, 101]⟩ then (.ok, ctx, some true)
      else if v = some ⟨[102, 97, 108, 115, 101]⟩ then (.ok, ctx, some false)
      else (.expectBool 1, ctx.back spos, none)
  | (_, ctx, _) => (.expectBool 2, ctx.back spos, none)

/-- The states `JPS_FLOAT*` but for the one that is not gone on from. -/
inductive FloatState where
  | floatIn | float1 | dot | float2 | e | e1
  deriving DecidableEq

def floatStep (st : FloatState) (ch : UInt8) : Option FloatState :=
  match st with
  | .floatIn => if IsDigit ch ∨ ch = 45 ∨ ch = 43 then some .float1 else if ch = 46 then some .dot else none
  | .float1 =>
      if IsDigit ch then some .float1 else if ch = 46 then some .dot
      else if ch = 101 ∨ ch = 69 then some .e else none
  | .dot => if IsDigit ch then some .float2 else if ch = 101 ∨ ch = 69 then some .e else none
  | .float2 => if IsDigit ch then some .float2 else if ch = 101 ∨ ch = 69 then some .e else none
  | .e => if IsDigit ch ∨ ch = 45 ∨ ch = 43 then some .e1 else none
  | .e1 => if IsDigit ch ∨ ch = 45 ∨ ch = 43 then some .e1 else none

/-- `strtod` reads from the first character on, and not only what has been scanned. -/
def jparseExpectFloat (ctx : JparseCtx) : JparseRes × JparseCtx × Option (List UInt8) :=
  match reachNonblank ctx.begun with
  | (.ok, ctx) =>
      let start := ctx.pos
      let (ch, _, ctx) := scanAll floatStep .floatIn ctx
      (if ch = none then .expectFloat 1 else .ok, ctx, some (ctx.data.drop start))
  | (_, ctx) => (.expectFloat 1, ctx, none)

/-- `JPS_STRIN` and `JPS_STR` differ in name only. -/
inductive StrState where
  | str | esc
  deriving DecidableEq

/-- The second component is `JPS_FNEEDUNESCAPE`. -/
def strStep : StrState × Bool → UInt8 → Option (StrState × Bool)
  | (.esc, flag), _ => some (.str, flag)
  | (.str, flag), ch =>
      if ch = 92 then some (.esc, true) else if ch = 34 then none else some (.str, flag)

/-- At the end of the file the position goes on as if there were a quotation mark. -/
def jparseExpectStr (ctx : JparseCtx) : JparseRes × JparseCtx × Option Strz :=
  let spos := ctx.pos
  match reachDquote ctx.begun with
  | (.ok, ctx) =>
      let start := ctx.pos
      let (ch, (_, flag), ctx) := scanAll strStep (.str, false) ctx
      let val : Strz := ⟨ctx.since start⟩
      (if ch = none then .expectStr 2 else .ok, { ctx with pos := ctx.pos + 1 },
        some (if flag then bytesJsonUnescape val else val))
  | (_, ctx) => (.expectStr 1, ctx.back spos, none)

section

variable {S : Type}

/-- The end of a member or an item. -/
def nextComma (ctx : JparseCtx) : JparseRes × JparseCtx :=
  match reachComma ctx with
  | (.ok, ctx) => (.ok, ctx)
  | (_, ctx) => (.eos, ctx)

/-- A value that may be null, and the comma behind it. -/
def expectValue (value : Expect S) : Expect S := fun ctx s =>
  match expectMaybeNull ctx with
  | (.ok, ctx) =>
      let (res, ctx) := nextComma ctx
      (res, ctx, s)
  | (_, ctx) =>
      match value ctx s with
      | (.ok, ctx, s) =>
          let (res, ctx) := nextComma ctx
          (res, ctx, s)
      | failed => failed

/-- The body of the functions for a key with a value. The key is written even if its string
goes on to the end of the file. -/
def expectAnykvp (code : Nat → JparseRes) (setKey : Strz → S → S) (value : Expect S) : Expect S := fun ctx s =>
  match jparseExpectStr ctx.begun with
  | (.ok, ctx, key) =>
      let s := key.elim s fun key => setKey key s
      match reachColon ctx with
      | (.ok, ctx) => expectValue value ctx s
      | (_, ctx) => (code 2, ctx, s)
  | (_, ctx, key) => (code 1, ctx, key.elim s fun key => setKey key s)

/-- `jparse_expect_anykvp_ignore`, with the parser of the value. -/
def jparseExpectAnykvpIgnore (ignore : Expect JparseValue) : Expect JparseValue :=
  expectAnykvp .expectAnykvpIgnore (fun key jval => { jval with k := some key }) ignore

/-- The pointers to the key and to the value of a `jparse_expect_anykvp_str`. -/
structure StrPair where
  key : Option Strz
  val : Option Strz
  deriving DecidableEq

def jparseExpectAnykvpStr : Expect StrPair :=
  expectAnykvp .expectAnykvpStr (fun key pair => { pair with key := some key }) fun ctx pair =>
    let (res, ctx, val) := jparseExpectStr ctx
    (res, ctx, { pair with val := val.or pair.val })

/-- A value that goes back to a place if it fails. -/
def goingBack (spos : Nat) (value : Expect S) : Expect S := fun ctx s =>
  match value ctx s with
  | (.ok, ctx, s) => (.ok, ctx, s)
  | (res, ctx, s) => (res, ctx.back spos, s)

/-- `jparse_expect_item_ignore`, with the parser of the value. -/
def jparseExpectItemIgnore (ignore : Expect JparseValue) : Expect JparseValue := fun ctx jval =>
  expectValue (goingBack ctx.pos ignore) ctx.begun jval

/-- Calls as long as the result is 0. -/
def iterate (cb : Expect S) : Nat → Expect S
  | 0, ctx, s => (.outOfFuel, ctx, s)
  | fuel + 1, ctx, s =>
      match cb ctx s with
      | (.ok, ctx, s) => iterate cb fuel ctx s
      | stopped => stopped

/-- The common body of `jparse_expect_object_iter` and `jparse_expect_array_iter`. -/
def expectIter (reachStart reachStop : JparseCtx → JparseRes × JparseCtx) (code : Nat → JparseRes) (cb : Expect S) :
    Expect S := fun ctx s =>
  let spos := ctx.pos
  match reachStart ctx.begun with
  | (.ok, ctx) =>
      let spos := ctx.pos
      match iterate cb (ctx.ahead + 2) ctx s with
      | (.outOfFuel, ctx, s) => (.outOfFuel, ctx, s)
      | (res, ctx, s) =>
          if res = .eos ∨ spos = ctx.pos then
            match reachStop ctx with
            | (.ok, ctx) => (.ok, ctx, s)
            | (_, ctx) => (code 2, ctx.back spos, s)
          else
            (res, ctx.back spos, s)
  | (_, ctx) => (code 1, ctx.back spos, s)

def jparseExpectObjectIter (cb : Expect S) : Expect S := expectIter reachOstart reachOstop .expectObjectIter cb

def jparseExpectArrayIter (cb : Expect S) : Expect S := expectIter reachAstart reachAstop .expectArrayIter cb

end

/-- The ends of `jparse_expect_ignore`. -/
def ignoreEnd (start : Nat) (parsed : JparseRes × JparseCtx × JparseValue) : JparseRes × JparseCtx × JparseValue :=
  match parsed with
  | (.ok, ctx, jval) => (.ok, ctx, jval)
  | (.outOfFuel, ctx, jval) => (.outOfFuel, ctx, jval)
  | (_, ctx, jval) => (.expectIgnore 1, ctx.back start, jval)

def ignoreStr : Expect JparseValue := fun ctx jval =>
  let (res, ctx, val) := jparseExpectStr ctx
  let jval := val.elim jval fun s => { jval with v := .s s }
  (res, ctx, if res = .ok then { jval with ty := .string } else jval)

def ignoreObject (ignore : Expect JparseValue) : Expect JparseValue := fun ctx jval =>
  let (res, ctx, jval) := jparseExpectObjectIter (jparseExpectAnykvpIgnore ignore) ctx { jval with ty := .object }
  (res, ctx, if res = .ok then { jval with ty := .object } else jval)

theorem ignoreObject_res (ignore : Expect JparseValue) (ctx : JparseCtx) (jval : JparseValue) :
    (ignoreObject ignore ctx jval).1 =
      (jparseExpectObjectIter (jparseExpectAnykvpIgnore ignore) ctx { jval with ty := .object }).1 := rfl

theorem ignoreObject_ctx (ignore : Expect JparseValue) (ctx : JparseCtx) (jval : JparseValue) :
    (ignoreObject ignore ctx jval).2.1 =
      (jparseExpectObjectIter (jparseExpectAnykvpIgnore ignore) ctx { jval with ty := .object }).2.1 := rfl

/-- The type is that of the last item. -/
def ignoreArray (ignore : Expect JparseValue) : Expect JparseValue := fun ctx jval =>
  jparseExpectArrayIter (jparseExpectItemIgnore ignore) ctx { jval with ty := .array }

def ignoreFloat : Expect JparseValue := fun ctx jval =>
  let (res, ctx, val) := jparseExpectFloat ctx
  let jval := val.elim jval fun text => { jval with v := .f text }
  (res, ctx, if res = .ok then { jval with ty := .float } else jval)

def whether {S : Type} (probe : JparseCtx → JparseRes × JparseCtx) (yes no : Expect S) : Expect S := fun ctx s =>
  match probe ctx with
  | (.ok, ctx) => yes ctx s
  | (_, ctx) => no ctx s

/-- The values that are no literals. -/
def ignoreOther (ignore : Expect JparseValue) : Expect JparseValue :=
  whether probeDquote ignoreStr
    (whether probeOstart (ignoreObject ignore) (whether probeAstart (ignoreArray ignore) ignoreFloat))

/-- `jparse_expect_ignore` for texts of so many levels. -/
def ignoreWithin : Nat → Expect JparseValue
  | 0, ctx, jval => (.outOfFuel, ctx, jval)
  | depth + 1, ctx, jval =>
      match reachNonblank ctx.begun with
      | (.ok, ctx) =>
          let start := ctx.pos
          match expectMaybeNull ctx with
          | (.ok, ctx) => (.ok, ctx, { jval with ty := .null })
          | (_, ctx) =>
              match jparseExpectBool ctx with
              | (.ok, ctx, b) => (.ok, ctx, { jval with v := (b.map .b).getD jval.v, ty := .boolean })
              | (_, ctx, _) => ignoreEnd start (ignoreOther (ignoreWithin depth) ctx jval)
      | (_, ctx) => (.expectIgnore 1, ctx, jval)

/-- There are no more levels than characters. -/
def jparseExpectIgnore : Expect JparseValue := fun ctx jval => ignoreWithin (ctx.ahead + 1) ctx jval

/-- A stream of which nothing has been read. -/
def jparseStart (feed : List (List UInt8)) : JparseCtx := { data := [], feed := feed, pos := 0, errorpos := -1 }

example : (jparseExpectIgnore (jparseStart [[91, 49, 44], [116, 114], [117, 101, 93, 32]]) jparseValueInit).1 = .ok := by
  decide +kernel

end MnCommon.Jparse
